import ThriftIdl.Proofs.LinkedServices
import ThriftIdl.Proofs.LinkingRules
import ThriftIdl.Proofs.SymbolTables
import ThriftIdl.Proofs.Trails

namespace ThriftIdl

/-- The services of a file with ids from `first` on, the newest first. -/
def serviceSymbols (first : ServiceId) (decls : List ServiceDecl) : List (String × ServiceId) :=
  (decls.zipIdx.map fun (decl, i) => (decl.name, first + i)).reverse

def LinkState.defineServices (st : LinkState) (program : ProgramId) (first : ServiceId)
    (decls : List ServiceDecl) : LinkState :=
  { st with programs := st.programs.modify program fun p =>
      { p with services := serviceSymbols first decls ++ p.services } }

section Symbols

variable {first : ServiceId} {decls : List ServiceDecl} {name : String} {id : ServiceId}
  {st : LinkState} {program : ProgramId}

theorem serviceSymbols_names (first : ServiceId) (decls : List ServiceDecl) :
    (serviceSymbols first decls).map Prod.fst = (decls.map (·.name)).reverse := by
  unfold serviceSymbols
  rw [List.map_reverse, List.map_map]
  congr 1
  have hfst := congrArg (List.map (·.name)) (List.zipIdx_map_fst 0 decls)
  rwa [List.map_map] at hfst

theorem lookup_serviceSymbols (hnd : (decls.map (·.name)).Nodup) :
    (serviceSymbols first decls).lookup name = some id ↔
      ∃ i decl, decls[i]? = some decl ∧ decl.name = name ∧ first + i = id := by
  have hkeys : ((serviceSymbols first decls).map Prod.fst).Nodup := by
    rw [serviceSymbols_names]
    exact List.nodup_reverse.2 hnd
  rw [lookup_eq_some_iff_mem hkeys]
  unfold serviceSymbols
  rw [List.mem_reverse, List.mem_map]
  constructor
  · rintro ⟨⟨decl, i⟩, hm, he⟩
    obtain ⟨hname, hid⟩ := Prod.mk.inj he
    exact ⟨i, decl, List.mk_mem_zipIdx_iff_getElem?.1 hm, hname, hid⟩
  · rintro ⟨i, decl, hm, rfl, rfl⟩
    exact ⟨(decl, i), List.mk_mem_zipIdx_iff_getElem?.2 hm, rfl⟩

theorem foldl_defineService (decls : List (ServiceDecl × Nat)) :
    decls.foldl (fun st (decl, i) => st.defineService program decl.name (first + i)) st =
      { st with programs := st.programs.modify program fun p =>
          { p with services :=
              (decls.map fun (decl, i) => (decl.name, first + i)).reverse ++ p.services } } := by
  induction decls generalizing st with
  | nil =>
    have hid : (fun p : Program => { p with services :=
        (([] : List (ServiceDecl × Nat)).map fun (decl, i) => (decl.name, first + i)).reverse ++
          p.services }) = id := rfl
    rw [hid, List.modify_id]
    rfl
  | cons decl decls ih =>
    obtain ⟨decl, i⟩ := decl
    rw [List.foldl_cons, ih]
    unfold LinkState.defineService Program.defineService
    dsimp only
    rw [List.modify_modify_eq]
    simp [Function.comp_def]

theorem defineServices_keeps (h : st.WellFormed) (program : ProgramId) (first : ServiceId)
    (decls : List ServiceDecl) : st.Keeps program (st.defineServices program first decls) := by
  have hk : st.Keeps program _ := .defineServices h first decls.zipIdx
  rwa [foldl_defineService] at hk

end Symbols

namespace Linking

open Relation (TransGen)
open Trail (Leads)

/-- The base of one of a file's services is another of them. -/
def Extends (decls : List ServiceDecl) (i j : Nat) : Prop :=
  ∃ d e, decls[i]? = some d ∧ decls[j]? = some e ∧ d.base = some e.name

/-- A way through a file's services that comes back to its first place, and passes none twice. -/
structure Loop (decls : List ServiceDecl) (cycle : List Nat) (i : Nat) : Prop where
  nodup : cycle.Nodup
  chain : cycle.IsChain (Extends decls)
  first : cycle.head? = some i
  closes : ∃ last, cycle.getLast? = some last ∧ Extends decls last i

/-- The complaint about the first service from which inheritance leads back to it. -/
def ReportsLoop (decls : List ServiceDecl) (position : Position) (fault : LinkFault) : Prop :=
  ∃ cycle i decl names, Loop decls cycle i ∧ (∀ k < i, ¬ TransGen (Extends decls) k k) ∧
    decls[i]? = some decl ∧ position = decl.position ∧
    names.map some = (cycle ++ [i]).map (fun j => decls[j]?.map (·.name)) ∧
    fault = .circularInheritance names ∧
    fault.message = "circular service inheritance: " ++ " -> ".intercalate names

def baseWithin (first : ServiceId) (bases : List (Option ServiceId)) (i : Nat) : Option Nat := do
  let base ← (← bases[i]?)
  if first ≤ base then some (base - first) else none

section Inheritance

variable {first : ServiceId} {decls : List ServiceDecl} {bases : List (Option ServiceId)}
  {i j : Nat} {position : Position} {fault : LinkFault}

theorem baseWithin_eq_some_iff : baseWithin first bases i = some j ↔
    bases[i]? = some (some (first + j)) := by
  unfold baseWithin
  rcases hb : bases[i]? with _ | _ | base
  · simp
  · simp
  · have hiff (first base : Nat) : (if first ≤ base then some (base - first) else none) = some j ↔
        base = first + j := by
      by_cases hle : first ≤ base
      · rw [if_pos hle, Option.some.injEq]
        omega
      · rw [if_neg hle]
        simp only [reduceCtorEq, false_iff]
        omega
    simpa using hiff first base

theorem Extends.lt_length (h : Extends decls i j) : i < decls.length ∧ j < decls.length := by
  obtain ⟨d, e, hi, hj, -⟩ := h
  exact ⟨(List.getElem?_eq_some_iff.1 hi).1, (List.getElem?_eq_some_iff.1 hj).1⟩

theorem filterMap_names {places : List Nat} (h : ∀ j ∈ places, j < decls.length) :
    (places.filterMap fun j => decls[j]?.map (·.name)).map some =
      places.map fun j => decls[j]?.map (·.name) := by
  induction places with
  | nil => rfl
  | cons j places ih =>
    have hj := List.getElem?_eq_getElem (h j List.mem_cons_self)
    have hrest := ih fun k hk => h k (List.mem_cons_of_mem _ hk)
    simp only [List.filterMap_cons, hj, Option.map_some, List.map_cons, hrest]

variable (hb : ∀ i j, baseWithin first bases i = some j ↔ Extends decls i j)

include hb

theorem trail_walked (hi : i < decls.length) : Trail.Walked (baseWithin first bases) i
    (Trail.start (baseWithin first bases) decls.length i) :=
  Trail.start_walked (fun j k hjk => ((hb j k).1 hjk).lt_length.2) hi

theorem leads_eq_extends : Leads (baseWithin first bases) = Extends decls := by
  funext i j
  exact propext (hb i j)

theorem returns_iff (hi : i < decls.length) :
    (Trail.start (baseWithin first bases) decls.length i).reentry = some i ↔
      TransGen (Extends decls) i i := by
  rw [(trail_walked hb hi).returns_first_iff, leads_eq_extends hb]

theorem loop_of_returns (hi : i < decls.length)
    (hr : (Trail.start (baseWithin first bases) decls.length i).reentry = some i) :
    Loop decls (Trail.start (baseWithin first bases) decls.length i).visited i := by
  have hw := trail_walked hb hi
  have hchain := hw.chain
  rw [leads_eq_extends hb] at hchain
  obtain ⟨last, hlast, -, hn⟩ := hw.last_mem
  refine ⟨hw.nodup, hchain, hw.first, last, hlast, ?_⟩
  rw [← hb, hn, hr]

theorem inheritanceFault?_eq_none_iff :
    inheritanceFault? first decls bases = none ↔ ∀ i, ¬ TransGen (Extends decls) i i := by
  change (decls.zipIdx.findSome? fun item => if
    (Trail.start (baseWithin first bases) decls.length item.2).reentry = some item.2 then _
      else none) = none ↔ _
  rw [List.findSome?_eq_none_iff]
  constructor
  · intro h i hcycle
    obtain ⟨j, hij, -⟩ := TransGen.head'_iff.1 hcycle
    have hi := hij.lt_length.1
    have hnone := h (decls[i], i) (List.mk_mem_zipIdx_iff_getElem?.2 (List.getElem?_eq_getElem hi))
    simp only [(returns_iff hb hi).2 hcycle, if_true, reduceCtorEq] at hnone
  · rintro h ⟨decl, i⟩ hm
    have hi := (List.getElem?_eq_some_iff.1 (List.mk_mem_zipIdx_iff_getElem?.1 hm)).1
    have hr : (Trail.start (baseWithin first bases) decls.length i).reentry ≠ some i :=
      fun hr => h i ((returns_iff hb hi).1 hr)
    simp only [hr, if_false]

theorem inheritanceFault?_reports
    (h : inheritanceFault? first decls bases = some (position, fault)) :
    ReportsLoop decls position fault := by
  change (decls.zipIdx.findSome? fun item => if
    (Trail.start (baseWithin first bases) decls.length item.2).reentry = some item.2 then
      some (item.1.position, LinkFault.circularInheritance (((Trail.start (baseWithin first bases)
        decls.length item.2).visited ++ [item.2]).filterMap fun j => decls[j]?.map (·.name)))
      else none) = _ at h
  obtain ⟨before, ⟨decl, i⟩, after, he, hsome, hbefore⟩ := List.findSome?_eq_some_iff.1 h
  have hplace (k : Nat) (item : ServiceDecl × Nat) (hk : (before ++ (decl, i) :: after)[k]? = some item) :
      decls[k]? = some item.1 ∧ item.2 = k := by
    rw [← he, List.getElem?_zipIdx] at hk
    obtain ⟨d, hd, rfl⟩ := Option.map_eq_some_iff.1 hk
    exact ⟨hd, by simp⟩
  obtain ⟨hdecl, rfl⟩ := hplace before.length (decl, i) (by simp)
  have hi := (List.getElem?_eq_some_iff.1 hdecl).1
  by_cases hr : (Trail.start (baseWithin first bases) decls.length before.length).reentry =
      some before.length
  · simp only [hr, if_true, Option.some.injEq, Prod.mk.injEq] at hsome
    obtain ⟨rfl, rfl⟩ := hsome
    have hloop := loop_of_returns hb hi hr
    refine ⟨_, _, decl, _, hloop, ?_, hdecl, rfl, filterMap_names ?_, rfl, rfl⟩
    · intro k hk hcycle
      have hm : before[k] ∈ before := List.getElem_mem hk
      have hnone := hbefore _ hm
      obtain ⟨hd, hplace⟩ := hplace k before[k] (by rw [List.getElem?_append_left hk]; simp [hk])
      rw [hplace] at hnone
      simp only [(returns_iff hb (hk.trans hi)).2 hcycle, if_true, reduceCtorEq] at hnone
    · intro j hj
      rcases List.mem_append.1 hj with hj | hj
      · have hreach := Trail.reaches_of_chain (trail_walked hb hi).chain (trail_walked hb hi).first hj
        rw [leads_eq_extends hb] at hreach
        rcases Relation.ReflTransGen.cases_tail hreach with rfl | ⟨k, -, hkj⟩
        · exact hi
        · exact hkj.lt_length.2
      · obtain rfl := List.mem_singleton.1 hj
        exact hi
  · simp only [hr, if_false, reduceCtorEq] at hsome

end Inheritance

/-- The services of a program come next: it has none yet, and the programs that it includes have
theirs. -/
structure ServicesReady (st : LinkState) (program : ProgramId) (p : Program) (first : ServiceId) :
    Prop where
  present : ∃ q, st.programs[program]? = some q ∧ q.includes = p.includes ∧ q.services = []
  distinct : (p.document.services.map (·.name)).Nodup
  others : ∀ inc ∈ p.includes, inc.target ≠ program
  earlier : ∀ inc ∈ p.includes, ∀ q, st.programs[inc.target]? = some q →
    ∀ name id, q.serviceSymbol name = some id → id < first

def BaseFound (st : LinkState) (program : ProgramId) (decl : ServiceDecl) : Prop :=
  ∀ name, decl.base = some name → (st.lookupService program name).isSome

def basesIn (st : LinkState) (program : ProgramId) (decls : List ServiceDecl) :
    List (Option ServiceId) :=
  decls.map fun decl => decl.base.bind (st.lookupService program)

structure ServicesLinked (st : LinkState) (program : ProgramId) (p : Program) (first : ServiceId)
    (services : List Service) : Prop where
  ids : services.map (·.id) = List.range' first p.document.services.length
  bases : services.map (·.base) = basesIn st program p.document.services
  found : ∀ decl ∈ p.document.services, BaseFound st program decl
  within : ∀ i j, baseWithin first (services.map (·.base)) i = some j ↔
    Extends p.document.services i j
  acyclic : ∀ i, ¬ TransGen (Extends p.document.services) i i

section Bases

variable {st st' : LinkState} {program : ProgramId} {locate : Position → Location}
  {decls : List ServiceDecl} {bases : List (Option ServiceId)}

theorem exec_linkBase (locate : Position → Location) {decl : ServiceDecl}
    (h : BaseFound st program decl) :
    exec (linkBase program locate decl) st =
      (.ok (decl.base.bind (st.lookupService program)), st) := by
  unfold linkBase
  cases hb : decl.base with
  | none => rfl
  | some name =>
    obtain ⟨id, hid⟩ := Option.isSome_iff_exists.1 (h name hb)
    dsimp only
    rw [exec_bind_of_ok (exec_get st), hid, Option.bind_some, hid]
    rfl

theorem baseFound_of_ok {decl : ServiceDecl} {base : Option ServiceId}
    (h : exec (linkBase program locate decl) st = (.ok base, st')) :
    BaseFound st program decl := by
  intro name hb
  unfold linkBase at h
  rw [hb] at h
  dsimp only at h
  rw [exec_bind_of_ok (exec_get st)] at h
  cases hl : st.lookupService program name with
  | some id => rfl
  | none =>
    rw [hl] at h
    simp [exec_refuse] at h

theorem exec_linkBases (h : ∀ decl ∈ decls, BaseFound st program decl) :
    exec (decls.mapM (linkBase program locate)) st = (.ok (basesIn st program decls), st) := by
  induction decls with
  | nil => rfl
  | cons decl decls ih =>
    have hdecl := exec_linkBase locate (h decl List.mem_cons_self)
    have hrest := ih fun d hd => h d (List.mem_cons_of_mem _ hd)
    rw [List.mapM_cons, exec_bind_of_ok hdecl, exec_bind_of_ok hrest]
    rfl

theorem basesFound_of_ok (h : exec (decls.mapM (linkBase program locate)) st = (.ok bases, st')) :
    ∀ decl ∈ decls, BaseFound st program decl := by
  induction decls generalizing bases st' with
  | nil => simp
  | cons decl decls ih =>
    rw [List.mapM_cons] at h
    obtain ⟨base, st₁, h₁, h⟩ := exec_bind_ok_iff.1 h
    obtain ⟨others, st₂, h₂, -⟩ := exec_bind_ok_iff.1 h
    obtain rfl := linkBase_ok h₁
    exact List.forall_mem_cons.2 ⟨baseFound_of_ok h₁, ih h₂⟩

end Bases

section Run

variable {st st' : LinkState} {program : ProgramId} {p : Program} {first : ServiceId}
  {services : List Service}

theorem exec_linkServices (st : LinkState) (program : ProgramId) (p : Program)
    (first : ServiceId) : exec (linkServices program p first) st =
      exec (p.document.services.mapM (linkBase program p.locate) >>= fun bases =>
        match inheritanceFault? first p.document.services bases with
        | some (position, fault) => refuse (p.locate position) fault
        | none => (p.document.services.zip bases).zipIdx.mapM fun ((decl, base), i) =>
            linkService program p (first + i) decl base)
        (st.defineServices program first p.document.services) := by
  unfold linkServices
  rw [exec_bind_of_ok (exec_modify _ st), foldl_defineService]
  rfl

theorem linkEach_within (program : ProgramId) (p : Program) (first : ServiceId)
    (items : List ((ServiceDecl × Option ServiceId) × Nat)) :
    Within SamePrograms FoundInDeclaration (items.mapM fun ((decl, base), i) =>
      linkService program p (first + i) decl base) :=
  .mapM fun item => linkService_within (resolve_within program) (first + item.2) item.1.1 item.1.2

theorem defineServices_others {decls : List ServiceDecl} {i : ProgramId} (hi : i ≠ program) :
    (st.defineServices program first decls).programs[i]? = st.programs[i]? :=
  List.getElem?_modify_ne _ _ hi.symm

namespace ServicesReady

theorem lookup (h : ServicesReady st program p first) (name : String) :
    (st.defineServices program first p.document.services).lookupService program name =
      ((serviceSymbols first p.document.services).lookup name).or
        (includedSymbol Program.serviceSymbol st.programs p name) := by
  obtain ⟨q, hq, hincludes, hnone⟩ := h.present
  have hown : (st.defineServices program first p.document.services).programs[program]? =
      some { q with services := serviceSymbols first p.document.services ++ q.services } := by
    unfold LinkState.defineServices
    rw [List.getElem?_modify_eq, hq]
    rfl
  unfold LinkState.lookupService
  rw [lookupService_eq hown, hnone, List.append_nil]
  congr 1
  apply includedSymbol_of_same hincludes.symm
  intro inc hinc
  exact defineServices_others (h.others inc hinc)

theorem baseWithin_iff (h : ServicesReady st program p first) (i j : Nat) :
    baseWithin first (basesIn (st.defineServices program first p.document.services) program
      p.document.services) i = some j ↔ Extends p.document.services i j := by
  rw [baseWithin_eq_some_iff]
  unfold basesIn Extends
  rw [List.getElem?_map, Option.map_eq_some_iff]
  constructor
  · rintro ⟨d, hd, hbase⟩
    obtain ⟨name, hname, hl⟩ := Option.bind_eq_some_iff.1 hbase
    rw [h.lookup, Option.or_eq_some_iff] at hl
    rcases hl with hl | ⟨-, hl⟩
    · obtain ⟨k, e, he, rfl, hk⟩ := (lookup_serviceSymbols h.distinct).1 hl
      obtain rfl : k = j := Nat.add_left_cancel hk
      exact ⟨d, e, hd, he, hname⟩
    · obtain ⟨inc, hinc, q, hq, name', hs⟩ := includedSymbol_eq_some hl
      have hlt := h.earlier inc hinc q hq name' _ hs
      exact absurd hlt (Nat.not_lt.2 (Nat.le_add_right first j))
  · rintro ⟨d, e, hd, he, hname⟩
    have hown : (serviceSymbols first p.document.services).lookup e.name = some (first + j) :=
      (lookup_serviceSymbols h.distinct).2 ⟨j, e, he, rfl, rfl⟩
    refine ⟨d, hd, ?_⟩
    rw [hname, Option.bind_some, h.lookup, hown, Option.some_or]

theorem refuses_iff (h : ServicesReady st program p first)
    (hf : ∀ decl ∈ p.document.services,
      BaseFound (st.defineServices program first p.document.services) program decl) :
    (∃ location names, (exec (linkServices program p first) st).1 =
      .error (.unlinkable location (.circularInheritance names))) ↔
        ∃ i, TransGen (Extends p.document.services) i i := by
  rw [exec_linkServices, exec_bind_of_ok (exec_linkBases hf)]
  have hnone := inheritanceFault?_eq_none_iff h.baseWithin_iff
  cases hi : inheritanceFault? first p.document.services (basesIn
      (st.defineServices program first p.document.services) program p.document.services) with
  | some found =>
    obtain ⟨position, fault⟩ := found
    obtain ⟨cycle, i, decl, names, -, -, -, -, -, rfl, -⟩ :=
      inheritanceFault?_reports h.baseWithin_iff hi
    rw [hi] at hnone
    have hcycle : ∃ i, TransGen (Extends p.document.services) i i := by
      simpa using hnone
    exact iff_of_true ⟨p.locate position, names, rfl⟩ hcycle
  | none =>
    refine iff_of_false ?_ (not_exists.2 (hnone.1 hi))
    rintro ⟨location, names, he⟩
    obtain ⟨location', fault, hfault, hin⟩ := (linkEach_within program p first _ _).2 _ he
    cases hfault
    cases hin

theorem reports (h : ServicesReady st program p first) {location : Location} {names : List String}
    (he : (exec (linkServices program p first) st).1 =
      .error (.unlinkable location (.circularInheritance names)))
    (hf : ∀ decl ∈ p.document.services,
      BaseFound (st.defineServices program first p.document.services) program decl) :
    ∃ position, location = p.locate position ∧
      ReportsLoop p.document.services position (.circularInheritance names) := by
  obtain ⟨i, hcycle⟩ := (h.refuses_iff hf).1 ⟨location, names, he⟩
  have hnone := inheritanceFault?_eq_none_iff h.baseWithin_iff
  rw [exec_linkServices, exec_bind_of_ok (exec_linkBases hf)] at he
  cases hi : inheritanceFault? first p.document.services (basesIn
      (st.defineServices program first p.document.services) program p.document.services) with
  | some found =>
    obtain ⟨position, fault⟩ := found
    rw [hi] at he
    obtain ⟨rfl, rfl⟩ : p.locate position = location ∧ fault = .circularInheritance names := by
      simpa [exec_refuse] using he
    exact ⟨position, rfl, inheritanceFault?_reports h.baseWithin_iff hi⟩
  | none => exact absurd hcycle (hnone.1 hi i)

end ServicesReady

theorem linkServices_programs (h : exec (linkServices program p first) st = (.ok services, st')) :
    st'.programs = (st.defineServices program first p.document.services).programs := by
  rw [exec_linkServices] at h
  obtain ⟨bases, st₁, h₁, h₂⟩ := exec_bind_ok_iff.1 h
  rw [exec_linkBases (basesFound_of_ok h₁)] at h₁
  obtain ⟨-, rfl⟩ := Prod.mk.inj h₁
  split at h₂
  · simp [exec_refuse] at h₂
  · exact (linkEach_within program p first _).of_ok h₂

theorem linkServices_linked (hst : st.WellFormed) (hr : ServicesReady st program p first)
    (h : exec (linkServices program p first) st = (.ok services, st')) :
    ServicesLinked st' program p first services := by
  have hsame := linkServices_programs h
  have hlookup : st'.lookupService =
      (st.defineServices program first p.document.services).lookupService := by
    unfold LinkState.lookupService
    rw [hsame]
  rw [exec_linkServices] at h
  obtain ⟨bases, st₁, h₁, h₂⟩ := exec_bind_ok_iff.1 h
  have hfound := basesFound_of_ok h₁
  rw [exec_linkBases hfound] at h₁
  obtain ⟨hbases, rfl⟩ := Prod.mk.inj h₁
  obtain rfl := Except.ok.inj hbases
  split at h₂
  · simp [exec_refuse] at h₂
  · next hnone =>
    have hdefined := (defineServices_keeps hst program first p.document.services).wellFormed
    have hstep {item : (ServiceDecl × Option ServiceId) × Nat} {st st' : LinkState}
        {service : Service} (hst : st.WellFormed)
        (h : exec (linkService program p (first + item.2) item.1.1 item.1.2) st =
          (.ok service, st')) :
        st.Keeps program st' ∧ (first + item.2 = service.id ∧ item.1.2 = service.base) := by
      obtain ⟨hk, -, hid, hbase⟩ := linkService_ok hst h
      exact ⟨hk, hid.symm, hbase.symm⟩
    obtain ⟨-, hall⟩ := mapM_ok (fun _ _ item service => first + item.2 = service.id ∧
      item.1.2 = service.base) (fun _ h => h) hstep hdefined h₂
    have hlength : p.document.services.length = (basesIn (st.defineServices program first
        p.document.services) program p.document.services).length := by
      simp [basesIn]
    have hids := map_eq_map_of_forall₂ (hall.imp fun _ _ h => h.1)
    have hbases := map_eq_map_of_forall₂ (hall.imp fun _ _ h => h.2)
    have hbases' : services.map (·.base) = basesIn (st.defineServices program first
        p.document.services) program p.document.services := by
      rw [← hbases]
      have hfst := congrArg (List.map Prod.snd) (List.zipIdx_map_fst 0 (p.document.services.zip
        (basesIn (st.defineServices program first p.document.services) program
          p.document.services)))
      rw [List.map_map, List.map_snd_zip hlength.ge] at hfst
      exact hfst
    refine ⟨?_, ?_, ?_, ?_, (inheritanceFault?_eq_none_iff hr.baseWithin_iff).1 hnone⟩
    · rw [← hids, ← Function.comp_def, ← List.map_map, List.zipIdx_map_snd, List.map_add_range',
        List.length_zip, ← hlength, Nat.min_self, Nat.add_zero]
    · rw [hbases']
      unfold basesIn
      rw [hlookup]
    · unfold BaseFound
      rw [hlookup]
      exact hfound
    · rw [hbases']
      exact hr.baseWithin_iff

end Run

end Linking

end ThriftIdl
