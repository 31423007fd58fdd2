import Mathlib.Data.List.Nodup
import Mathlib.Logic.Function.Iterate
import ThriftIdl.Linking.Typedefs
import ThriftIdl.Proofs.SymbolTables

namespace ThriftIdl.Linking

open TypeExpr (Known)

abbrev SettledTypedef := TypedefDecl × ResolvedTypedef

def symbolsOf (settled : List SettledTypedef) : List (String × TypeId) :=
  settled.map fun (decl, resolved) => (decl.name, resolved.typeId)

def settledNames (settled : List SettledTypedef) : List String :=
  (settled.map (·.1.name)).reverse

def lookupAfter (base : String → Option TypeId) (settled : List SettledTypedef) (name : String) :
    Option TypeId :=
  ((symbolsOf settled).lookup name).or (base name)

/-- Typedefs that were resolved one after another, the newest first. -/
inductive Settled (g : TypeGraph) (program : ProgramId) (base : String → Option TypeId) :
    List SettledTypedef → Prop
  | nil : Settled g program base []
  | cons {settled : List SettledTypedef} {decl : TypedefDecl} {resolved : ResolvedTypedef}
      (older : Settled g program base settled) (fresh : decl.name ∉ settledNames settled)
      (target : decl.target.Denotes g (lookupAfter base settled) resolved.target)
      (node : g.node resolved.typeId = .typedef decl.name resolved.target program) :
      Settled g program base ((decl, resolved) :: settled)

def settleStep (outside : String → Prop) [DecidablePred outside] (settled : List String)
    (decl : TypedefDecl) : List String :=
  if decl.name ∉ settled ∧ ∀ name ∈ decl.target.names, outside name ∨ name ∈ settled then
    settled ++ [decl.name]
  else settled

def settleRound (outside : String → Prop) [DecidablePred outside] (decls : List TypedefDecl)
    (settled : List String) : List String :=
  decls.foldl (settleStep outside) settled

/-- The names of typedefs in the order in which rounds settle them. -/
def settleOrder (outside : String → Prop) [DecidablePred outside] (decls : List TypedefDecl) :
    List String :=
  (settleRound outside decls)^[decls.length] []

section Settled

variable {g g' : TypeGraph} {program : ProgramId} {base : String → Option TypeId}
  {settled newer older : List SettledTypedef} {decl : TypedefDecl} {resolved : ResolvedTypedef}
  {name : String}

theorem mem_settledNames : name ∈ settledNames settled ↔ ∃ s ∈ settled, s.1.name = name := by
  simp [settledNames]

theorem settledNames_cons (s : SettledTypedef) (settled : List SettledTypedef) :
    settledNames (s :: settled) = settledNames settled ++ [s.1.name] := by
  simp [settledNames]

theorem settledNames_append (newer older : List SettledTypedef) :
    settledNames (newer ++ older) = settledNames older ++ settledNames newer := by
  simp [settledNames]

theorem lookup_symbolsOf_isSome :
    ((symbolsOf settled).lookup name).isSome ↔ name ∈ settledNames settled := by
  rw [lookup_isSome]
  simp [symbolsOf, settledNames]

theorem lookup_symbolsOf_eq_none (h : name ∉ settledNames settled) :
    (symbolsOf settled).lookup name = none := by
  rwa [← lookup_symbolsOf_isSome, Option.not_isSome_iff_eq_none] at h

theorem known_lookupAfter :
    Known (lookupAfter base settled) name ↔ Known base name ∨ name ∈ settledNames settled := by
  simp only [Known, lookupAfter, Option.isSome_or, Bool.or_eq_true, lookup_symbolsOf_isSome]
  tauto

theorem known_lookupAfter_append (h : Known (lookupAfter base settled) name) :
    Known (lookupAfter base (newer ++ settled)) name := by
  rw [known_lookupAfter] at h ⊢
  rw [settledNames_append]
  exact h.imp_right (List.mem_append_left _)

namespace Settled

theorem grows (h : Settled g program base settled) (hgrow : g.Grows g') :
    Settled g' program base settled := by
  induction h with
  | nil => exact .nil
  | cons older fresh target node ih =>
    exact .cons ih fresh (target.grows hgrow) ((hgrow.node_of_ne (by simp [node])).trans node)

theorem nodup (h : Settled g program base settled) : (settledNames settled).Nodup := by
  induction h with
  | nil => exact List.nodup_nil
  | cons older fresh target node ih =>
    rw [settledNames_cons, List.nodup_append]
    refine ⟨ih, List.nodup_singleton _, ?_⟩
    rintro name hm _ hs rfl
    exact fresh (List.mem_singleton.1 hs ▸ hm)

theorem not_mem_newer (h : Settled g program base (newer ++ older))
    (hm : name ∈ settledNames older) :
    name ∉ settledNames newer := by
  have hnd := h.nodup
  rw [settledNames_append] at hnd
  intro hn
  exact (List.nodup_append.1 hnd).2.2 name hm name hn rfl

theorem of_append (h : Settled g program base (newer ++ older)) : Settled g program base older := by
  induction newer with
  | nil => exact h
  | cons s newer ih =>
    cases h with
    | cons h' => exact ih h'

theorem split (h : Settled g program base settled) (hm : (decl, resolved) ∈ settled) :
    ∃ newer older, settled = newer ++ (decl, resolved) :: older ∧
      Settled g program base ((decl, resolved) :: older) := by
  obtain ⟨newer, older, rfl⟩ := List.append_of_mem hm
  exact ⟨newer, older, rfl, h.of_append⟩

theorem node (h : Settled g program base settled) (hm : (decl, resolved) ∈ settled) :
    g.node resolved.typeId = .typedef decl.name resolved.target program := by
  obtain ⟨newer, older, -, h'⟩ := h.split hm
  cases h' with
  | cons _ _ _ hn => exact hn

theorem lookup_eq (h : Settled g program base settled) (hm : (decl, resolved) ∈ settled) :
    lookupAfter base settled decl.name = some resolved.typeId := by
  have hs : (symbolsOf settled).lookup decl.name = some resolved.typeId := by
    induction h with
    | nil => simp at hm
    | @cons settled decl' resolved' older fresh target node ih =>
      simp only [symbolsOf, List.map_cons, List.lookup_cons]
      rcases List.mem_cons.1 hm with he | hm
      · obtain ⟨rfl, rfl⟩ := Prod.mk.inj he
        simp
      · have hne : (decl.name == decl'.name) = false := by
          rw [beq_eq_false_iff_ne]
          intro he
          exact fresh (he ▸ mem_settledNames.2 ⟨_, hm, rfl⟩)
        rw [hne]
        exact ih hm
  simp [lookupAfter, hs]

end Settled

end Settled

structure Progress (start : LinkState) (program : ProgramId) (entries : List TypedefEntry)
    (settled : List SettledTypedef) (st : LinkState) : Prop where
  defines : start.Defines program (symbolsOf settled) st
  sequence : Settled st.types program (start.lookupType program) settled
  recorded : ∀ decl resolved, (decl, some resolved) ∈ entries ↔ (decl, resolved) ∈ settled
  nodup : (entries.map (·.1.name)).Nodup

inductive Attempt (start : LinkState) (program : ProgramId) (locate : Position → Location)
    (decl : TypedefDecl) (seen todo : List TypedefEntry) (settled : List SettledTypedef) :
    Except LoadError TypedefEntry × LinkState → Prop
  | void {st : LinkState} (hv : "void" ∈ decl.target.names) :
      Attempt start program locate decl seen todo settled
        (.error (.unlinkable (locate decl.position) .misplacedVoid), st)
  | waits {st : LinkState} {name : String} (hv : "void" ∉ decl.target.names)
      (hm : name ∈ decl.target.names)
      (hn : ¬ Known (lookupAfter (start.lookupType program) settled) name)
      (h : Progress start program (seen ++ (decl, none) :: todo) settled st) :
      Attempt start program locate decl seen todo settled (.ok (decl, none), st)
  | settles {st : LinkState} {resolved : ResolvedTypedef}
      (hk : ∀ name ∈ decl.target.names, Known (lookupAfter (start.lookupType program) settled) name)
      (h : Progress start program (seen ++ (decl, some resolved) :: todo)
        ((decl, resolved) :: settled) st) :
      Attempt start program locate decl seen todo settled (.ok (decl, some resolved), st)

theorem exec_tryTypedef_none (program : ProgramId) (locate : Position → Location)
    (decl : TypedefDecl) (st : LinkState) :
    exec (tryTypedef program locate (decl, none)) st =
      match exec (resolve program (locate decl.position) decl.target) st with
      | (.error e, st') => (.error e, st')
      | (.ok none, st') => (.ok (decl, none), st')
      | (.ok (some target), st') =>
        let (typeId, types) := st'.types.intern (.typedef decl.name target program)
        (.ok (decl, some ⟨target, typeId⟩),
          ({ st' with types } : LinkState).defineType program decl.name typeId) := by
  unfold tryTypedef
  rw [exec_bind]
  rcases exec (resolve program (locate decl.position) decl.target) st with ⟨_ | _ | _, _⟩ <;> rfl

section Progress

variable {start st : LinkState} {program : ProgramId} {p : Program} {locate : Position → Location}
  {decl : TypedefDecl} {resolved : ResolvedTypedef} {entries seen todo : List TypedefEntry}
  {settled : List SettledTypedef}

namespace Progress

theorem setTypes {g : TypeGraph} (h : Progress start program entries settled st)
    (hg : g.WellFormed) (hgrow : st.types.Grows g) :
    Progress start program entries settled { st with types := g } :=
  ⟨h.defines.trans (.setTypes h.defines.wellFormed hg hgrow), h.sequence.grows hgrow, h.recorded,
    h.nodup⟩

theorem fresh (h : Progress start program entries settled st) (hm : (decl, none) ∈ entries) :
    decl.name ∉ settledNames settled := by
  intro hs
  obtain ⟨⟨decl', resolved⟩, hs, he⟩ := mem_settledNames.1 hs
  have hm' : (decl', some resolved) ∈ entries := (h.recorded _ _).2 hs
  have := List.inj_on_of_nodup_map h.nodup hm' hm he
  simp at this

theorem settle {target : TypeId} {g : TypeGraph}
    (h : Progress start program (seen ++ (decl, none) :: todo) settled st)
    (hg : g.WellFormed) (hgrow : st.types.Grows g) (hu : g.Usable target)
    (ht : decl.target.Denotes g (lookupAfter (start.lookupType program) settled) target) :
    let (typeId, types) := g.intern (.typedef decl.name target program)
    Progress start program (seen ++ (decl, some ⟨target, typeId⟩) :: todo)
      ((decl, ⟨target, typeId⟩) :: settled)
      (({ st with types } : LinkState).defineType program decl.name typeId) := by
  have hgrow' := g.grows_intern (.typedef decl.name target program)
  have hg' : (g.intern (.typedef decl.name target program)).2.WellFormed :=
    hg.intern (by simpa [TypeNode.children] using hu)
  have hn := g.node_intern (.typedef decl.name target program)
  generalize g.intern (.typedef decl.name target program) = result at hgrow' hg' hn
  obtain ⟨typeId, types⟩ := result
  have hd : types.Declares typeId decl.name program := .inr ⟨target, hn⟩
  have h₁ : st.Defines program [] { st with types } :=
    .setTypes h.defines.wellFormed hg' (hgrow.trans hgrow')
  have h₂ := LinkState.Defines.defineType h₁.wellFormed hd
  refine ⟨(h.defines.trans h₁).trans h₂, ?_, ?_, ?_⟩
  · have hf : decl.name ∉ settledNames settled := h.fresh (by simp)
    exact .cons (h.sequence.grows (hgrow.trans hgrow')) hf (ht.grows hgrow') hn
  · intro decl' resolved'
    have hr := h.recorded decl' resolved'
    simp only [List.mem_append, List.mem_cons, Prod.mk.injEq, reduceCtorEq, and_false,
      false_or, Option.some.injEq] at hr ⊢
    rw [← hr]
    tauto
  · simpa using h.nodup

end Progress

theorem tryTypedef_attempt (locate : Position → Location)
    (hp : start.programs[program]? = some p)
    (hself : ∀ inc ∈ p.includes, inc.target ≠ program)
    (h : Progress start program (seen ++ (decl, none) :: todo) settled st) :
    Attempt start program locate decl seen todo settled
      (exec (tryTypedef program locate (decl, none)) st) := by
  have hl : st.lookupType program = lookupAfter (start.lookupType program) settled :=
    funext (h.defines.lookupType hp hself)
  have hst := h.defines.wellFormed
  obtain ⟨g, r, hgrow, hg, hout, he⟩ := resolve_cases hst program (locate decl.position) decl.target
  rw [exec_tryTypedef_none, he]
  rw [hl] at hout
  cases hout with
  | void hv => exact .void hv
  | unknown hv hm hn => exact .waits hv hm hn (h.setTypes hg hgrow)
  | @known target ht =>
    have hu : g.Usable target := by
      refine ht.usable hg fun name id hs => hgrow.usable ?_
      rw [← hl] at hs
      exact hst.usable hs
    exact .settles (fun name hm => ht.known hm) (h.settle hg hgrow hu ht)

end Progress

section SettleStep

variable {outside : String → Prop} [DecidablePred outside] {names : List String}
  {decl : TypedefDecl} {decls : List TypedefDecl}

theorem settleStep_of_mem (h : decl.name ∈ names) : settleStep outside names decl = names := by
  simp [settleStep, h]

theorem settleStep_of_unknown {name : String} (hm : name ∈ decl.target.names)
    (hn : ¬ (outside name ∨ name ∈ names)) : settleStep outside names decl = names := by
  unfold settleStep
  rw [if_neg]
  rintro ⟨_, h⟩
  exact hn (h name hm)

theorem settleRound_of_subset (h : ∀ decl ∈ decls, decl.name ∈ names) :
    settleRound outside decls names = names := by
  induction decls with
  | nil => rfl
  | cons decl decls ih =>
    change settleRound outside decls (settleStep outside names decl) = names
    rw [settleStep_of_mem (h decl List.mem_cons_self)]
    exact ih fun d hd => h d (List.mem_cons_of_mem _ hd)

theorem settleOrder_eq {rounds : Nat} (h : names = (settleRound outside decls)^[rounds] [])
    (hle : rounds ≤ decls.length) (hall : ∀ decl ∈ decls, decl.name ∈ names) :
    settleOrder outside decls = names := by
  unfold settleOrder
  rw [← Nat.sub_add_cancel hle, Function.iterate_add_apply, ← h]
  exact Function.iterate_fixed (settleRound_of_subset hall) _

end SettleStep

theorem pending_eq_nil_iff {entries : List TypedefEntry} :
    pending entries = [] ↔ ∀ decl, (decl, none) ∉ entries := by
  unfold pending
  rw [List.filterMap_eq_nil_iff]
  constructor
  · intro h decl hm
    simpa using h _ hm
  · rintro h ⟨decl, _ | resolved⟩ hm
    · exact absurd hm (h decl)
    · rfl

theorem mem_pending {entries : List TypedefEntry} {decl : TypedefDecl} :
    decl ∈ pending entries ↔ (decl, none) ∈ entries := by
  unfold pending
  rw [List.mem_filterMap]
  constructor
  · rintro ⟨⟨decl', _ | resolved⟩, hm, he⟩
    · obtain rfl : decl' = decl := by simpa using he
      exact hm
    · simp at he
  · intro h
    exact ⟨_, h, rfl⟩

inductive Round (start : LinkState) (program : ProgramId) (locate : Position → Location)
    (seen todo : List TypedefEntry) (settled : List SettledTypedef) :
    Except LoadError (List TypedefEntry) × LinkState → Prop
  | void {st : LinkState} {decl : TypedefDecl} (hm : decl ∈ todo.map Prod.fst)
      (hv : "void" ∈ decl.target.names) :
      Round start program locate seen todo settled
        (.error (.unlinkable (locate decl.position) .misplacedVoid), st)
  | done {st : LinkState} {todo' : List TypedefEntry} {newer : List SettledTypedef}
      (h : Progress start program (seen ++ todo') (newer ++ settled) st)
      (same : todo'.map Prod.fst = todo.map Prod.fst)
      (waits : ∀ decl, (decl, none) ∈ todo' → "void" ∉ decl.target.names ∧
        ∃ name ∈ decl.target.names, ¬ Known (lookupAfter (start.lookupType program) settled) name)
      (count : (pending todo').length + newer.length = (pending todo).length)
      (names : settledNames (newer ++ settled) =
        settleRound (Known (start.lookupType program)) (todo.map Prod.fst) (settledNames settled)) :
      Round start program locate seen todo settled (.ok todo', st)

section Round

variable {start st st' : LinkState} {program : ProgramId} {p : Program}
  {locate : Position → Location} {entry entry' : TypedefEntry} {seen todo : List TypedefEntry}
  {settled : List SettledTypedef}

theorem Round.cons (newer : List SettledTypedef)
    (he : exec (tryTypedef program locate entry) st = (.ok entry', st'))
    (same : entry'.1 = entry.1)
    (waits : entry'.2 = none → "void" ∉ entry.1.target.names ∧
      ∃ name ∈ entry.1.target.names, ¬ Known (lookupAfter (start.lookupType program) settled) name)
    (count : (pending [entry']).length + newer.length = (pending [entry]).length)
    (names : settledNames (newer ++ settled) =
      settleStep (Known (start.lookupType program)) (settledNames settled) entry.1)
    (h : Round start program locate (seen ++ [entry']) todo (newer ++ settled)
      (exec (todo.mapM (tryTypedef program locate)) st')) :
    Round start program locate seen (entry :: todo) settled
      (exec ((entry :: todo).mapM (tryTypedef program locate)) st) := by
  have hcount (entry : TypedefEntry) (todo : List TypedefEntry) :
      (pending (entry :: todo)).length = (pending [entry]).length + (pending todo).length := by
    rw [← List.length_append, pending, pending, pending, ← List.filterMap_append]
    rfl
  rw [List.mapM_cons, exec_bind_of_ok he, exec_bind]
  generalize exec (todo.mapM (tryTypedef program locate)) st' = result at h ⊢
  cases h with
  | void hm hv => exact .void (List.mem_cons_of_mem _ hm) hv
  | @done st'' todo' newer' h same' waits' count' names' =>
    have hl : newer' ++ (newer ++ settled) = (newer' ++ newer) ++ settled := by simp
    have hs : seen ++ [entry'] ++ todo' = seen ++ entry' :: todo' := by simp
    rw [hl] at h names'
    rw [hs] at h
    refine .done h ?_ ?_ ?_ ?_
    · simp [same, same']
    · intro decl hm
      rcases List.mem_cons.1 hm with rfl | hm
      · rw [← same] at waits
        exact waits rfl
      · obtain ⟨hv, name, hn, hk⟩ := waits' decl hm
        exact ⟨hv, name, hn, fun hk' => hk (known_lookupAfter_append hk')⟩
    · rw [hcount entry' todo', hcount entry todo, List.length_append]
      omega
    · rw [names', names]
      rfl

theorem mapM_tryTypedef_round (locate : Position → Location)
    (hp : start.programs[program]? = some p)
    (hself : ∀ inc ∈ p.includes, inc.target ≠ program)
    (h : Progress start program (seen ++ todo) settled st) :
    Round start program locate seen todo settled
      (exec (todo.mapM (tryTypedef program locate)) st) := by
  induction todo generalizing seen settled st with
  | nil =>
    have h' : Progress start program (seen ++ []) ([] ++ settled) st := h
    exact .done h' rfl (by simp) rfl rfl
  | cons entry todo ih =>
    obtain ⟨decl, _ | resolved⟩ := entry
    · have ha := tryTypedef_attempt locate hp hself h
      generalize hr : exec (tryTypedef program locate (decl, none)) st = result at ha
      cases ha with
      | void hv =>
        rw [List.mapM_cons, exec_bind_of_error hr]
        exact .void List.mem_cons_self hv
      | waits hv hm hn h' =>
        refine .cons [] hr rfl (fun _ => ⟨hv, _, hm, hn⟩) rfl ?_ (ih (by simpa using h'))
        rw [known_lookupAfter] at hn
        exact (settleStep_of_unknown hm hn).symm
      | @settles st' resolved hk h' =>
        have hf : decl.name ∉ settledNames settled := h.fresh (by simp)
        refine .cons [(decl, resolved)] hr rfl (by simp) rfl ?_
          (ih (by simpa using h'))
        unfold settleStep
        rw [if_pos ⟨hf, fun name hm => known_lookupAfter.1 (hk name hm)⟩]
        exact settledNames_cons _ _
    · have hs : decl.name ∈ settledNames settled :=
        mem_settledNames.2 ⟨_, (h.recorded decl resolved).1 (by simp), rfl⟩
      exact .cons [] (exec_pure _ _) rfl (by simp) rfl (settleStep_of_mem hs).symm
        (ih (by simpa using h))

end Round

inductive RoundsEnd (start : LinkState) (program : ProgramId) (locate : Position → Location)
    (decls : List TypedefDecl) : Except LoadError (List TypedefEntry) × LinkState → Prop
  | void {st : LinkState} {decl : TypedefDecl} (hm : decl ∈ decls)
      (hv : "void" ∈ decl.target.names) :
      RoundsEnd start program locate decls
        (.error (.unlinkable (locate decl.position) .misplacedVoid), st)
  | stuck {st : LinkState} {entries : List TypedefEntry} {settled : List SettledTypedef}
      (h : Progress start program entries settled st) (same : entries.map Prod.fst = decls)
      (hp : pending entries ≠ [])
      (waits : ∀ decl ∈ pending entries, "void" ∉ decl.target.names ∧
        ∃ name ∈ decl.target.names, ¬ Known (lookupAfter (start.lookupType program) settled) name) :
      RoundsEnd start program locate decls
        (.error (.unlinkable
          (locate (stuckFault (st.lookupType program) (pending entries)).1)
          (stuckFault (st.lookupType program) (pending entries)).2), st)
  | done {st : LinkState} {entries : List TypedefEntry} {settled : List SettledTypedef}
      (h : Progress start program entries settled st) (same : entries.map Prod.fst = decls)
      (hp : pending entries = [])
      (order : settledNames settled = settleOrder (Known (start.lookupType program)) decls) :
      RoundsEnd start program locate decls (.ok entries, st)

section RoundsEnd

variable {start st : LinkState} {program : ProgramId} {p : Program} {locate : Position → Location}
  {decls : List TypedefDecl} {entries : List TypedefEntry} {settled : List SettledTypedef}

namespace Progress

theorem settled_length_le (h : Progress start program entries settled st) :
    settled.length ≤ entries.length := by
  have hsub : settledNames settled ⊆ entries.map (·.1.name) := by
    intro name hm
    obtain ⟨⟨decl, resolved⟩, hs, rfl⟩ := mem_settledNames.1 hm
    exact List.mem_map_of_mem ((h.recorded decl resolved).2 hs)
  have hle := List.Nodup.length_le_of_subset h.sequence.nodup hsub
  simpa [settledNames] using hle

theorem mem_settledNames_of_done (h : Progress start program entries settled st)
    (hp : pending entries = []) {decl : TypedefDecl} (hm : decl ∈ entries.map Prod.fst) :
    decl.name ∈ settledNames settled := by
  obtain ⟨⟨decl, _ | resolved⟩, he, rfl⟩ := List.mem_map.1 hm
  · exact absurd he (pending_eq_nil_iff.1 hp decl)
  · exact mem_settledNames.2 ⟨_, (h.recorded decl resolved).1 he, rfl⟩

end Progress

theorem typedefRounds_end (hp : start.programs[program]? = some p)
    (hself : ∀ inc ∈ p.includes, inc.target ≠ program)
    (h : Progress start program entries settled st) (same : entries.map Prod.fst = decls)
    {rounds : Nat} (hle : rounds ≤ settled.length)
    (order : settledNames settled =
      (settleRound (Known (start.lookupType program)) decls)^[rounds] []) :
    RoundsEnd start program locate decls (exec (typedefRounds program locate entries) st) := by
  induction hn : (pending entries).length using Nat.strongRecOn
    generalizing entries settled st rounds with
  | ind n ih =>
    rw [typedefRounds]
    by_cases hd : pending entries = []
    · rw [if_pos hd]
      refine .done h same hd (settleOrder_eq order ?_ ?_).symm
      · have := h.settled_length_le
        rw [← same, List.length_map]
        omega
      · intro decl hm
        exact h.mem_settledNames_of_done hd (same ▸ hm)
    · rw [if_neg hd, exec_bind]
      have hs : Progress start program ([] ++ entries) settled st := h
      have hr := mapM_tryTypedef_round locate hp hself hs
      generalize exec (entries.mapM (tryTypedef program locate)) st = result at hr ⊢
      cases hr with
      | void hm hv => exact .void (same ▸ hm) hv
      | @done st' entries' newer h' same' waits count names =>
        have same'' : entries'.map Prod.fst = decls := same'.trans same
        dsimp only
        split
        · next hlt =>
          have hle' : rounds + 1 ≤ (newer ++ settled).length := by
            rw [List.length_append]
            omega
          refine ih _ (hn ▸ hlt) h' same'' hle' ?_ rfl
          rw [names, same, order, Function.iterate_succ_apply']
        · next hlt =>
          obtain rfl : newer = [] := List.eq_nil_of_length_eq_zero (by omega)
          rw [exec_bind_of_ok (exec_get st')]
          refine .stuck h' same'' ?_ fun decl hm => waits decl (mem_pending.1 hm)
          intro hp'
          rw [hp', List.length_nil] at count
          exact hd (List.eq_nil_of_length_eq_zero count.symm)

end RoundsEnd

end ThriftIdl.Linking
