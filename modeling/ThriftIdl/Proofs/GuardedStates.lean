import Mathlib.Algebra.Order.BigOperators.Group.List
import ThriftIdl.Proofs.LinkedGraphs
import ThriftIdl.Proofs.LinkedSchema

namespace ThriftIdl

open Relation (ReflTransGen)

section Lists

variable {α : Type} {xs : List α} {f : α → α} {i : Nat} {x : α}

theorem mem_modify (h : x ∈ xs.modify i f) : x ∈ xs ∨ ∃ y, xs[i]? = some y ∧ x = f y := by
  obtain ⟨j, hj⟩ := List.mem_iff_getElem?.1 h
  by_cases he : i = j
  · subst he
    rw [List.getElem?_modify_eq] at hj
    obtain ⟨y, hy, rfl⟩ := Option.map_eq_some_iff.1 hj
    exact .inr ⟨y, hy, rfl⟩
  · rw [List.getElem?_modify_ne _ _ he] at hj
    exact .inl (List.mem_of_getElem? hj)

theorem sum_map_modify (size : α → Nat) (h : xs[i]? = some x) :
    ((xs.modify i f).map size).sum + size x = (xs.map size).sum + size (f x) := by
  induction xs generalizing i with
  | nil => simp at h
  | cons y ys ih =>
    cases i with
    | zero =>
      obtain rfl : y = x := by simpa using h
      simp only [List.modify_zero_cons, List.map_cons, List.sum_cons]
      omega
    | succ i =>
      have hys := ih (by simpa using h)
      simp only [List.modify_succ_cons, List.map_cons, List.sum_cons]
      omega

end Lists

/-- The symbols of a program have different names, and what it refers to is there. -/
structure Program.Sound (programCount serviceCount : Nat) (p : Program) : Prop where
  includes : ∀ inc ∈ p.includes, inc.target < programCount
  types : (p.types.map Prod.fst).Nodup
  services : (p.services.map Prod.fst).Nodup
  ids : ∀ symbol ∈ p.services, symbol.2 < serviceCount

namespace LinkState

/-- How many services have their symbols. -/
def serviceCount (st : LinkState) : Nat := (st.programs.map (·.services.length)).sum

/-- What may happen to a state while a program is linked. A type is made of types that are there,
and a name gets a symbol only if it has none. -/
inductive Guarded (program : ProgramId) (st : LinkState) : LinkState → Prop
  | intern {node : TypeNode} (parts : ∀ part ∈ node.children, st.types.Usable part) :
      Guarded program st { st with types := (st.types.intern node).2 }
  | defineType {p : Program} {name : String} {id : TypeId}
      (present : st.programs[program]? = some p) (absent : p.typeSymbol name = none)
      (declared : st.types.Declares id name program) :
      Guarded program st (st.defineType program name id)
  | defineService {p : Program} {name : String} (present : st.programs[program]? = some p)
      (absent : p.serviceSymbol name = none) :
      Guarded program st (st.defineService program name st.serviceCount)

def GuardedAmong (order : List ProgramId) (st st' : LinkState) : Prop :=
  ∃ program ∈ order, st.Guarded program st'

structure Sound (st : LinkState) : Prop where
  wellFormed : st.WellFormed
  programs : ∀ p ∈ st.programs, p.Sound st.programs.length st.serviceCount

section Guarded

variable {st st' : LinkState} {program : ProgramId} {p : Program} {name : String} {id : TypeId}

theorem serviceCount_defineType (hp : st.programs[program]? = some p) (name : String)
    (id : TypeId) : (st.defineType program name id).serviceCount = st.serviceCount :=
  Nat.add_right_cancel
    (sum_map_modify (f := fun p => p.defineType name id) (fun p => p.services.length) hp)

theorem serviceCount_defineService (hp : st.programs[program]? = some p) (name : String)
    (id : ServiceId) : (st.defineService program name id).serviceCount = st.serviceCount + 1 := by
  have h : (st.defineService program name id).serviceCount + p.services.length =
      st.serviceCount + (p.services.length + 1) :=
    sum_map_modify (f := fun p => p.defineService name id) (fun p => p.services.length) hp
  omega

namespace Guarded

theorem length_eq (h : st.Guarded program st') : st'.programs.length = st.programs.length := by
  cases h with
  | intern => rfl
  | defineType => exact List.length_modify ..
  | defineService => exact List.length_modify ..

theorem others (h : st.Guarded program st') {i : ProgramId} (hi : i ≠ program) :
    st'.programs[i]? = st.programs[i]? := by
  cases h with
  | intern => rfl
  | defineType => exact List.getElem?_modify_ne _ _ hi.symm
  | defineService => exact List.getElem?_modify_ne _ _ hi.symm

theorem wellFormed (h : st.Guarded program st') (hst : st.WellFormed) : st'.WellFormed := by
  cases h with
  | intern parts =>
    exact hst.setTypes (hst.types.intern parts) (st.types.grows_intern _)
  | defineType _ _ declared => exact (Defines.defineType hst declared).wellFormed
  | defineService => exact (Keeps.defineService hst _ _).wellFormed

end Guarded

theorem symbol_absent {symbols : List (String × Nat)} (h : symbols.lookup name = none) :
    name ∉ symbols.map Prod.fst := by
  rw [← lookup_isSome, h]
  exact Bool.false_ne_true

theorem lookup_behind {symbols : List (String × Nat)} {names : List String} {other : String}
    {number : Nat} (hnew : name ∉ names) (hm : other ∈ names) :
    ((name, number) :: symbols).lookup other = symbols.lookup other := by
  have hne : (other == name) = false := by
    rw [beq_eq_false_iff_ne]
    rintro rfl
    exact hnew hm
  rw [List.lookup_cons, hne]

theorem Sound.guarded (h : st.Sound) (hg : st.Guarded program st') : st'.Sound := by
  refine ⟨hg.wellFormed h.wellFormed, ?_⟩
  rw [hg.length_eq]
  cases hg with
  | intern => exact h.programs
  | @defineType p name id present absent declared =>
    rw [serviceCount_defineType present]
    intro q hq
    rcases mem_modify hq with hq | ⟨_, hown, rfl⟩
    · exact h.programs q hq
    · obtain rfl := Option.some.inj (present.symm.trans hown)
      have hp := h.programs p (List.mem_of_getElem? present)
      exact ⟨hp.includes, List.nodup_cons.2 ⟨symbol_absent absent, hp.types⟩, hp.services, hp.ids⟩
  | @defineService p name present absent =>
    rw [serviceCount_defineService present]
    intro q hq
    rcases mem_modify hq with hq | ⟨_, hown, rfl⟩
    · have hp := h.programs q hq
      exact ⟨hp.includes, hp.types, hp.services, fun s hs => Nat.lt_succ_of_lt (hp.ids s hs)⟩
    · obtain rfl := Option.some.inj (present.symm.trans hown)
      have hp := h.programs p (List.mem_of_getElem? present)
      refine ⟨hp.includes, hp.types, List.nodup_cons.2 ⟨symbol_absent absent, hp.services⟩, ?_⟩
      exact List.forall_mem_cons.2 ⟨Nat.lt_succ_self _, fun s hs => Nat.lt_succ_of_lt (hp.ids s hs)⟩

theorem others_of_guarded (h : ReflTransGen (Guarded program) st st') {i : ProgramId}
    (hi : i ≠ program) : st'.programs[i]? = st.programs[i]? := by
  induction h with
  | refl => rfl
  | tail _ hstep ih => exact (hstep.others hi).trans ih

theorem Sound.reached {order : List ProgramId} (h : st.Sound)
    (hsteps : ReflTransGen (GuardedAmong order) st st') :
    st'.Sound ∧ st'.programs.length = st.programs.length := by
  induction hsteps with
  | refl => exact ⟨h, rfl⟩
  | tail _ hstep ih =>
    obtain ⟨program, -, hstep⟩ := hstep
    exact ⟨ih.1.guarded hstep, hstep.length_eq.trans ih.2⟩

theorem Sound.lookupService_lt (h : st.Sound)
    (hl : st.lookupService program name = some id) : id < st.serviceCount := by
  have hown (q : Program) (hq : q ∈ st.programs) (name : String)
      (hs : q.serviceSymbol name = some id) : id < st.serviceCount := by
    have hq := h.programs q hq
    exact hq.ids _ ((lookup_eq_some_iff_mem hq.services).1 hs)
  unfold LinkState.lookupService at hl
  cases hp : st.programs[program]? with
  | none => simp [ThriftIdl.lookupService, visibleSymbol, hp] at hl
  | some p =>
    rw [lookupService_eq hp, Option.or_eq_some_iff] at hl
    rcases hl with hl | ⟨-, hl⟩
    · exact hown p (List.mem_of_getElem? hp) name hl
    · obtain ⟨inc, -, q, hq, name', hs⟩ := includedSymbol_eq_some hl
      exact hown q (List.mem_of_getElem? hq) name' hs

end Guarded

/-- Only types are made. -/
def Interns (program : ProgramId) (st st' : LinkState) : Prop :=
  st.WellFormed → st'.programs = st.programs ∧ st'.WellFormed ∧
    ReflTransGen (Guarded program) st st'

instance (program : ProgramId) : IsPreorder LinkState (Interns program) where
  refl _ := fun h => ⟨rfl, h, .refl⟩
  trans _ _ _ h h' := by
    intro hst
    obtain ⟨hp, hst', hsteps⟩ := h hst
    obtain ⟨hp', hst'', hsteps'⟩ := h' hst'
    exact ⟨hp'.trans hp, hst'', hsteps.trans hsteps'⟩

/-- How a state stands while a program is linked: some names of the program have no symbol yet. -/
structure Awaits (program : ProgramId) (document : Document) (types services : List String)
    (first : ServiceId) (st : LinkState) : Prop where
  wellFormed : st.WellFormed
  undefined : ∃ p, st.programs[program]? = some p ∧ p.document = document ∧
    (∀ name ∈ types, p.typeSymbol name = none) ∧ ∀ name ∈ services, p.serviceSymbol name = none
  count : st.serviceCount = first

namespace Awaits

variable {st st' : LinkState} {program : ProgramId} {document : Document}
  {types types' services : List String} {first : ServiceId} {name : String} {id : TypeId}
  {node : TypeNode}

theorem subset (h : st.Awaits program document types services first) (hsub : types' ⊆ types) :
    st.Awaits program document types' services first := by
  obtain ⟨p, hp, hdoc, htypes, hservices⟩ := h.undefined
  exact ⟨h.wellFormed, ⟨p, hp, hdoc, fun name hm => htypes name (hsub hm), hservices⟩, h.count⟩

theorem interns (h : st.Awaits program document types services first)
    (hi : Interns program st st') : st'.Awaits program document types services first := by
  obtain ⟨hp, hst, -⟩ := hi h.wellFormed
  refine ⟨hst, ?_, ?_⟩
  · rw [hp]
    exact h.undefined
  · unfold serviceCount
    rw [hp]
    exact h.count

theorem defineType (h : st.Awaits program document (name :: types) services first)
    (hnew : name ∉ types) (hd : st.types.Declares id name program) :
    st.Guarded program (st.defineType program name id) ∧
      (st.defineType program name id).Awaits program document types services first := by
  obtain ⟨p, hp, hdoc, htypes, hservices⟩ := h.undefined
  have hg : st.Guarded program (st.defineType program name id) :=
    .defineType hp (htypes name List.mem_cons_self) hd
  refine ⟨hg, hg.wellFormed h.wellFormed, ⟨p.defineType name id, ?_, hdoc, ?_, hservices⟩, ?_⟩
  · change (st.programs.modify program _)[program]? = _
    rw [List.getElem?_modify_eq, hp]
    rfl
  · intro other hm
    unfold Program.typeSymbol Program.defineType
    rw [lookup_behind hnew hm]
    exact htypes other (List.mem_cons_of_mem _ hm)
  · rw [serviceCount_defineType hp, h.count]

theorem defineService (h : st.Awaits program document types (name :: services) first)
    (hnew : name ∉ services) :
    st.Guarded program (st.defineService program name first) ∧
      (st.defineService program name first).Awaits program document types services (first + 1) := by
  obtain ⟨p, hp, hdoc, htypes, hservices⟩ := h.undefined
  have hg : st.Guarded program (st.defineService program name first) :=
    h.count ▸ .defineService hp (hservices name List.mem_cons_self)
  refine ⟨hg, hg.wellFormed h.wellFormed, ⟨p.defineService name first, ?_, hdoc, htypes, ?_⟩, ?_⟩
  · change (st.programs.modify program _)[program]? = _
    rw [List.getElem?_modify_eq, hp]
    rfl
  · intro other hm
    unfold Program.serviceSymbol Program.defineService
    rw [lookup_behind hnew hm]
    exact hservices other (List.mem_cons_of_mem _ hm)
  · rw [serviceCount_defineService hp, h.count]

theorem declare (h : st.Awaits program document (name :: types) services first)
    (hnew : name ∉ types) (hnode : (∃ kind, node = .user name kind program) ∨
      ∃ target, node = .typedef name target program ∧ st.types.Usable target) :
    ReflTransGen (Guarded program) st
        (({ st with types := (st.types.intern node).2 } : LinkState).defineType program name
          (st.types.intern node).1) ∧
      (({ st with types := (st.types.intern node).2 } : LinkState).defineType program name
        (st.types.intern node).1).Awaits program document types services first := by
  have husable : ∀ child ∈ node.children, st.types.Usable child := by
    rcases hnode with ⟨kind, rfl⟩ | ⟨target, rfl, hu⟩
    · simp [TypeNode.children]
    · simpa [TypeNode.children] using hu
  have hdeclares : (st.types.intern node).2.Declares (st.types.intern node).1 name program := by
    have hn := st.types.node_intern node
    rcases hnode with ⟨kind, rfl⟩ | ⟨target, rfl, -⟩
    · exact .inl ⟨kind, hn⟩
    · exact .inr ⟨target, hn⟩
  have hg : st.Guarded program { st with types := (st.types.intern node).2 } := .intern husable
  have hmade : Interns program st { st with types := (st.types.intern node).2 } :=
    fun hst => ⟨rfl, hg.wellFormed hst, .single hg⟩
  obtain ⟨hdefine, hawaits⟩ := (h.interns hmade).defineType hnew hdeclares
  exact ⟨.tail (.single hg) hdefine, hawaits⟩

end Awaits

end LinkState

end ThriftIdl
