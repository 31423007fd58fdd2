import Mathlib.Data.List.Basic
import ThriftIdl.Linking.Basic
import ThriftIdl.Proofs.Resolution

namespace ThriftIdl

def TypeGraph.Declares (g : TypeGraph) (id : TypeId) (name : String) (program : ProgramId) : Prop :=
  (∃ kind, g.node id = .user name kind program) ∨
    ∃ target, g.node id = .typedef name target program

namespace TypeGraph.Declares

variable {g g' : TypeGraph} {id : TypeId} {name name' : String} {program program' : ProgramId}

theorem usable (h : g.Declares id name program) : g.Usable id := by
  rcases h with ⟨kind, hn⟩ | ⟨target, hn⟩ <;> simp [Usable, hn]

theorem grows (h : g.Declares id name program) (hgrow : g.Grows g') :
    g'.Declares id name program := by
  unfold Declares
  rw [hgrow.node_of_ne h.usable.1]
  exact h

theorem unique (h : g.Declares id name program) (h' : g.Declares id name' program') :
    name = name' ∧ program = program' := by
  rcases h with ⟨_, hn⟩ | ⟨_, hn⟩ <;> rcases h' with ⟨_, hn'⟩ | ⟨_, hn'⟩ <;>
    simp_all

end TypeGraph.Declares

theorem TypeGraph.not_declares_initial {id : TypeId} {name : String} {program : ProgramId} :
    ¬ initial.Declares id name program := by
  have hbase : ∀ id < initial.size, (initial.isPlaceholder id || initial.isBuiltin id) = true := by
    decide
  intro hd
  have hid := hbase id hd.usable.lt_size
  rcases hd with ⟨_, hn⟩ | ⟨_, hn⟩ <;> simp [isPlaceholder, isBuiltin, hn] at hid

/-- All that the look-up of types can see of a program. -/
def Program.scope (p : Program) : Path × List Include × List (String × TypeId) :=
  (p.path, p.includes, p.types)

def Program.outline (p : Program) : Program := { p with services := [] }

theorem Program.map_scope (p : Option Program) : p.map scope = (p.map outline).map scope := by
  cases p <;> rfl

theorem Program.scope_of_outline {p q : Program} (h : p.outline = q.outline) :
    p.scope = q.scope := by
  simp only [outline, Program.mk.injEq] at h
  simp [scope, h]

section Lookup

variable {programs programs' : List Program} {program : ProgramId} {p q : Program} {name : String}
  {id : TypeId}

theorem Program.typeSymbol_of_scope (h : p.scope = q.scope) :
    p.typeSymbol name = q.typeSymbol name := by
  simp only [scope, Prod.mk.injEq] at h
  simp [typeSymbol, h]

theorem Program.unqualified?_of_scope (h : p.scope = q.scope) :
    p.unqualified? name = q.unqualified? name := by
  simp only [scope, Prod.mk.injEq] at h
  simp [unqualified?, Program.name, h]

theorem includedSymbol_congr (hpq : p.includes = q.includes)
    (h : ∀ inc ∈ p.includes, programs'[inc.target]?.map Program.scope =
      programs[inc.target]?.map Program.scope) :
    includedSymbol Program.typeSymbol programs' q name =
      includedSymbol Program.typeSymbol programs p name := by
  unfold includedSymbol
  rw [← hpq, ← List.head?_filterMap, ← List.head?_filterMap]
  congr 1
  apply List.filterMap_congr
  intro inc hinc
  have ho := h inc hinc
  rcases hq' : programs'[inc.target]? with _ | q' <;>
    rcases hq : programs[inc.target]? with _ | q
  · rfl
  · simp [hq, hq'] at ho
  · simp [hq, hq'] at ho
  · have ho' : q'.scope = q.scope := by simpa [hq, hq'] using ho
    have hs : q'.typeSymbol = q.typeSymbol := funext fun _ => Program.typeSymbol_of_scope ho'
    simp only [Option.bind_some, hs, Program.unqualified?_of_scope ho']

theorem visibleSymbol_eq {α : Type} {symbol : Program → String → Option α}
    (hp : programs[program]? = some p) (name : String) :
    visibleSymbol symbol programs program name =
      (symbol p name).or (includedSymbol symbol programs p name) := by
  simp [visibleSymbol, hp]

theorem lookupType_eq (hp : programs[program]? = some p) (name : String) :
    lookupType programs program name =
      (p.typeSymbol name).or (includedSymbol Program.typeSymbol programs p name) :=
  visibleSymbol_eq hp name

theorem lookupService_eq (hp : programs[program]? = some p) (name : String) :
    lookupService programs program name =
      (p.serviceSymbol name).or (includedSymbol Program.serviceSymbol programs p name) :=
  visibleSymbol_eq hp name

theorem lookupType_none (hp : programs[program]? = none) (name : String) :
    lookupType programs program name = none := by
  simp [lookupType, visibleSymbol, hp]

theorem lookupType_congr
    (hown : programs'[program]?.map Program.scope = programs[program]?.map Program.scope)
    (hinc : ∀ p, programs[program]? = some p → ∀ inc ∈ p.includes,
      programs'[inc.target]?.map Program.scope = programs[inc.target]?.map Program.scope) :
    lookupType programs' program = lookupType programs program := by
  funext name
  rcases hp' : programs'[program]? with _ | p' <;> rcases hp : programs[program]? with _ | p
  · rw [lookupType_none hp, lookupType_none hp']
  · simp [hp, hp'] at hown
  · simp [hp, hp'] at hown
  · have ho : p.scope = p'.scope := by simpa [hp, hp'] using hown.symm
    have hpp : p.includes = p'.includes := by
      simp only [Program.scope, Prod.mk.injEq] at ho
      exact ho.2.1
    rw [lookupType_eq hp, lookupType_eq hp', Program.typeSymbol_of_scope ho,
      includedSymbol_congr hpp (hinc p hp)]

theorem includedSymbol_of_same {α : Type} {symbol : Program → String → Option α}
    (hpq : p.includes = q.includes)
    (h : ∀ inc ∈ p.includes, programs'[inc.target]? = programs[inc.target]?) :
    includedSymbol symbol programs' q name = includedSymbol symbol programs p name := by
  unfold includedSymbol
  rw [← hpq, ← List.head?_filterMap, ← List.head?_filterMap]
  congr 1
  apply List.filterMap_congr
  intro inc hinc
  rw [h inc hinc]

theorem includedSymbol_eq_some {α : Type} {symbol : Program → String → Option α} {id : α}
    (h : includedSymbol symbol programs p name = some id) :
    ∃ inc ∈ p.includes, ∃ q, programs[inc.target]? = some q ∧
      ∃ name', symbol q name' = some id := by
  obtain ⟨inc, hinc, hs⟩ := List.exists_of_findSome?_eq_some h
  obtain ⟨q, hq, hs⟩ := Option.bind_eq_some_iff.1 hs
  refine ⟨inc, hinc, q, hq, ?_⟩
  simp only [Option.orElse_eq_orElse, Option.orElse_eq_or, Option.or_eq_some_iff] at hs
  rcases hs with hs | ⟨_, hs⟩
  · exact ⟨name, hs⟩
  · obtain ⟨name', _, hs⟩ := Option.bind_eq_some_iff.1 hs
    exact ⟨name', hs⟩

theorem lookupType_eq_some (h : lookupType programs program name = some id) :
    ∃ (i : ProgramId) (q : Program) (name' : String),
      programs[i]? = some q ∧ q.typeSymbol name' = some id := by
  rcases hp : programs[program]? with _ | p
  · simp [lookupType_none hp] at h
  · rw [lookupType_eq hp, Option.or_eq_some_iff] at h
    rcases h with hs | ⟨_, hs⟩
    · exact ⟨program, p, name, hp, hs⟩
    · obtain ⟨inc, _, q, hq, name', hs⟩ := includedSymbol_eq_some hs
      exact ⟨inc.target, q, name', hq, hs⟩

end Lookup

namespace LinkState

structure WellFormed (st : LinkState) : Prop where
  types : st.types.WellFormed
  symbols : ∀ i p, st.programs[i]? = some p → ∀ name id, p.typeSymbol name = some id →
    st.types.Declares id name i

/-- What linking a program leaves as it was, once its types have their symbols. -/
structure Keeps (st : LinkState) (program : ProgramId) (st' : LinkState) : Prop where
  wellFormed : st'.WellFormed
  grows : st.types.Grows st'.types
  others : ∀ i, i ≠ program → st'.programs[i]? = st.programs[i]?
  own : st'.programs[program]?.map Program.outline = st.programs[program]?.map Program.outline

variable {st st' st'' : LinkState} {program : ProgramId} {name : String} {id : TypeId}

theorem WellFormed.usable (h : st.WellFormed) (hs : st.lookupType program name = some id) :
    st.types.Usable id := by
  obtain ⟨i, q, name', hq, hs⟩ := lookupType_eq_some hs
  exact (h.symbols i q hq name' id hs).usable

theorem wellFormed_ofPrograms {programs : List Program} (h : ∀ p ∈ programs, p.types = []) :
    (ofPrograms programs).WellFormed := by
  refine ⟨TypeGraph.wellFormed_initial, ?_⟩
  intro i p hp name id hs
  simp [Program.typeSymbol, h p (List.mem_of_getElem? hp)] at hs

theorem WellFormed.setTypes {g : TypeGraph} (h : st.WellFormed) (hg : g.WellFormed)
    (hgrow : st.types.Grows g) : ({ st with types := g } : LinkState).WellFormed :=
  ⟨hg, fun i p hp name id hs => (h.symbols i p hp name id hs).grows hgrow⟩

namespace Keeps

theorem refl (h : st.WellFormed) : st.Keeps program st :=
  ⟨h, .refl _, fun _ _ => rfl, rfl⟩

theorem trans (h : st.Keeps program st') (h' : st'.Keeps program st'') : st.Keeps program st'' :=
  ⟨h'.wellFormed, h.grows.trans h'.grows, fun i hi => (h'.others i hi).trans (h.others i hi),
    h'.own.trans h.own⟩

theorem outline (h : st.Keeps program st') (i : ProgramId) :
    st'.programs[i]?.map Program.outline = st.programs[i]?.map Program.outline := by
  by_cases hi : i = program
  · rw [hi, h.own]
  · rw [h.others i hi]

theorem scope (h : st.Keeps program st') (i : ProgramId) :
    st'.programs[i]?.map Program.scope = st.programs[i]?.map Program.scope := by
  rw [Program.map_scope, h.outline, ← Program.map_scope]

theorem lookupType (h : st.Keeps program st') (i : ProgramId) :
    st'.lookupType i = st.lookupType i :=
  lookupType_congr (h.scope i) fun _ _ inc _ => h.scope inc.target

theorem setTypes {g : TypeGraph} (h : st.WellFormed) (hg : g.WellFormed)
    (hgrow : st.types.Grows g) : st.Keeps program { st with types := g } :=
  ⟨h.setTypes hg hgrow, hgrow, fun _ _ => rfl, rfl⟩

end Keeps

end LinkState

namespace Linking

variable {st st' : LinkState} {program : ProgramId} {location : Location} {type : TypeExpr}

theorem exec_resolving {α : Type} (location : Location) (r : Resolving α) (st : LinkState) :
    exec (resolving location r) st =
      ((exec r st.types).1.mapError (.unlinkable location ·),
        { st with types := (exec r st.types).2 }) := by
  change resolving location r st = _
  unfold resolving
  rcases hr : exec r st.types with ⟨_ | _, types⟩ <;>
    rw [show r.run st.types = _ from hr] <;> rfl

theorem exec_resolve (program : ProgramId) (location : Location) (type : TypeExpr)
    (st : LinkState) :
    exec (resolve program location type) st =
      ((exec (type.resolve (st.lookupType program)) st.types).1.mapError (.unlinkable location ·),
        { st with types := (exec (type.resolve (st.lookupType program)) st.types).2 }) := by
  unfold resolve
  rw [exec_bind_of_ok (exec_get st), exec_resolving]

theorem exec_refuse {α : Type} (location : Location) (fault : LinkFault) (st : LinkState) :
    exec (refuse location fault : Linking α) st = (.error (.unlinkable location fault), st) := rfl

theorem resolve_cases (hst : st.WellFormed) (program : ProgramId) (location : Location)
    (type : TypeExpr) : ∃ g r, st.types.Grows g ∧ g.WellFormed ∧
      type.Outcome g (st.lookupType program) r ∧
      exec (resolve program location type) st =
        (r.mapError (.unlinkable location ·), { st with types := g }) := by
  have hl : ∀ name id, st.lookupType program name = some id → st.types.Usable id :=
    fun _ _ hs => hst.usable hs
  have h := TypeExpr.resolved type hst.types hl
  exact ⟨_, _, h.grows, h.wellFormed, h.outcome, exec_resolve program location type st⟩

theorem resolveKnown_ok {id : TypeId} (hst : st.WellFormed)
    (h : exec (resolveKnown program location type) st = (.ok id, st')) :
    st.Keeps program st' ∧ type.Denotes st'.types (st'.lookupType program) id := by
  obtain ⟨g, r, hgrow, hg, hout, he⟩ := resolve_cases hst program location type
  unfold resolveKnown at h
  obtain ⟨found, st₁, h₁, h⟩ := exec_bind_ok_iff.1 h
  rw [he] at h₁
  cases hout with
  | void hv => simp [Except.mapError] at h₁
  | unknown hv hm hn =>
    obtain ⟨rfl, rfl⟩ : none = found ∧ _ = st₁ := by simpa [Except.mapError] using h₁
    simp [exec_bind, exec_refuse] at h
  | @known i hi =>
    obtain ⟨rfl, rfl⟩ : some i = found ∧ _ = st₁ := by simpa [Except.mapError] using h₁
    obtain ⟨rfl, rfl⟩ := exec_pure_ok_iff.1 h
    exact ⟨.setTypes hst hg hgrow, hi⟩

end Linking

end ThriftIdl
