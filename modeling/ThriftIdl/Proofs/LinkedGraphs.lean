import ThriftIdl.Proofs.GraphConstruction
import ThriftIdl.Proofs.LinkingRules
import ThriftIdl.Proofs.ServiceInheritance
import ThriftIdl.Proofs.TypedefFixpoint

namespace ThriftIdl

namespace TypeGraph

/-- The containers that may be made of the types of a graph. -/
inductive Contains (g : TypeGraph) : TypeNode → Prop
  | list {element : TypeId} (h : g.Usable element) : g.Contains (.list element)
  | set {element : TypeId} (h : g.Usable element) : g.Contains (.set element)
  | map {key value : TypeId} (hk : g.Usable key) (hv : g.Usable value) : g.Contains (.map key value)

/-- Only containers are added. -/
def Enlarges : TypeGraph → TypeGraph → Prop :=
  Relation.ReflTransGen fun g g' => ∃ node, g.Contains node ∧ g' = (g.intern node).2

variable {g g' : TypeGraph} {node : TypeNode} {id : TypeId} {name : String} {program : ProgramId}

theorem WellFormed.holds (hg : g.WellFormed) (h : g.Usable id) : g.Holds id := by
  obtain ⟨hlt, hne, -⟩ := hg.usable_iff.1 h
  exact ⟨hlt, hne⟩

theorem declares_intern (h : (g.intern node).2.Declares id name program) :
    g.Declares id name program ∨ id = (g.intern node).1 := by
  rcases g.intern_cases node with ⟨i, -, -, he⟩ | ⟨-, he⟩
  · rw [he] at h
    exact .inl h
  · have hid : id < (g.intern node).2.size := h.usable.lt_size
    rcases intern_lt_cases hid with hlt | ⟨rfl, -⟩
    · left
      unfold Declares at h ⊢
      rwa [(g.grows_intern node).node_eq hlt] at h
    · right
      rw [he]

namespace Contains

theorem usable (h : g.Contains node) : ∀ child ∈ node.children, g.Usable child := by
  cases h <;> simp_all [TypeNode.children]

theorem offers (h : g.Contains node) (hg : g.WellFormed) : g.Offers node := by
  cases h with
  | list he => exact .list (hg.holds he)
  | set he => exact .set (hg.holds he)
  | map hk hv => exact .map (hg.holds hk) (hg.holds hv)

theorem declares (h : g.Contains node) (hd : (g.intern node).2.Declares id name program) :
    g.Declares id name program := by
  rcases declares_intern hd with hold | rfl
  · exact hold
  · unfold Declares at hd
    rw [g.node_intern] at hd
    cases h <;> simp at hd

end Contains

namespace Enlarges

theorem wellFormed (h : g.Enlarges g') (hg : g.WellFormed) : g'.WellFormed := by
  induction h with
  | refl => exact hg
  | tail _ hstep ih =>
    obtain ⟨node, hc, rfl⟩ := hstep
    exact ih.intern hc.usable

theorem grows (h : g.Enlarges g') : g.Grows g' := by
  induction h with
  | refl => exact .refl g
  | @tail g' g'' _ hstep ih =>
    obtain ⟨node, -, rfl⟩ := hstep
    exact ih.trans (g'.grows_intern node)

theorem built (h : g.Enlarges g') (hg : g.WellFormed) (hb : g.Built) : g'.Built := by
  induction h with
  | refl => exact hb
  | tail hreach hstep ih =>
    obtain ⟨node, hc, rfl⟩ := hstep
    exact ih.tail ⟨node, hc.offers (wellFormed hreach hg), rfl⟩

theorem declares (h : g.Enlarges g') (hd : g'.Declares id name program) :
    g.Declares id name program := by
  induction h with
  | refl => exact hd
  | tail _ hstep ih =>
    obtain ⟨node, hc, rfl⟩ := hstep
    exact ih (hc.declares hd)

end Enlarges

end TypeGraph

namespace TypeExpr

variable {g g' : TypeGraph} {lookup : String → Option TypeId}

theorem ContainerOf.contains {node : TypeNode} (h : ContainerOf g lookup node) (hg : g.WellFormed)
    (hl : ∀ name id, lookup name = some id → g.Usable id) : g.Contains node := by
  cases h with
  | list h => exact .list (h.usable hg hl)
  | set h => exact .set (h.usable hg hl)
  | map hk hv => exact .map (hk.usable hg hl) (hv.usable hg hl)

theorem Adds.enlarges (h : Adds lookup g g') (hg : g.WellFormed)
    (hl : ∀ name id, lookup name = some id → g.Usable id) : g.Enlarges g' := by
  apply h.keeps .refl
  intro g₁ node hlarger hnode
  have hl₁ : ∀ name id, lookup name = some id → g₁.Usable id :=
    fun name id hs => hlarger.grows.usable (hl name id hs)
  exact hlarger.tail ⟨node, hnode.contains (hlarger.wellFormed hg) hl₁, rfl⟩

theorem resolve_enlarges (type : TypeExpr) (hg : g.WellFormed)
    (hl : ∀ name id, lookup name = some id → g.Usable id) :
    g.Enlarges (exec (type.resolve lookup) g).2 :=
  (type.resolve_adds g).1.enlarges hg hl

end TypeExpr

namespace LinkState

/-- The types of a state were interned one by one, and each that is declared stands among the
symbols of its program. -/
structure Consistent (count : Nat) (st : LinkState) : Prop where
  wellFormed : st.WellFormed
  built : st.types.Built
  symbols : ∀ id name program, st.types.Declares id name program →
    ∃ p, st.programs[program]? = some p ∧ (name, id) ∈ p.types
  count : st.programs.length = count

def Preserves (count : Nat) (st st' : LinkState) : Prop := st.Consistent count → st'.Consistent count

instance (count : Nat) : IsPreorder LinkState (Preserves count) where
  refl _ := fun h => h
  trans _ _ _ h h' := fun hst => h' (h hst)

namespace Consistent

variable {count : Nat} {st : LinkState} {g : TypeGraph} {program : ProgramId} {name : String}
  {id : TypeId} {node : TypeNode}

theorem enlarge (h : st.Consistent count) (hg : st.types.Enlarges g) :
    ({ st with types := g } : LinkState).Consistent count where
  wellFormed := h.wellFormed.setTypes (hg.wellFormed h.wellFormed.types) hg.grows
  built := hg.built h.wellFormed.types h.built
  symbols id name program hd := h.symbols id name program (hg.declares hd)
  count := h.count

theorem setPrograms {programs : List Program} (h : st.Consistent count)
    (hp : programs.map Program.outline = st.programs.map Program.outline) :
    ({ st with programs } : LinkState).Consistent count := by
  have hsame (i : ProgramId) : programs[i]?.map Program.outline =
      st.programs[i]?.map Program.outline := by
    rw [← List.getElem?_map, ← List.getElem?_map, hp]
  have htypes {p q : Program} (he : p.outline = q.outline) : p.types = q.types :=
    congrArg (·.types) he
  refine ⟨⟨h.wellFormed.types, ?_⟩, h.built, ?_, ?_⟩
  · intro i p hi name id hs
    obtain ⟨q, hq, he⟩ := Option.map_eq_some_iff.1 ((hsame i).symm.trans (by rw [hi]; rfl))
    refine h.wellFormed.symbols i q hq name id ?_
    unfold Program.typeSymbol at hs ⊢
    rw [htypes he]
    exact hs
  · intro id name program hd
    obtain ⟨p, hi, hm⟩ := h.symbols id name program hd
    obtain ⟨q, hq, he⟩ := Option.map_eq_some_iff.1 ((hsame program).trans (by rw [hi]; rfl))
    exact ⟨q, hq, htypes he ▸ hm⟩
  · have hlength := congrArg List.length hp
    rw [List.length_map, List.length_map] at hlength
    exact hlength.trans h.count

/-- A type of its own is added for a declaration, with its symbol. -/
theorem declare (h : st.Consistent count) (hvalid : program < count)
    (hnode : (∃ kind, node = .user name kind program) ∨
      ∃ target, node = .typedef name target program ∧ st.types.Usable target) :
    (({ st with types := (st.types.intern node).2 } : LinkState).defineType program name
      (st.types.intern node).1).Consistent count := by
  have hg := h.wellFormed.types
  have hgrow := st.types.grows_intern node
  have husable : ∀ child ∈ node.children, st.types.Usable child := by
    rcases hnode with ⟨kind, rfl⟩ | ⟨target, rfl, hu⟩
    · simp [TypeNode.children]
    · simpa [TypeNode.children] using hu
  have hoffers : st.types.Offers node := by
    rcases hnode with ⟨kind, rfl⟩ | ⟨target, rfl, hu⟩
    · exact .user name kind program
    · exact .typedef name program (hg.holds hu)
  have hdeclares : (st.types.intern node).2.Declares (st.types.intern node).1 name program := by
    have hn := st.types.node_intern node
    rcases hnode with ⟨kind, rfl⟩ | ⟨target, rfl, -⟩
    · exact .inl ⟨kind, hn⟩
    · exact .inr ⟨target, hn⟩
  have hdef := LinkState.Defines.defineType (h.wellFormed.setTypes (hg.intern husable) hgrow) hdeclares
  refine ⟨hdef.wellFormed, h.built.tail ⟨node, hoffers, rfl⟩, ?_, ?_⟩
  · intro id' name' program' hd
    rcases TypeGraph.declares_intern hd with hold | rfl
    · obtain ⟨p, hp, hm⟩ := h.symbols id' name' program' hold
      refine ⟨_, (List.getElem?_modify ..).trans (congrArg _ hp), ?_⟩
      by_cases he : program = program'
      · simp only [he, if_true]
        exact List.mem_cons_of_mem _ hm
      · simp only [he, if_false]
        exact hm
    · obtain ⟨rfl, rfl⟩ := hdeclares.unique hd
      have hp := List.getElem?_eq_getElem (h.count.symm ▸ hvalid : program < st.programs.length)
      refine ⟨_, (List.getElem?_modify ..).trans (congrArg _ hp), ?_⟩
      simp only [if_true]
      exact List.mem_cons_self
  · exact (List.length_modify ..).trans h.count

end Consistent

end LinkState

namespace Linking

open LinkState (Preserves)

variable {count : Nat} {program : ProgramId} {p : Program} {locate : Position → Location}

theorem resolve_preserves (program : ProgramId) (location : Location) (type : TypeExpr) :
    Within (Preserves count) FoundInDeclaration (resolve program location type) := by
  intro st
  refine ⟨?_, (resolve_within program location type st).2⟩
  intro hst
  rw [exec_resolve]
  exact hst.enlarge (type.resolve_enlarges hst.wellFormed.types fun _ _ hs =>
    hst.wellFormed.usable hs)

theorem defineUsers_preserves (hvalid : program < count) (users : List (String × UserKind))
    (st : LinkState) : Preserves count st (users.foldl (.defineUser program) st) := by
  induction users generalizing st with
  | nil => exact refl st
  | cons user users ih =>
    intro hst
    exact ih _ (hst.declare hvalid (.inl ⟨user.2, rfl⟩))

theorem defineUserTypes_preserves (hvalid : program < count) :
    Within (Preserves count) AnyError (defineUserTypes program) := by
  apply Within.get.bind
  intro st
  split
  · exact .pure _
  split
  · exact .throw trivial
  · intro st
    exact ⟨defineUsers_preserves hvalid _ st, fun _ _ => trivial⟩

theorem tryTypedef_preserves (hvalid : program < count) (entry : TypedefEntry) :
    Within (Preserves count) AnyError (tryTypedef program locate entry) := by
  obtain ⟨decl, _ | resolved⟩ := entry
  · intro st
    refine ⟨?_, fun _ _ => trivial⟩
    intro hst
    have hr := (resolve_preserves program (locate decl.position) decl.target st).1 hst
    obtain ⟨g, r, hgrow, hg, hout, he⟩ :=
      resolve_cases hst.wellFormed program (locate decl.position) decl.target
    rw [exec_tryTypedef_none, he]
    rw [he] at hr
    cases hout with
    | void => exact hr
    | unknown => exact hr
    | known hd =>
      apply hr.declare hvalid
      refine .inr ⟨_, rfl, hd.usable hg fun name id hs => ?_⟩
      exact hgrow.usable (hst.wellFormed.usable hs)
  · exact .pure _

theorem typedefRounds_preserves (hvalid : program < count) (entries : List TypedefEntry) :
    Within (Preserves count) AnyError (typedefRounds program locate entries) := by
  induction hn : (pending entries).length using Nat.strongRecOn generalizing entries with
  | ind n ih =>
    rw [typedefRounds]
    split
    · exact .pure _
    · apply (Within.mapM (tryTypedef_preserves hvalid)).bind
      intro entries'
      split
      · next hlt => exact ih _ (hn ▸ hlt) entries' rfl
      · exact Within.get.bind fun st => .throw trivial

theorem defineTypedefs_preserves (hvalid : program < count) :
    Within (Preserves count) AnyError (defineTypedefs program) := by
  apply Within.get.bind
  intro st
  split
  · exact .pure _
  · exact (typedefRounds_preserves hvalid _).bind fun _ => .pure _

theorem linkServices_preserves (first : ServiceId) :
    Within (Preserves count) AnyError (linkServices program p first) := by
  have hdefine (st : LinkState) :
      Preserves count st (st.defineServices program first p.document.services) := by
    intro hst
    apply hst.setPrograms
    apply List.ext_getElem?
    intro i
    rw [List.getElem?_map, List.getElem?_map, List.getElem?_modify]
    cases st.programs[i]? with
    | none => rfl
    | some q =>
      by_cases he : program = i
      · simp [he, Program.outline]
      · simp [he]
  intro st
  rw [exec_linkServices]
  refine ⟨IsTrans.trans _ _ _ (hdefine st)
    ((linkBases_within p.document.services).bind ?_ _).1, fun _ _ => trivial⟩
  intro bases
  split
  · exact .throw trivial
  · exact .mapM fun item => (linkService_within (resolve_preserves program) _ _ _).any

theorem linkPart_preserves (first : ServiceId) (hvalid : program < count) :
    Within (Preserves count) AnyError (linkPart first program) := by
  apply Within.get.bind
  intro st
  split
  · exact .pure _
  · next p hp =>
    apply (defineUserTypes_preserves hvalid).bind
    intro _
    apply (defineTypedefs_preserves hvalid).bind
    intro resolved
    apply (Within.mapM fun decl => (linkEnum_within decl).any).bind
    intro enums
    apply (Within.mapM fun decl => (linkRecord_within (resolve_preserves program) decl).any).bind
    intro records
    exact (linkServices_preserves first).bind fun _ => .pure _

theorem linkParts_preserves (first : ServiceId) {order : List ProgramId}
    (hvalid : ∀ i ∈ order, i < count) :
    Within (Preserves count) AnyError (linkParts first order) := by
  induction order generalizing first with
  | nil => exact .pure _
  | cons program order ih =>
    apply (linkPart_preserves first (hvalid program List.mem_cons_self)).bind
    intro part
    exact (ih _ fun i hi => hvalid i (List.mem_cons_of_mem _ hi)).bind fun _ => .pure _

end Linking

end ThriftIdl
