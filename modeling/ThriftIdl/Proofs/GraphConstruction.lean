import ThriftIdl.Proofs.Unfolding

namespace ThriftIdl

theorem TypeNode.spell_injective {part : TypeId → TypeTree} {node node' : TypeNode}
    (hparts : ∀ i ∈ node.children, ∀ j ∈ node'.children, part i = part j → i = j)
    (h : node.spell part = node'.spell part) : node = node' := by
  cases node <;> cases node' <;> simp_all [spell, children]

namespace TypeGraph

/-- Whether a graph has given out a handle. The placeholder is not counted. -/
def Holds (g : TypeGraph) (id : TypeId) : Prop := id < g.size ∧ id ≠ 0

/-- The types that a graph may be asked for. -/
inductive Offers (g : TypeGraph) : TypeNode → Prop
  | list {element : TypeId} (h : g.Holds element) : g.Offers (.list element)
  | set {element : TypeId} (h : g.Holds element) : g.Offers (.set element)
  | map {key value : TypeId} (hk : g.Holds key) (hv : g.Holds value) : g.Offers (.map key value)
  | user (name : String) (kind : UserKind) (program : ProgramId) : g.Offers (.user name kind program)
  | typedef (name : String) {target : TypeId} (program : ProgramId) (h : g.Holds target) :
      g.Offers (.typedef name target program)

def Call (g g' : TypeGraph) : Prop := ∃ node, g.Offers node ∧ g' = (g.intern node).2

/-- The graphs that calls lead to. -/
def Built (g : TypeGraph) : Prop := Relation.ReflTransGen Call initial g

structure Interned (g : TypeGraph) : Prop where
  initial : initial.entries <+: g.entries
  distinct : ∀ i < g.size, ∀ j < g.size, g.node i = g.node j → i = j
  parts : ∀ id child, g.MadeOf id child → child < id ∧ child ≠ 0
  named : ∀ id < g.size, g.name id = g.nameOf (g.node id)

/-- One step along a chain of typedefs. -/
def Renames (g : TypeGraph) (id target : TypeId) : Prop :=
  ∃ name program, g.node id = .typedef name target program

variable {g g' : TypeGraph} {id i j child : TypeId} {node : TypeNode}

theorem Offers.holds (h : g.Offers node) (hc : child ∈ node.children) : g.Holds child := by
  cases h <;> simp_all [TypeNode.children]
  rcases hc with rfl | rfl <;> assumption

theorem Renames.madeOf (h : g.Renames i j) : g.MadeOf i j := by
  obtain ⟨name, program, hn⟩ := h
  simp [MadeOf, hn, TypeNode.children]

theorem Grows.name_eq (h : g.Grows g') (hid : id < g.size) : g'.name id = g.name id := by
  obtain ⟨added, he⟩ := h
  simp only [TypeGraph.name, ← he, List.getElem?_append_left hid]

theorem nameOf_congr (h : ∀ child ∈ node.children, g'.name child = g.name child) :
    g'.nameOf node = g.nameOf node := by
  cases node <;> simp_all [nameOf, TypeNode.children]

theorem interned_initial : initial.Interned where
  initial := List.prefix_rfl
  distinct := wellFormed_initial.distinct
  parts := by
    intro id child hm
    have h : ∀ id < TypeGraph.initial.size, (TypeGraph.initial.node id).children = [] := by decide
    simp [MadeOf, h id hm.lt_size] at hm
  named := by decide

namespace Interned

theorem call (hg : g.Interned) (h : g.Call g') : g'.Interned := by
  obtain ⟨node, hoffers, rfl⟩ := h
  have hgrow : g.Grows (g.intern node).2 := g.grows_intern node
  refine ⟨hg.initial.trans hgrow, distinct_intern hg.distinct node, ?_, ?_⟩
  · intro i child hm
    rcases madeOf_intern_cases hm with ⟨-, hold⟩ | ⟨rfl, hnew⟩
    · exact hg.parts i child hold
    · exact hoffers.holds hnew
  · intro i hi
    rcases intern_lt_cases hi with hlt | ⟨-, hn, hname, -⟩
    · rw [hgrow.node_eq hlt, hgrow.name_eq hlt, hg.named i hlt]
      symm
      apply nameOf_congr
      intro child hm
      exact hgrow.name_eq (Nat.lt_trans (hg.parts i child hm).1 hlt)
    · rw [hn, hname]
      symm
      apply nameOf_congr
      intro child hm
      exact hgrow.name_eq (hoffers.holds hm).1

theorem of_built (h : g.Built) : g.Interned := by
  induction h with
  | refl => exact interned_initial
  | tail _ hcall ih => exact ih.call hcall

theorem node_initial (hg : g.Interned) (hid : id < 10) : g.node id = TypeGraph.initial.node id :=
  Grows.node_eq hg.initial hid

theorem node_builtin (hg : g.Interned) (type : Builtin) : g.node type.id = .builtin type := by
  rw [hg.node_initial (by cases type <;> decide)]
  cases type <;> rfl

theorem intern_eq_iff (hg : g.Interned) :
    g.intern node = (id, g) ↔ id < g.size ∧ g.node id = node := by
  rcases g.intern_cases node with ⟨i, hi, hn, he⟩ | ⟨hnew, he⟩
  · rw [he]
    constructor
    · intro h
      obtain rfl : i = id := (Prod.mk.inj h).1
      exact ⟨hi, hn⟩
    · rintro ⟨hid, hn'⟩
      rw [hg.distinct i hi id hid (hn.trans hn'.symm)]
  · constructor
    · intro h
      have hsize : (g.intern node).2.size = g.size := by rw [h]
      rw [he] at hsize
      simp [size] at hsize
    · rintro ⟨hid, hn⟩
      exact absurd hn (hnew id hid)

theorem wellFounded (hg : g.Interned) : WellFounded fun child id => g.MadeOf id child :=
  Subrelation.wf (fun {child id} hm => (hg.parts id child hm).1) Nat.lt_wfRel.wf

theorem trueType_of_renames (hg : g.Interned) (h : g.Renames i j) :
    g.trueType i = g.trueType j := by
  have hlt : j < i := (hg.parts i j h.madeOf).1
  obtain ⟨name, program, hn⟩ := h
  rw [trueType, hn]
  exact if_pos hlt

theorem trueType_of_not_renames (h : ∀ j, ¬ g.Renames i j) : g.trueType i = i := by
  rw [trueType]
  split
  · next name target program hn => exact absurd ⟨name, program, hn⟩ (h target)
  · rfl

theorem follows_trueType (hg : g.Interned) (id : TypeId) :
    Relation.ReflTransGen g.Renames id (g.trueType id) ∧ ∀ j, ¬ g.Renames (g.trueType id) j := by
  induction id using hg.wellFounded.induction with
  | _ id ih =>
    by_cases h : ∃ j, g.Renames id j
    · obtain ⟨j, hj⟩ := h
      obtain ⟨hreach, hend⟩ := ih j hj.madeOf
      rw [hg.trueType_of_renames hj]
      exact ⟨.head hj hreach, hend⟩
    · have hend : ∀ j, ¬ g.Renames id j := fun j hj => h ⟨j, hj⟩
      rw [trueType_of_not_renames hend]
      exact ⟨.refl, hend⟩

/-- The end of a chain is no typedef, so that it is its own end. -/
theorem trueType_ends (hg : g.Interned) (id : TypeId) :
    g.isTypedef (g.trueType id) = false ∧ g.trueType (g.trueType id) = g.trueType id := by
  have hend := (hg.follows_trueType id).2
  refine ⟨?_, trueType_of_not_renames hend⟩
  unfold isTypedef
  split
  · next name target program hn => exact absurd ⟨name, program, hn⟩ (hend target)
  · rfl

theorem tree_eq (hg : g.Interned) (id : TypeId) : g.tree id = (g.node id).spell g.tree :=
  tree_eq_of_older fun child hm => (hg.parts id child hm).1

theorem tree_injective (hg : g.Interned) (hi : i < g.size) (hj : j < g.size)
    (h : g.tree i = g.tree j) : i = j := by
  induction i using Nat.strongRecOn generalizing j with
  | ind i ih =>
    rw [hg.tree_eq i, hg.tree_eq j] at h
    apply hg.distinct i hi j hj
    refine TypeNode.spell_injective ?_ h
    intro child hm child' hm' he
    have hlt : child < i := (hg.parts i child hm).1
    have hlt' : child' < j := (hg.parts j child' hm').1
    exact ih child hlt (Nat.lt_trans hlt hi) (Nat.lt_trans hlt' hj) he

end Interned

end TypeGraph

end ThriftIdl
