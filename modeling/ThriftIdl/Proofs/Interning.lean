import Mathlib.Logic.Relation
import Mathlib.Tactic.ByContra
import ThriftIdl.TypeTree

namespace ThriftIdl

def TypeNode.children : TypeNode → List TypeId
  | list element => [element]
  | set element => [element]
  | map key value => [key, value]
  | typedef _ target _ => [target]
  | placeholder | builtin _ | user .. => []

namespace TypeGraph

/-- Whether other types may be made of a type: it is known, and it is not `void`. -/
def Usable (g : TypeGraph) (id : TypeId) : Prop :=
  g.node id ≠ .placeholder ∧ g.node id ≠ .builtin .void

def MadeOf (g : TypeGraph) (id child : TypeId) : Prop :=
  child ∈ (g.node id).children

/-- What holds of a graph that is built by interning types whose parts it already holds. -/
structure WellFormed (g : TypeGraph) : Prop where
  initial : initial.entries <+: g.entries
  distinct : ∀ i < g.size, ∀ j < g.size, g.node i = g.node j → i = j
  older : ∀ id < g.size, ∀ child, g.MadeOf id child → child < id
  usable : ∀ id < g.size, ∀ child, g.MadeOf id child → g.Usable child

def Grows (g g' : TypeGraph) : Prop := g.entries <+: g'.entries

variable {g g' : TypeGraph} {id : TypeId} {node : TypeNode}

theorem node_of_size_le (h : g.size ≤ id) : g.node id = .placeholder := by
  have hn : g.entries[id]? = none := List.getElem?_eq_none h
  simp [TypeGraph.node, hn]

theorem lt_size_of_node (h : g.node id ≠ .placeholder) : id < g.size := by
  by_contra hle
  exact h (node_of_size_le (Nat.le_of_not_lt hle))

theorem MadeOf.lt_size {child : TypeId} (h : g.MadeOf id child) : id < g.size := by
  apply lt_size_of_node
  intro he
  simp [MadeOf, he, TypeNode.children] at h

theorem Usable.lt_size (h : g.Usable id) : id < g.size := lt_size_of_node h.1

namespace Grows

theorem refl (g : TypeGraph) : g.Grows g := List.prefix_rfl

theorem trans {g'' : TypeGraph} (h : g.Grows g') (h' : g'.Grows g'') : g.Grows g'' :=
  List.IsPrefix.trans h h'

theorem size_le (h : g.Grows g') : g.size ≤ g'.size := List.IsPrefix.length_le h

theorem node_eq (h : g.Grows g') (hid : id < g.size) : g'.node id = g.node id := by
  obtain ⟨added, he⟩ := h
  simp only [TypeGraph.node, ← he, List.getElem?_append_left hid]

theorem node_of_ne (h : g.Grows g') (hid : g.node id ≠ .placeholder) : g'.node id = g.node id :=
  h.node_eq (lt_size_of_node hid)

theorem usable (h : g.Grows g') (hid : g.Usable id) : g'.Usable id := by
  unfold Usable
  rw [h.node_eq hid.lt_size]
  exact hid

end Grows

theorem intern_cases (g : TypeGraph) (node : TypeNode) :
    (∃ id < g.size, g.node id = node ∧ g.intern node = (id, g)) ∨
      ((∀ id < g.size, g.node id ≠ node) ∧
        g.intern node = (g.size, ⟨g.entries ++ [⟨node, g.nameOf node⟩]⟩)) := by
  unfold intern
  split
  case h_1 id found =>
    obtain ⟨hid, hnode, _⟩ := List.findIdx?_eq_some_iff_getElem.1 found
    refine Or.inl ⟨id, hid, ?_, rfl⟩
    rw [node_eq_of_getElem? (List.getElem?_eq_getElem hid)]
    simpa using hnode
  case h_2 missing =>
    refine Or.inr ⟨?_, rfl⟩
    intro id hid he
    rw [node_eq_of_getElem? (List.getElem?_eq_getElem hid)] at he
    have hne := List.findIdx?_eq_none_iff.1 missing _ (List.getElem_mem hid)
    simp [he] at hne

theorem grows_intern (g : TypeGraph) (node : TypeNode) : g.Grows (g.intern node).2 := by
  obtain ⟨added, he⟩ := g.intern_entries node
  exact ⟨added, he.symm⟩

theorem wellFormed_initial : initial.WellFormed where
  initial := List.prefix_rfl
  distinct := by decide
  older := by
    have h : ∀ id < initial.size, (initial.node id).children = [] := by decide
    intro id hid child hc
    simp [MadeOf, h id hid] at hc
  usable := by
    have h : ∀ id < initial.size, (initial.node id).children = [] := by decide
    intro id hid child hc
    simp [MadeOf, h id hid] at hc

theorem intern_lt_cases (h : id < (g.intern node).2.size) :
    id < g.size ∨ id = g.size ∧ (g.intern node).2.node id = node ∧
      (g.intern node).2.name id = g.nameOf node ∧ ∀ i < g.size, g.node i ≠ node := by
  rcases g.intern_cases node with ⟨i, _, _, he⟩ | ⟨hnew, he⟩
  · rw [he] at h
    exact .inl h
  · rw [he] at h
    rcases Nat.lt_succ_iff_lt_or_eq.1 (by simpa [size] using h) with hlt | rfl
    · exact .inl hlt
    · refine .inr ⟨rfl, ?_⟩
      rw [he]
      exact ⟨by simp [TypeGraph.node], by simp [TypeGraph.name], hnew⟩

theorem distinct_intern (h : ∀ i < g.size, ∀ j < g.size, g.node i = g.node j → i = j)
    (node : TypeNode) : ∀ i < (g.intern node).2.size, ∀ j < (g.intern node).2.size,
      (g.intern node).2.node i = (g.intern node).2.node j → i = j := by
  have hgrow : g.Grows (g.intern node).2 := g.grows_intern node
  intro i hi j hj hij
  rcases intern_lt_cases hi with hi | ⟨rfl, hni, -, hnew⟩ <;>
    rcases intern_lt_cases hj with hj | ⟨rfl, hnj, -, hnew'⟩
  · rw [hgrow.node_eq hi, hgrow.node_eq hj] at hij
    exact h i hi j hj hij
  · rw [hgrow.node_eq hi, hnj] at hij
    exact absurd hij (hnew' i hi)
  · rw [hni, hgrow.node_eq hj] at hij
    exact absurd hij.symm (hnew j hj)
  · rfl

theorem madeOf_intern_cases {child : TypeId} (h : (g.intern node).2.MadeOf id child) :
    id < g.size ∧ g.MadeOf id child ∨ id = g.size ∧ child ∈ node.children := by
  have hid : id < (g.intern node).2.size := h.lt_size
  unfold MadeOf at h ⊢
  rcases intern_lt_cases hid with hlt | ⟨rfl, hn, -⟩
  · rw [(g.grows_intern node).node_eq hlt] at h
    exact .inl ⟨hlt, h⟩
  · rw [hn] at h
    exact .inr ⟨rfl, h⟩

theorem WellFormed.intern (hg : g.WellFormed) (hc : ∀ child ∈ node.children, g.Usable child) :
    (g.intern node).2.WellFormed := by
  have hgrow : g.Grows (g.intern node).2 := g.grows_intern node
  refine ⟨hg.initial.trans hgrow, distinct_intern hg.distinct node, ?_, ?_⟩
  · intro i _ child hm
    rcases madeOf_intern_cases hm with ⟨hi, hold⟩ | ⟨rfl, hnew⟩
    · exact hg.older i hi child hold
    · exact (hc child hnew).lt_size
  · intro i _ child hm
    rcases madeOf_intern_cases hm with ⟨hi, hold⟩ | ⟨-, hnew⟩
    · exact hgrow.usable (hg.usable i hi child hold)
    · exact hgrow.usable (hc child hnew)

theorem WellFormed.intern_node (hg : g.WellFormed) (hid : id < g.size) :
    g.intern (g.node id) = (id, g) := by
  rcases g.intern_cases (g.node id) with ⟨i, hi, hn, he⟩ | ⟨hnew, _⟩
  · rw [he, hg.distinct i hi id hid hn]
  · exact absurd rfl (hnew id hid)

namespace WellFormed

theorem node_initial (hg : g.WellFormed) (hid : id < 10) : g.node id = TypeGraph.initial.node id :=
  Grows.node_eq hg.initial hid

theorem node_builtin (hg : g.WellFormed) (type : Builtin) : g.node type.id = .builtin type := by
  have hid : type.id < 10 := by cases type <;> decide
  rw [hg.node_initial hid]
  cases type <;> rfl

theorem usable_builtin (hg : g.WellFormed) {type : Builtin} (h : type ≠ .void) :
    g.Usable type.id := by
  unfold Usable
  rw [hg.node_builtin]
  exact ⟨by simp, by simpa using h⟩

theorem usable_iff (hg : g.WellFormed) :
    g.Usable id ↔ id < g.size ∧ id ≠ 0 ∧ id ≠ Builtin.void.id := by
  have hsize : 10 ≤ g.size := Grows.size_le hg.initial
  have hzero : g.node 0 = .placeholder := by
    rw [hg.node_initial (by decide)]
    rfl
  have hz : 0 < g.size := Nat.lt_of_lt_of_le (by decide) hsize
  have hv : Builtin.void.id < g.size := Nat.lt_of_lt_of_le (by decide) hsize
  constructor
  · intro h
    refine ⟨h.lt_size, ?_, ?_⟩
    · rintro rfl
      exact h.1 hzero
    · rintro rfl
      exact h.2 (hg.node_builtin .void)
  · rintro ⟨hid, hne, hnv⟩
    constructor
    · intro he
      exact hne (hg.distinct id hid 0 hz (he.trans hzero.symm))
    · intro he
      exact hnv (hg.distinct id hid _ hv (he.trans (hg.node_builtin .void).symm))

theorem usable_of_reaches (hg : g.WellFormed) (h : g.Usable id) {part : TypeId}
    (hr : Relation.ReflTransGen g.MadeOf id part) : g.Usable part := by
  induction hr with
  | refl => exact h
  | tail _ hm ih => exact hg.usable _ ih.lt_size _ hm

end WellFormed

end TypeGraph

end ThriftIdl
