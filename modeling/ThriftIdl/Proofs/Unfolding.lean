import ThriftIdl.Proofs.Interning

namespace ThriftIdl

namespace TypeTree

def Complete : TypeTree → Prop
  | placeholder => False
  | builtin _ | user .. => True
  | list element => element.Complete
  | set element => element.Complete
  | map key value => key.Complete ∧ value.Complete
  | typedef _ target _ => target.Complete

end TypeTree

namespace TypeNode

def spell (part : TypeId → TypeTree) : TypeNode → TypeTree
  | placeholder => .placeholder
  | builtin type => .builtin type
  | list element => .list (part element)
  | set element => .set (part element)
  | map key value => .map (part key) (part value)
  | user name kind program => .user name kind program
  | typedef name target program => .typedef name (part target) program

theorem spell_congr {part part' : TypeId → TypeTree} {node : TypeNode}
    (h : ∀ child ∈ node.children, part child = part' child) :
    node.spell part = node.spell part' := by
  cases node <;> simp_all [spell, children]

theorem complete_spell {part : TypeId → TypeTree} {node : TypeNode} (hn : node ≠ .placeholder)
    (h : ∀ child ∈ node.children, (part child).Complete) : (node.spell part).Complete := by
  cases node <;> simp_all [spell, children, TypeTree.Complete]

end TypeNode

namespace TypeGraph

variable {g g' : TypeGraph} {id : TypeId}

theorem tree_eq_of_older (older : ∀ child, g.MadeOf id child → child < id) :
    g.tree id = (g.node id).spell g.tree := by
  rw [tree]
  cases hn : g.node id <;>
    simp_all [MadeOf, TypeNode.spell, TypeNode.children]

namespace WellFormed

theorem older_of_madeOf (hg : g.WellFormed) {child : TypeId} (hm : g.MadeOf id child) :
    child < id :=
  hg.older id hm.lt_size child hm

theorem tree_eq (hg : g.WellFormed) (id : TypeId) : g.tree id = (g.node id).spell g.tree :=
  tree_eq_of_older fun _ hm => hg.older_of_madeOf hm

theorem tree_of_node (hg : g.WellFormed) {node : TypeNode} (hn : g.node id = node) :
    g.tree id = node.spell g.tree := by
  rw [hg.tree_eq, hn]

theorem tree_complete (hg : g.WellFormed) (hid : g.node id ≠ .placeholder) :
    (g.tree id).Complete := by
  induction id using Nat.strongRecOn with
  | ind id ih =>
    rw [hg.tree_eq]
    apply TypeNode.complete_spell hid
    intro child hm
    have hu : g.Usable child := hg.usable id (lt_size_of_node hid) child hm
    exact ih child (hg.older_of_madeOf hm) hu.1

end WellFormed

theorem Grows.tree_eq (h : g.Grows g') (hg : g.WellFormed) (hg' : g'.WellFormed)
    (hid : id < g.size) : g'.tree id = g.tree id := by
  induction id using Nat.strongRecOn with
  | ind id ih =>
    rw [hg'.tree_eq, hg.tree_eq, h.node_eq hid]
    apply TypeNode.spell_congr
    intro child hm
    have hlt : child < id := hg.older_of_madeOf hm
    exact ih child hlt (Nat.lt_trans hlt hid)

theorem reaches_trueType (g : TypeGraph) (id : TypeId) :
    Relation.ReflTransGen g.MadeOf id (g.trueType id) := by
  induction id using Nat.strongRecOn with
  | ind id ih =>
    rw [trueType]
    split
    case h_1 target _ hn =>
      split
      case isTrue hlt =>
        have hm : g.MadeOf id target := by simp [MadeOf, hn, TypeNode.children]
        exact Relation.ReflTransGen.head hm (ih target hlt)
      case isFalse => exact Relation.ReflTransGen.refl
    case h_2 => exact Relation.ReflTransGen.refl

end TypeGraph

end ThriftIdl
