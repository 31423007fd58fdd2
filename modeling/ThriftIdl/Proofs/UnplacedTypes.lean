import ThriftIdl.Proofs.Denotation
import ThriftIdl.Schema.Json

namespace ThriftIdl

namespace TypeTree

/-- A type without the programs in which its parts are declared. -/
def unplaced : TypeTree → TypeTree
  | placeholder => .placeholder
  | builtin type => .builtin type
  | list element => .list element.unplaced
  | set element => .set element.unplaced
  | map key value => .map key.unplaced value.unplaced
  | user name kind _ => .user name kind 0
  | typedef name target _ => .typedef name target.unplaced 0

def behindTypedefs : TypeTree → TypeTree
  | typedef _ target _ => target.behindTypedefs
  | t => t

def userKind? : TypeTree → Option UserKind
  | user _ kind _ => some kind
  | _ => none

theorem toJson_unplaced (t : TypeTree) : t.unplaced.toJson = t.toJson := by
  induction t with
  | placeholder | builtin | user => rfl
  | list element ih => rw [unplaced, toJson, toJson, ih]
  | set element ih => rw [unplaced, toJson, toJson, ih]
  | map key value ihk ihv => rw [unplaced, toJson, toJson, ihk, ihv]
  | typedef name target program ih => rw [unplaced, toJson, toJson, ih]

theorem unplaced_behindTypedefs (t : TypeTree) :
    t.unplaced.behindTypedefs = t.behindTypedefs.unplaced := by
  induction t with
  | typedef name target program ih => rw [unplaced, behindTypedefs, behindTypedefs, ih]
  | _ => rfl

theorem userKind?_unplaced (t : TypeTree) : t.unplaced.userKind? = t.userKind? := by
  cases t <;> rfl

end TypeTree

theorem TypeExpr.tree?_unplaced (type : TypeExpr) (names : String → Option TypeTree) :
    (type.tree? names).map TypeTree.unplaced =
      type.tree? fun name => (names name).map TypeTree.unplaced := by
  induction type with
  | named name =>
    unfold tree?
    split <;> rfl
  | list element ih =>
    rw [tree?, tree?, ← ih, Option.map_map, Option.map_map]
    rfl
  | set element ih =>
    rw [tree?, tree?, ← ih, Option.map_map, Option.map_map]
    rfl
  | map key value ihk ihv =>
    rw [tree?, tree?, ← ihk, ← ihv]
    cases key.tree? names <;> cases value.tree? names <;> rfl

namespace TypeGraph

variable {g g' h h' : TypeGraph} {id id' : TypeId}

def form (g : TypeGraph) (id : TypeId) : TypeTree := (g.tree id).unplaced

theorem typeJson_eq_form (g : TypeGraph) (id : TypeId) : g.typeJson id = (g.form id).toJson :=
  (TypeTree.toJson_unplaced _).symm

namespace WellFormed

theorem tree_trueType (hg : g.WellFormed) (id : TypeId) :
    g.tree (g.trueType id) = (g.tree id).behindTypedefs := by
  induction id using Nat.strongRecOn with
  | ind id ih =>
    rw [trueType]
    cases hn : g.node id with
    | typedef name target program =>
      have hlt : target < id := hg.older_of_madeOf (by simp [MadeOf, hn, TypeNode.children])
      dsimp only
      rw [if_pos hlt, ih target hlt, hg.tree_of_node hn]
      rfl
    | _ =>
      rw [hg.tree_of_node hn]
      rfl

theorem form_user (hg : g.WellFormed) {name : String} {kind : UserKind} {program : ProgramId}
    (hn : g.node id = .user name kind program) : g.form id = .user name kind 0 := by
  unfold form
  rw [hg.tree_of_node hn]
  rfl

theorem form_typedef (hg : g.WellFormed) {name : String} {target : TypeId} {program : ProgramId}
    (hn : g.node id = .typedef name target program) :
    g.form id = .typedef name (g.form target) 0 := by
  unfold form
  rw [hg.tree_of_node hn]
  rfl

theorem form_trueType (hg : g.WellFormed) (id : TypeId) :
    g.form (g.trueType id) = (g.form id).behindTypedefs := by
  unfold form
  rw [hg.tree_trueType, TypeTree.unplaced_behindTypedefs]

theorem userKind_eq (hg : g.WellFormed) (id : TypeId) :
    g.userKind id = (g.form id).behindTypedefs.userKind? := by
  rw [← hg.form_trueType]
  unfold userKind form
  rw [TypeTree.userKind?_unplaced, hg.tree_eq]
  cases g.node (g.trueType id) <;> rfl

theorem form_eq_builtin_iff (hg : g.WellFormed) (hid : id < g.size) {type : Builtin} :
    g.form id = .builtin type ↔ id = type.id := by
  have hn := hg.node_builtin type
  constructor
  · intro hf
    have hlt : type.id < g.size := lt_size_of_node (by simp [hn])
    apply hg.distinct id hid type.id hlt
    rw [hn]
    unfold form at hf
    rw [hg.tree_eq] at hf
    cases hid : g.node id <;> simp_all [TypeNode.spell, TypeTree.unplaced]
  · rintro rfl
    unfold form
    rw [hg.tree_of_node hn]
    rfl

end WellFormed

/-- A graph has become another one. -/
structure Evolves (g h : TypeGraph) : Prop where
  grows : g.Grows h
  before : g.WellFormed
  after : h.WellFormed

theorem Evolves.refl (hg : g.WellFormed) : g.Evolves g := ⟨.refl g, hg, hg⟩

theorem Evolves.trans {k : TypeGraph} (hgh : g.Evolves h) (hhk : h.Evolves k) : g.Evolves k :=
  ⟨hgh.grows.trans hhk.grows, hgh.before, hhk.after⟩

theorem Evolves.form (hgh : g.Evolves h) (hid : id < g.size) : h.form id = g.form id := by
  unfold TypeGraph.form
  rw [hgh.grows.tree_eq hgh.before hgh.after hid]

/-- The types of two graphs differ in the programs only in which their parts are declared. -/
structure Alike (g g' : TypeGraph) (id id' : TypeId) : Prop where
  known : id < g.size
  known' : id' < g'.size
  form : g.form id = g'.form id'

namespace Alike

theorem evolves (ha : g.Alike g' id id') (hgh : g.Evolves h) (hgh' : g'.Evolves h') :
    h.Alike h' id id' := by
  refine ⟨Nat.lt_of_lt_of_le ha.known hgh.grows.size_le,
    Nat.lt_of_lt_of_le ha.known' hgh'.grows.size_le, ?_⟩
  rw [hgh.form ha.known, hgh'.form ha.known', ha.form]

theorem typeJson (ha : g.Alike g' id id') : g.typeJson id = g'.typeJson id' := by
  rw [typeJson_eq_form, typeJson_eq_form, ha.form]

theorem trueType_json (ha : g.Alike g' id id') (hg : g.WellFormed) (hg' : g'.WellFormed) :
    g.typeJson (g.trueType id) = g'.typeJson (g'.trueType id') := by
  rw [typeJson_eq_form, typeJson_eq_form, hg.form_trueType, hg'.form_trueType, ha.form]

theorem userKind (ha : g.Alike g' id id') (hg : g.WellFormed) (hg' : g'.WellFormed) :
    g.userKind id = g'.userKind id' := by
  rw [hg.userKind_eq, hg'.userKind_eq, ha.form]

theorem builtin (hg : g.WellFormed) (hg' : g'.WellFormed) (type : Builtin) :
    g.Alike g' type.id type.id := by
  have hlt {g : TypeGraph} (hg : g.WellFormed) : type.id < g.size :=
    lt_size_of_node (by simp [hg.node_builtin type])
  refine ⟨hlt hg, hlt hg', ?_⟩
  rw [(hg.form_eq_builtin_iff (hlt hg)).2 rfl, (hg'.form_eq_builtin_iff (hlt hg')).2 rfl]

theorem eq_builtin_iff (ha : g.Alike g' id id') (hg : g.WellFormed) (hg' : g'.WellFormed)
    {type : Builtin} : id = type.id ↔ id' = type.id := by
  rw [← hg.form_eq_builtin_iff ha.known, ← hg'.form_eq_builtin_iff ha.known', ha.form]

end Alike

end TypeGraph

end ThriftIdl
