import ThriftIdl.Proofs.GraphConstruction
import ThriftIdl.TypeTables

namespace ThriftIdl.TypeTables

/-- Whether tables have given out a handle. The placeholder is not counted. -/
def Holds (t : TypeTables) (id : TypeId) : Prop := id < t.nodes.length ∧ id ≠ 0

/-- What a call may make of the tables. -/
inductive Call (t : TypeTables) : TypeTables → Prop
  | list {element : TypeId} (h : t.Holds element) : Call t (t.list element).2
  | set {element : TypeId} (h : t.Holds element) : Call t (t.set element).2
  | map {key value : TypeId} (hk : t.Holds key) (hv : t.Holds value) : Call t (t.map key value).2
  | user (name : String) (kind : UserKind) (program : ProgramId) :
      Call t (t.user name kind program).2
  | typedef (name : String) {target : TypeId} (program : ProgramId) (h : t.Holds target) :
      Call t (t.typedef name target program).2

/-- The tables that calls lead to. -/
def Built (t : TypeTables) : Prop := Relation.ReflTransGen Call new t

/-- There is a name for every node, and the handle of a node is its place. -/
structure InStep (t : TypeTables) : Prop where
  named : t.names.length = t.nodes.length
  handles : ∀ node id, t.interned.lookup node = some id ↔ t.nodes[id]? = some node

section InStep

variable {t : TypeTables} {node : TypeNode} {id i j : TypeId}

theorem getElem?_snoc_iff {α : Type} {xs : List α} {x y : α} {i : Nat} :
    (xs ++ [x])[i]? = some y ↔ xs[i]? = some y ∨ i = xs.length ∧ x = y := by
  rcases Nat.lt_trichotomy i xs.length with hlt | rfl | hgt
  · simp [List.getElem?_append_left hlt, Nat.ne_of_lt hlt]
  · simp
  · have hnone : (xs ++ [x])[i]? = none := List.getElem?_eq_none (by
      rw [List.length_append]
      exact hgt)
    simp [hnone, List.getElem?_eq_none (Nat.le_of_lt hgt), Nat.ne_of_gt hgt]

theorem inStep_empty : empty.InStep := ⟨rfl, by simp [empty]⟩

theorem intern_cases (t : TypeTables) (node : TypeNode) :
    (∃ id, t.interned.lookup node = some id ∧ t.intern node = (id, t)) ∨
      t.interned.lookup node = none ∧ t.intern node = (t.nodes.length,
        ⟨t.nodes ++ [node], t.names ++ [t.nameOf node],
          (node, t.nodes.length) :: t.interned⟩) := by
  unfold intern
  cases hl : t.interned.lookup node with
  | some id => exact .inl ⟨id, rfl, rfl⟩
  | none => exact .inr ⟨rfl, rfl⟩

/-- A node that is not in the map is nowhere among the nodes. -/
theorem InStep.absent (h : t.InStep) (hl : t.interned.lookup node = none) (id : TypeId) :
    t.nodes[id]? ≠ some node := by
  intro hn
  rw [← h.handles, hl] at hn
  cases hn

theorem InStep.index_unique (h : t.InStep) (hi : t.nodes[i]? = some node)
    (hj : t.nodes[j]? = some node) : i = j := by
  rw [← h.handles] at hi hj
  exact Option.some.inj (hi.symm.trans hj)

theorem InStep.intern (h : t.InStep) (node : TypeNode) : (t.intern node).2.InStep := by
  rcases t.intern_cases node with ⟨id, -, he⟩ | ⟨hl, he⟩
  · rw [he]
    exact h
  · rw [he]
    refine ⟨by simp [h.named], fun other id => ?_⟩
    dsimp only
    rw [List.lookup_cons, getElem?_snoc_iff, ← h.handles]
    by_cases hother : other = node
    · subst hother
      simp [hl, eq_comm]
    · have hne : (other == node) = false := by simpa using hother
      simp [hne, Ne.symm hother]

theorem InStep.internAll (h : t.InStep) (nodes : List TypeNode) : (t.internAll nodes).InStep := by
  induction nodes generalizing t with
  | nil => exact h
  | cons node nodes ih => exact ih (h.intern node)

theorem inStep_new : new.InStep := inStep_empty.internAll _

end InStep

section Graph

variable {t t' : TypeTables} {node : TypeNode} {id : TypeId}

theorem InStep.nodes_graph (h : t.InStep) : t.graph.entries.map TypeEntry.node = t.nodes := by
  unfold graph
  rw [← List.map_uncurry_zip_eq_zipWith, List.map_map]
  exact List.map_fst_zip (Nat.le_of_eq h.named.symm)

theorem InStep.names_graph (h : t.InStep) : t.graph.entries.map TypeEntry.name = t.names := by
  unfold graph
  rw [← List.map_uncurry_zip_eq_zipWith, List.map_map]
  exact List.map_snd_zip (Nat.le_of_eq h.named)

theorem InStep.size_graph (h : t.InStep) : t.graph.size = t.nodes.length := by
  rw [← h.nodes_graph, List.length_map]
  rfl

theorem InStep.node_graph (h : t.InStep) (id : TypeId) :
    t.graph.node id = t.nodes[id]?.getD .placeholder := by
  rw [← h.nodes_graph, List.getElem?_map]
  rfl

theorem InStep.name_graph (h : t.InStep) (id : TypeId) : t.graph.name id = t.name id := by
  unfold TypeTables.name
  rw [← h.names_graph, List.getElem?_map]
  rfl

theorem InStep.nameOf_graph (h : t.InStep) (node : TypeNode) :
    t.graph.nameOf node = t.nameOf node := by
  cases node <;> simp only [TypeGraph.nameOf, nameOf, h.name_graph]

theorem InStep.getElem?_iff (h : t.InStep) :
    t.nodes[id]? = some node ↔ id < t.graph.size ∧ t.graph.node id = node := by
  rw [h.size_graph, h.node_graph]
  constructor
  · intro hn
    exact ⟨(List.getElem?_eq_some_iff.1 hn).1, by rw [hn]; rfl⟩
  · rintro ⟨hlt, rfl⟩
    rw [List.getElem?_eq_getElem hlt]
    rfl

/-- To look a node up in the map is to search the graph for it. -/
theorem InStep.intern_graph (h : t.InStep) (node : TypeNode) :
    t.graph.intern node = ((t.intern node).1, (t.intern node).2.graph) := by
  rcases t.intern_cases node with ⟨id, hl, he⟩ | ⟨hl, he⟩
  · rw [h.handles, h.getElem?_iff] at hl
    rcases t.graph.intern_cases node with ⟨i, hi, hn, hi'⟩ | ⟨hnew, -⟩
    · rw [he, hi', h.index_unique (h.getElem?_iff.2 ⟨hi, hn⟩) (h.getElem?_iff.2 hl)]
    · exact absurd hl.2 (hnew id hl.1)
  · rcases t.graph.intern_cases node with ⟨i, hi, hn, -⟩ | ⟨-, hi'⟩
    · exact absurd (h.getElem?_iff.2 ⟨hi, hn⟩) (h.absent hl i)
    · rw [he, hi', h.size_graph, h.nameOf_graph]
      unfold graph
      rw [List.zipWith_append h.named.symm]
      rfl

end Graph

section Built

variable {t t' : TypeTables} {g : TypeGraph} {node : TypeNode} {id i j : TypeId}

/-- The tables begin as the graph does. -/
theorem graph_new : new.graph = .initial := by decide

theorem InStep.holds_graph (h : t.InStep) : t.graph.Holds id ↔ t.Holds id := by
  unfold TypeGraph.Holds Holds
  rw [h.size_graph]

theorem InStep.offers (h : t.InStep) (hcall : t.Call t') :
    ∃ node, t.graph.Offers node ∧ t' = (t.intern node).2 := by
  cases hcall with
  | list he => exact ⟨_, .list (h.holds_graph.2 he), rfl⟩
  | set he => exact ⟨_, .set (h.holds_graph.2 he), rfl⟩
  | map hk hv => exact ⟨_, .map (h.holds_graph.2 hk) (h.holds_graph.2 hv), rfl⟩
  | user name kind program => exact ⟨_, .user name kind program, rfl⟩
  | typedef name program ht => exact ⟨_, .typedef name program (h.holds_graph.2 ht), rfl⟩

/-- A call changes the tables as it changes the graph. -/
theorem InStep.call (h : t.InStep) (hcall : t.Call t') : t'.InStep ∧ t.graph.Call t'.graph := by
  obtain ⟨node, hoffers, rfl⟩ := h.offers hcall
  exact ⟨h.intern node, node, hoffers, by rw [h.intern_graph]⟩

theorem InStep.exists_call (h : t.InStep) (hcall : t.graph.Call g) :
    ∃ t', t.Call t' ∧ t'.graph = g := by
  obtain ⟨node, hoffers, rfl⟩ := hcall
  refine ⟨(t.intern node).2, ?_, by rw [h.intern_graph]⟩
  cases hoffers with
  | list he => exact .list (h.holds_graph.1 he)
  | set he => exact .set (h.holds_graph.1 he)
  | map hk hv => exact .map (h.holds_graph.1 hk) (h.holds_graph.1 hv)
  | user name kind program => exact .user name kind program
  | typedef name program ht => exact .typedef name program (h.holds_graph.1 ht)

theorem Built.inStep (h : t.Built) : t.InStep ∧ t.graph.Built := by
  induction h with
  | refl => exact ⟨inStep_new, graph_new ▸ .refl⟩
  | tail _ hcall ih =>
    obtain ⟨hstep, hgraph⟩ := ih.1.call hcall
    exact ⟨hstep, ih.2.tail hgraph⟩

/-- The graphs that calls lead to are those of the tables that calls lead to. -/
theorem exists_built_iff : (∃ t : TypeTables, t.Built ∧ t.graph = g) ↔ g.Built := by
  constructor
  · rintro ⟨t, ht, rfl⟩
    exact ht.inStep.2
  · intro h
    induction h with
    | refl => exact ⟨new, .refl, graph_new⟩
    | tail _ hcall ih =>
      obtain ⟨t, ht, rfl⟩ := ih
      obtain ⟨t', hcall', hg⟩ := ht.inStep.1.exists_call hcall
      exact ⟨t', ht.tail hcall', hg⟩

theorem intern_isPrefix (t : TypeTables) (node : TypeNode) :
    t.nodes <+: (t.intern node).2.nodes ∧ t.names <+: (t.intern node).2.names := by
  rcases t.intern_cases node with ⟨id, -, he⟩ | ⟨-, he⟩
  · rw [he]
    exact ⟨List.prefix_rfl, List.prefix_rfl⟩
  · rw [he]
    exact ⟨List.prefix_append _ _, List.prefix_append _ _⟩

theorem InStep.isPrefix_of_calls (h : t.InStep) (hcalls : Relation.ReflTransGen Call t t') :
    t'.InStep ∧ t.nodes <+: t'.nodes ∧ t.names <+: t'.names := by
  induction hcalls with
  | refl => exact ⟨h, List.prefix_rfl, List.prefix_rfl⟩
  | tail _ hcall ih =>
    obtain ⟨hstep, hnodes, hnames⟩ := ih
    obtain ⟨node, -, rfl⟩ := hstep.offers hcall
    obtain ⟨hnodes', hnames'⟩ := intern_isPrefix _ node
    exact ⟨hstep.intern node, hnodes.trans hnodes', hnames.trans hnames'⟩

theorem InStep.intern_eq_iff (h : t.InStep) :
    t.intern node = (id, t) ↔ t.nodes[id]? = some node := by
  rw [← h.handles]
  rcases t.intern_cases node with ⟨i, hl, he⟩ | ⟨hl, he⟩
  · rw [he, hl, Prod.mk.injEq, Option.some.injEq, and_iff_left rfl]
  · rw [he, hl]
    refine iff_of_false (fun hsame => ?_) nofun
    have hlength := congrArg (fun out => out.2.nodes.length) hsame
    simp at hlength

theorem InStep.name_eq_iff (h : t.InStep) (hid : id < t.nodes.length) :
    t.names[id]? = some (t.nameOf node) ↔ t.graph.name id = t.graph.nameOf node := by
  have hlt : id < t.names.length := h.named ▸ hid
  rw [h.name_graph, h.nameOf_graph, List.getElem?_eq_getElem hlt, Option.some.injEq]
  unfold TypeTables.name
  rw [List.getElem?_eq_getElem hlt]
  rfl

/-- In tables that calls have led to, the placeholder and the built-in types have their places, and
the nodes, their names and the map from nodes to handles are in step: no node stands at two places,
and the map is the inverse of the nodes. Types are made of older ones, so chains of typedefs end and
types can be written out, differently for different handles. More calls change nothing under a handle
that has been given out. All along, the tables stand for the graph that the same calls lead to. -/
theorem built_types_once (h : t.Built) :
    (t.nodes[0]? = some .placeholder ∧
      ∀ type : Builtin, t.nodes[type.id]? = some (.builtin type)) ∧
    (t.names.length = t.nodes.length ∧
      (∀ (i j : TypeId) (node : TypeNode),
        t.nodes[i]? = some node → t.nodes[j]? = some node → i = j) ∧
      ∀ (node : TypeNode) (id : TypeId),
        t.interned.lookup node = some id ↔ t.nodes[id]? = some node) ∧
    (∀ (node : TypeNode) (id : TypeId), t.intern node = (id, t) ↔ t.nodes[id]? = some node) ∧
    (∀ (id : TypeId) (node : TypeNode), t.nodes[id]? = some node →
      t.names[id]? = some (t.nameOf node) ∧ ∀ child ∈ node.children, child < id) ∧
    (WellFounded fun child id => t.graph.MadeOf id child) ∧
    (∀ id, Relation.ReflTransGen t.graph.Renames id (t.graph.trueType id) ∧
      t.graph.isTypedef (t.graph.trueType id) = false ∧
      t.graph.trueType (t.graph.trueType id) = t.graph.trueType id) ∧
    (∀ id, t.graph.tree id = (t.graph.node id).spell t.graph.tree) ∧
    (∀ i < t.nodes.length, ∀ j < t.nodes.length, t.graph.tree i = t.graph.tree j ↔ i = j) ∧
    (∀ t', Relation.ReflTransGen Call t t' → ∀ id < t.nodes.length,
      t'.nodes[id]? = t.nodes[id]? ∧ t'.names[id]? = t.names[id]?) ∧
    (new.graph = .initial ∧ (∀ g, (∃ t' : TypeTables, t'.Built ∧ t'.graph = g) ↔ g.Built) ∧
      (∀ id, t.graph.node id = t.nodes[id]?.getD .placeholder ∧ t.graph.name id = t.name id) ∧
      ∀ node, t.graph.intern node = ((t.intern node).1, (t.intern node).2.graph)) := by
  obtain ⟨hstep, hbuilt⟩ := h.inStep
  have hg := TypeGraph.Interned.of_built hbuilt
  have hsize : 10 ≤ t.graph.size := TypeGraph.Grows.size_le hg.initial
  have hzero : 0 < t.graph.size := Nat.lt_of_lt_of_le (by decide) hsize
  refine ⟨⟨hstep.getElem?_iff.2 ⟨hzero, hg.node_initial (by decide)⟩, fun type => ?_⟩,
    ⟨hstep.named, fun i j node => hstep.index_unique, hstep.handles⟩,
    fun _ _ => hstep.intern_eq_iff, fun id node hn => ?_, hg.wellFounded,
    fun id => ⟨(hg.follows_trueType id).1, hg.trueType_ends id⟩, hg.tree_eq, ?_, ?_,
    graph_new, fun _ => exists_built_iff, fun id => ⟨hstep.node_graph id, hstep.name_graph id⟩,
    hstep.intern_graph⟩
  · have hid : type.id < 10 := by cases type <;> decide
    exact hstep.getElem?_iff.2 ⟨Nat.lt_of_lt_of_le hid hsize, hg.node_builtin type⟩
  · obtain ⟨hid, rfl⟩ := hstep.getElem?_iff.1 hn
    refine ⟨(hstep.name_eq_iff (hstep.size_graph ▸ hid)).2 (hg.named id hid), ?_⟩
    intro child hm
    exact (hg.parts id child hm).1
  · rw [← hstep.size_graph]
    intro i hi j hj
    exact ⟨hg.tree_injective hi hj, fun he => by rw [he]⟩
  · intro t' hcalls id hid
    obtain ⟨-, ⟨nodes, hnodes⟩, names, hnames⟩ := hstep.isPrefix_of_calls hcalls
    rw [← hnodes, ← hnames, List.getElem?_append_left hid,
      List.getElem?_append_left (hstep.named ▸ hid)]
    exact ⟨rfl, rfl⟩

def rowName : String := "Row"

def lineName : String := "Line"

/-- A map from strings to rows, where a row is renamed twice and its list is asked for twice. -/
def nestedRows : TypeTables :=
  new.internAll [.list Builtin.i32.id, .typedef rowName 10 0, .typedef lineName 11 1,
    .map Builtin.string.id 12, .list Builtin.i32.id]

theorem nestedRows_built : nestedRows.Built := by
  let listed := (new.list Builtin.i32.id).2
  let rows := (listed.typedef rowName 10 0).2
  let lines := (rows.typedef lineName 11 1).2
  have hlist : listed.Built := .tail .refl (.list ⟨by decide, by decide⟩)
  have hrow : rows.Built := hlist.tail (.typedef rowName 0 ⟨by decide, by decide⟩)
  have hline : lines.Built := hrow.tail (.typedef lineName 1 ⟨by decide, by decide⟩)
  have hmap : (lines.map Builtin.string.id 12).2.Built :=
    hline.tail (.map ⟨by decide, by decide⟩ ⟨by decide, by decide⟩)
  exact hmap.tail (.list ⟨by decide, by decide⟩)

/-- The second list of numbers is the first one, and no node or name is added for it. -/
theorem nestedRows_types_once :
    nestedRows.Built ∧ nestedRows.intern (.list Builtin.i32.id) = (10, nestedRows) ∧
      nestedRows.interned.lookup (.map Builtin.string.id 12) = some 13 ∧
      nestedRows.names[13]? = some "map<string, Line>" ∧ nestedRows.names.length = 14 ∧
      (nestedRows.graph.tree 12 = nestedRows.graph.tree 11 ↔ (12 : TypeId) = 11) := by
  obtain ⟨-, ⟨hlength, -, hhandles⟩, hintern, -, -, -, -, htree, -⟩ :=
    built_types_once nestedRows_built
  refine ⟨nestedRows_built, (hintern _ _).2 (by decide), (hhandles _ _).2 (by decide), by decide,
    hlength.trans (by decide), htree 12 (by decide) 11 (by decide)⟩

end Built

end ThriftIdl.TypeTables
