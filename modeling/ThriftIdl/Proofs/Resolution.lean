import ThriftIdl.Proofs.Denotation
import ThriftIdl.Proofs.Runs

namespace ThriftIdl.TypeExpr

variable {g : TypeGraph} {lookup : String → Option TypeId} {type : TypeExpr} {id : TypeId}

inductive Outcome (g : TypeGraph) (lookup : String → Option TypeId) (type : TypeExpr) :
    Except LinkFault (Option TypeId) → Prop
  | void (h : "void" ∈ type.names) : Outcome g lookup type (.error .misplacedVoid)
  | unknown (hv : "void" ∉ type.names) {name : String} (hm : name ∈ type.names)
      (hn : ¬ Known lookup name) : Outcome g lookup type (.ok none)
  | known {id : TypeId} (h : type.Denotes g lookup id) : Outcome g lookup type (.ok (some id))

structure Resolved (g : TypeGraph) (lookup : String → Option TypeId) (type : TypeExpr)
    (result : Except LinkFault (Option TypeId) × TypeGraph) : Prop where
  grows : g.Grows result.2
  wellFormed : result.2.WellFormed
  outcome : Outcome result.2 lookup type result.1

theorem exec_resolve_named (name : String) (g : TypeGraph) :
    exec ((named name).resolve lookup) g =
      match Builtin.ofName? name with
      | some .void => (.error .misplacedVoid, g)
      | some type => (.ok (some type.id), g)
      | none => (.ok (lookup name), g) := by
  unfold resolve
  split <;> simp_all

/-- What resolving an element comes to for the container around it. -/
def wrapped (wrap : TypeId → TypeNode) : Except LinkFault (Option TypeId) × TypeGraph →
    Except LinkFault (Option TypeId) × TypeGraph
  | (.ok (some i), g) => (.ok (some (g.intern (wrap i)).1), (g.intern (wrap i)).2)
  | (.ok none, g) => (.ok none, g)
  | (.error fault, g) => (.error fault, g)

theorem exec_resolve_list (element : TypeExpr) (g : TypeGraph) :
    exec ((list element).resolve lookup) g = wrapped .list (exec (element.resolve lookup) g) := by
  rw [resolve, exec_bind]
  rcases exec (element.resolve lookup) g with ⟨_ | _ | _, _⟩ <;> rfl

theorem exec_resolve_set (element : TypeExpr) (g : TypeGraph) :
    exec ((set element).resolve lookup) g = wrapped .set (exec (element.resolve lookup) g) := by
  rw [resolve, exec_bind]
  rcases exec (element.resolve lookup) g with ⟨_ | _ | _, _⟩ <;> rfl

theorem exec_resolve_map (key value : TypeExpr) (g : TypeGraph) :
    exec ((map key value).resolve lookup) g =
      match exec (key.resolve lookup) g with
      | (.error fault, g') => (.error fault, g')
      | (.ok k, g') =>
        match exec (value.resolve lookup) g' with
        | (.error fault, g'') => (.error fault, g'')
        | (.ok v, g'') =>
          match k, v with
          | some i, some j => (.ok (some (g''.intern (.map i j)).1), (g''.intern (.map i j)).2)
          | _, _ => (.ok none, g'') := by
  rw [resolve, exec_bind]
  rcases exec (key.resolve lookup) g with ⟨_ | k, g'⟩
  · rfl
  · simp only [exec_bind]
    rcases exec (value.resolve lookup) g' with ⟨_ | v, g''⟩
    · rfl
    · rcases k with _ | k <;> rcases v with _ | v <;> rfl

/-- The containers that are asked for, made of what other written types stand for. -/
inductive ContainerOf (g : TypeGraph) (lookup : String → Option TypeId) : TypeNode → Prop
  | list {element : TypeExpr} {i : TypeId} (h : element.Denotes g lookup i) :
      ContainerOf g lookup (.list i)
  | set {element : TypeExpr} {i : TypeId} (h : element.Denotes g lookup i) :
      ContainerOf g lookup (.set i)
  | map {key value : TypeExpr} {i j : TypeId} (hk : key.Denotes g lookup i)
      (hv : value.Denotes g lookup j) : ContainerOf g lookup (.map i j)

def Adds (lookup : String → Option TypeId) : TypeGraph → TypeGraph → Prop :=
  Relation.ReflTransGen fun g g' => ∃ node, ContainerOf g lookup node ∧ g' = (g.intern node).2

theorem ContainerOf.child {node : TypeNode} {child : TypeId} (h : ContainerOf g lookup node)
    (hc : child ∈ node.children) : ∃ part : TypeExpr, part.Denotes g lookup child := by
  cases h with
  | list h | set h =>
    obtain rfl := List.mem_singleton.1 hc
    exact ⟨_, h⟩
  | map hk hv =>
    rcases List.mem_cons.1 hc with rfl | hc
    · exact ⟨_, hk⟩
    · obtain rfl := List.mem_singleton.1 hc
      exact ⟨_, hv⟩

namespace Adds

variable {g' : TypeGraph}

theorem keeps {I : TypeGraph → Prop} (h : Adds lookup g g') (hg : I g)
    (step : ∀ g₁ node, I g₁ → ContainerOf g₁ lookup node → I (g₁.intern node).2) : I g' := by
  induction h with
  | refl => exact hg
  | tail _ hstep ih =>
    obtain ⟨node, hnode, rfl⟩ := hstep
    exact step _ node ih hnode

theorem grows (h : Adds lookup g g') : g.Grows g' := by
  apply h.keeps (.refl g)
  intro g₁ node hgrow _
  exact hgrow.trans (g₁.grows_intern node)

theorem wellFormed (h : Adds lookup g g') (hg : g.WellFormed)
    (hl : ∀ name id, lookup name = some id → g.Usable id) : g'.WellFormed := by
  have hall : g.Grows g' ∧ g'.WellFormed := by
    apply h.keeps (I := fun g' => g.Grows g' ∧ g'.WellFormed) ⟨.refl g, hg⟩
    rintro g₁ node ⟨hgrow, hg₁⟩ hnode
    refine ⟨hgrow.trans (g₁.grows_intern node), hg₁.intern fun child hc => ?_⟩
    obtain ⟨part, hpart⟩ := hnode.child hc
    exact hpart.usable hg₁ fun name id hs => hgrow.usable (hl name id hs)
  exact hall.2

end Adds

theorem Outcome.void_not_mem {found : Option TypeId} (h : Outcome g lookup type (.ok found)) :
    "void" ∉ type.names := by
  cases h with
  | unknown hv => exact hv
  | known hd => exact hd.void_not_mem

theorem Outcome.map_unknown {g' : TypeGraph} {key value : TypeExpr} {k v : Option TypeId}
    (hk : Outcome g lookup key (.ok k)) (hv : Outcome g' lookup value (.ok v))
    (hnone : k = none ∨ v = none) : Outcome g' lookup (map key value) (.ok none) := by
  have hvoid : "void" ∉ (map key value).names := by
    simp [names, hk.void_not_mem, hv.void_not_mem]
  rcases hnone with rfl | rfl
  · cases hk with
    | unknown _ hm hn => exact .unknown hvoid (List.mem_append_left _ hm) hn
  · cases hv with
    | unknown _ hm hn => exact .unknown hvoid (List.mem_append_right _ hm) hn

theorem wrapped_adds {element whole : TypeExpr} {wrap : TypeId → TypeNode}
    {result : Except LinkFault (Option TypeId) × TypeGraph}
    (h : Adds lookup g result.2 ∧ Outcome result.2 lookup element result.1)
    (hnames : whole.names = element.names)
    (hcontainer : ∀ {g i}, element.Denotes g lookup i → ContainerOf g lookup (wrap i))
    (hdenotes : ∀ {g i id}, element.Denotes g lookup i → g.node id = wrap i →
      whole.Denotes g lookup id) :
    Adds lookup g (wrapped wrap result).2 ∧
      Outcome (wrapped wrap result).2 lookup whole (wrapped wrap result).1 := by
  obtain ⟨r, g'⟩ := result
  obtain ⟨hadds, hout⟩ := h
  cases hout with
  | void hv => exact ⟨hadds, .void (hnames ▸ hv)⟩
  | unknown hv hm hn => exact ⟨hadds, .unknown (hnames ▸ hv) (hnames ▸ hm) hn⟩
  | @known i hi =>
    refine ⟨hadds.tail ⟨_, hcontainer hi, rfl⟩, .known ?_⟩
    exact hdenotes (hi.grows (g'.grows_intern _)) (g'.node_intern _)

/-- Whatever a type comes to, containers of its parts are all that is added for it. -/
theorem resolve_adds (type : TypeExpr) (g : TypeGraph) :
    Adds lookup g (exec (type.resolve lookup) g).2 ∧
      Outcome (exec (type.resolve lookup) g).2 lookup type (exec (type.resolve lookup) g).1 := by
  induction type generalizing g with
  | named name =>
    rw [exec_resolve_named]
    split
    · next hb => exact ⟨.refl, .void (by simp [names, Builtin.ofName?_eq_void.1 hb])⟩
    · next type hv hb => exact ⟨.refl, .known (.builtin hb (by simpa using hv))⟩
    · next hb =>
      refine ⟨.refl, ?_⟩
      cases hs : lookup name with
      | none =>
        have hv : "void" ≠ name := by
          rintro rfl
          simp [Builtin.ofName?_eq_void.2 rfl] at hb
        have hn : ¬ Known lookup name := by simp [Known, hb, hs]
        exact .unknown (by simpa [names] using hv) (List.mem_singleton_self name) hn
      | some id => exact .known (.symbol hb hs)
  | list element ih =>
    rw [exec_resolve_list]
    exact wrapped_adds (ih g) rfl .list .list
  | set element ih =>
    rw [exec_resolve_set]
    exact wrapped_adds (ih g) rfl .set .set
  | map key value ihk ihv =>
    obtain ⟨hk, hkey⟩ := ihk g
    rw [exec_resolve_map]
    generalize exec (key.resolve lookup) g = result at hk hkey ⊢
    rcases result with ⟨fault | k, g'⟩
    · cases hkey with
      | void hm => exact ⟨hk, .void (List.mem_append_left _ hm)⟩
    · -- An unknown key does not keep the value from being looked up, whose faults come first.
      obtain ⟨hv, hvalue⟩ := ihv g'
      dsimp only at hk hkey ⊢
      generalize exec (value.resolve lookup) g' = result at hv hvalue ⊢
      rcases result with ⟨fault | v, g''⟩
      · cases hvalue with
        | void hm => exact ⟨hk.trans hv, .void (List.mem_append_right _ hm)⟩
      · have hadds : Adds lookup g g'' := hk.trans hv
        rcases k with _ | i
        · exact ⟨hadds, hkey.map_unknown hvalue (.inl rfl)⟩
        · rcases v with _ | j
          · exact ⟨hadds, hkey.map_unknown hvalue (.inr rfl)⟩
          · cases hkey with
            | known hi =>
            cases hvalue with
            | known hj =>
              have hi' := hi.grows hv.grows
              have hgrow := g''.grows_intern (.map i j)
              refine ⟨hadds.tail ⟨_, .map hi' hj, rfl⟩, .known ?_⟩
              exact .map (hi'.grows hgrow) (hj.grows hgrow) (g''.node_intern _)

theorem resolved (type : TypeExpr) (hg : g.WellFormed)
    (hl : ∀ name id, lookup name = some id → g.Usable id) :
    Resolved g lookup type (exec (type.resolve lookup) g) := by
  obtain ⟨hadds, hout⟩ := type.resolve_adds g
  exact ⟨hadds.grows, hadds.wellFormed hg hl, hout⟩

theorem exec_resolve_of_denotes (h : type.Denotes g lookup id) (hg : g.WellFormed) :
    exec (type.resolve lookup) g = (.ok (some id), g) := by
  have found {node : TypeNode} {i : TypeId} (hp : node ≠ .placeholder) (hi : g.node i = node) :
      g.intern node = (i, g) := by
    subst hi
    exact hg.intern_node (TypeGraph.lt_size_of_node hp)
  induction h with
  | @builtin name type hb hv =>
    rw [exec_resolve_named, hb]
    cases type <;> first | rfl | exact absurd rfl hv
  | symbol hb hs => rw [exec_resolve_named, hb, hs]
  | list he hn ih => rw [exec_resolve_list, ih]; simp [wrapped, found (by simp) hn]
  | set he hn ih => rw [exec_resolve_set, ih]; simp [wrapped, found (by simp) hn]
  | map hk hv hn ihk ihv => rw [exec_resolve_map, ihk]; simp [ihv, found (by simp) hn]

end ThriftIdl.TypeExpr
