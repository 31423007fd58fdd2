import ThriftIdl.Proofs.Unfolding
import ThriftIdl.Visibility

namespace ThriftIdl

theorem Builtin.ofName?_eq_void {name : String} : ofName? name = some .void ↔ name = "void" := by
  constructor
  · intro h
    unfold ofName? at h
    split at h <;> simp_all
  · rintro rfl
    rfl

namespace TypeExpr

def Known (lookup : String → Option TypeId) (name : String) : Prop :=
  (Builtin.ofName? name).isSome ∨ (lookup name).isSome

instance (lookup : String → Option TypeId) : DecidablePred (Known lookup) :=
  fun _ => inferInstanceAs (Decidable (_ ∨ _))

/-- The handle that a written type stands for, given what its names stand for. -/
inductive Denotes (g : TypeGraph) (lookup : String → Option TypeId) : TypeExpr → TypeId → Prop
  | builtin {name : String} {type : Builtin} (hb : Builtin.ofName? name = some type)
      (hv : type ≠ .void) : Denotes g lookup (named name) type.id
  | symbol {name : String} {id : TypeId} (hb : Builtin.ofName? name = none)
      (hl : lookup name = some id) : Denotes g lookup (named name) id
  | list {element : TypeExpr} {i id : TypeId} (he : Denotes g lookup element i)
      (hn : g.node id = .list i) : Denotes g lookup (list element) id
  | set {element : TypeExpr} {i id : TypeId} (he : Denotes g lookup element i)
      (hn : g.node id = .set i) : Denotes g lookup (set element) id
  | map {key value : TypeExpr} {i j id : TypeId} (hk : Denotes g lookup key i)
      (hv : Denotes g lookup value j) (hn : g.node id = .map i j) :
      Denotes g lookup (map key value) id

def tree? (lookup : String → Option TypeTree) : TypeExpr → Option TypeTree
  | named name =>
    match Builtin.ofName? name with
    | some type => some (.builtin type)
    | none => lookup name
  | list element => (element.tree? lookup).map .list
  | set element => (element.tree? lookup).map .set
  | map key value => (key.tree? lookup).bind fun k => (value.tree? lookup).map (.map k ·)

variable {g g' : TypeGraph} {lookup lookup' : String → Option TypeId} {type : TypeExpr}
  {id : TypeId} {name : String}

theorem tree?_congr {names names' : String → Option TypeTree}
    (h : ∀ name ∈ type.names, Builtin.ofName? name = none → names name = names' name) :
    type.tree? names = type.tree? names' := by
  induction type with
  | named name =>
    unfold tree?
    split
    · rfl
    · next hb => exact h name (by simp [TypeExpr.names]) hb
  | list element ih => simp only [tree?, ih h]
  | set element ih => simp only [tree?, ih h]
  | map key value ihk ihv =>
    have hk := ihk fun name hm => h name (by simp [TypeExpr.names, hm])
    have hv := ihv fun name hm => h name (by simp [TypeExpr.names, hm])
    simp only [tree?, hk, hv]

namespace Denotes

theorem usable (h : Denotes g lookup type id) (hg : g.WellFormed)
    (hl : ∀ name id, lookup name = some id → g.Usable id) : g.Usable id := by
  cases h with
  | builtin hb hv => exact hg.usable_builtin hv
  | symbol hb hs => exact hl _ _ hs
  | list he hn => simp [TypeGraph.Usable, hn]
  | set he hn => simp [TypeGraph.Usable, hn]
  | map hk hv hn => simp [TypeGraph.Usable, hn]

theorem grows (h : Denotes g lookup type id) (hgrow : g.Grows g') : Denotes g' lookup type id := by
  induction h with
  | builtin hb hv => exact .builtin hb hv
  | symbol hb hs => exact .symbol hb hs
  | list he hn ih => exact .list ih ((hgrow.node_of_ne (by simp [hn])).trans hn)
  | set he hn ih => exact .set ih ((hgrow.node_of_ne (by simp [hn])).trans hn)
  | map hk hv hn ihk ihv => exact .map ihk ihv ((hgrow.node_of_ne (by simp [hn])).trans hn)

theorem congr (h : Denotes g lookup type id)
    (hl : ∀ name ∈ type.names, Builtin.ofName? name = none → lookup name = lookup' name) :
    Denotes g lookup' type id := by
  induction h with
  | builtin hb hv => exact .builtin hb hv
  | @symbol name id hb hs =>
    have he := hl name (by simp [names]) hb
    exact .symbol hb (he ▸ hs)
  | list he hn ih => exact .list (ih hl) hn
  | set he hn ih => exact .set (ih hl) hn
  | map hk hv hn ihk ihv =>
    refine .map (ihk ?_) (ihv ?_) hn
    · intro name hm
      exact hl name (by simp [names, hm])
    · intro name hm
      exact hl name (by simp [names, hm])

theorem unique (h : Denotes g lookup type id) (hg : g.WellFormed) {id' : TypeId}
    (h' : Denotes g lookup type id') : id = id' := by
  have same {node : TypeNode} {i j : TypeId} (hp : node ≠ .placeholder) (hi : g.node i = node)
      (hj : g.node j = node) : i = j := by
    subst hi
    have hlt : j < g.size := TypeGraph.lt_size_of_node (hj ▸ hp)
    exact hg.distinct i (TypeGraph.lt_size_of_node hp) j hlt hj.symm
  induction h generalizing id' with
  | builtin hb hv =>
    cases h' with
    | builtin hb' hv' => simp_all
    | symbol hb' hs => simp_all
  | symbol hb hs =>
    cases h' with
    | builtin hb' hv' => simp_all
    | symbol hb' hs => simp_all
  | list he hn ih =>
    cases h' with
    | list he' hn' =>
      obtain rfl := ih he'
      exact same (by simp) hn hn'
  | set he hn ih =>
    cases h' with
    | set he' hn' =>
      obtain rfl := ih he'
      exact same (by simp) hn hn'
  | map hk hv hn ihk ihv =>
    cases h' with
    | map hk' hv' hn' =>
      obtain rfl := ihk hk'
      obtain rfl := ihv hv'
      exact same (by simp) hn hn'

theorem void_not_mem (h : Denotes g lookup type id) : "void" ∉ type.names := by
  induction h with
  | @builtin name type hb hv =>
    intro hm
    obtain rfl : "void" = name := by simpa [names] using hm
    rw [Builtin.ofName?_eq_void.2 rfl] at hb
    exact hv (by simpa using hb.symm)
  | @symbol name id hb hs =>
    intro hm
    obtain rfl : "void" = name := by simpa [names] using hm
    simp [Builtin.ofName?_eq_void.2 rfl] at hb
  | list he hn ih => exact ih
  | set he hn ih => exact ih
  | map hk hv hn ihk ihv => simp [names, ihk, ihv]

theorem symbol_le (h : Denotes g lookup type id) (hg : g.WellFormed) (hm : name ∈ type.names)
    (hb : Builtin.ofName? name = none) : ∃ i ≤ id, lookup name = some i := by
  have below {part whole i : TypeId} (hi : i ≤ part) (hp : g.MadeOf whole part) : i ≤ whole :=
    Nat.le_trans hi (Nat.le_of_lt (hg.older_of_madeOf hp))
  induction h with
  | builtin hb' hv =>
    obtain rfl := List.mem_singleton.1 hm
    simp [hb] at hb'
  | @symbol name' id hb' hs =>
    obtain rfl := List.mem_singleton.1 hm
    exact ⟨id, Nat.le_refl id, hs⟩
  | @list element i id he hn ih =>
    obtain ⟨k, hk, hs⟩ := ih hm
    exact ⟨k, below hk (by simp [TypeGraph.MadeOf, hn, TypeNode.children]), hs⟩
  | @set element i id he hn ih =>
    obtain ⟨k, hk, hs⟩ := ih hm
    exact ⟨k, below hk (by simp [TypeGraph.MadeOf, hn, TypeNode.children]), hs⟩
  | @map key value i j id hk hv hn ihk ihv =>
    rcases List.mem_append.1 hm with hm | hm
    · obtain ⟨k, hle, hs⟩ := ihk hm
      exact ⟨k, below hle (by simp [TypeGraph.MadeOf, hn, TypeNode.children]), hs⟩
    · obtain ⟨k, hle, hs⟩ := ihv hm
      exact ⟨k, below hle (by simp [TypeGraph.MadeOf, hn, TypeNode.children]), hs⟩

theorem known (h : Denotes g lookup type id) (hm : name ∈ type.names) : Known lookup name := by
  induction h with
  | builtin hb hv =>
    obtain rfl := List.mem_singleton.1 hm
    exact .inl (by simp [hb])
  | symbol hb hs =>
    obtain rfl := List.mem_singleton.1 hm
    exact .inr (by simp [hs])
  | list he hn ih => exact ih hm
  | set he hn ih => exact ih hm
  | map hk hv hn ihk ihv => exact (List.mem_append.1 hm).elim ihk ihv

theorem lookup_eq (h : Denotes g lookup type id) (h' : Denotes g lookup' type id)
    (hm : name ∈ type.names) (hb : Builtin.ofName? name = none) : lookup name = lookup' name := by
  induction h with
  | builtin hb' hv =>
    obtain rfl := List.mem_singleton.1 hm
    simp [hb] at hb'
  | symbol hb' hs =>
    obtain rfl := List.mem_singleton.1 hm
    cases h' with
    | builtin hb'' hv => simp [hb] at hb''
    | symbol hb'' hs' => rw [hs, hs']
  | list he hn ih =>
    cases h' with
    | list he' hn' =>
      obtain rfl : _ = _ := TypeNode.list.inj (hn.symm.trans hn')
      exact ih he' hm
  | set he hn ih =>
    cases h' with
    | set he' hn' =>
      obtain rfl : _ = _ := TypeNode.set.inj (hn.symm.trans hn')
      exact ih he' hm
  | map hk hv hn ihk ihv =>
    cases h' with
    | map hk' hv' hn' =>
      obtain ⟨rfl, rfl⟩ := TypeNode.map.inj (hn.symm.trans hn')
      rcases List.mem_append.1 hm with hm | hm
      · exact ihk hk' hm
      · exact ihv hv' hm

theorem tree?_of_spelled (h : Denotes g lookup type id)
    (hbuiltin : ∀ type : Builtin, g.node type.id = .builtin type)
    (hspell : ∀ id, g.tree id = (g.node id).spell g.tree) :
    type.tree? (fun name => (lookup name).map g.tree) = some (g.tree id) := by
  induction h with
  | @builtin name type hb hv =>
    rw [hspell, hbuiltin]
    simp [tree?, hb, TypeNode.spell]
  | symbol hb hs => simp [tree?, hb, hs]
  | @list element i id he hn ih =>
    rw [hspell id, hn]
    simp [tree?, ih, TypeNode.spell]
  | @set element i id he hn ih =>
    rw [hspell id, hn]
    simp [tree?, ih, TypeNode.spell]
  | @map key value i j id hk hv hn ihk ihv =>
    rw [hspell id, hn]
    simp [tree?, ihk, ihv, TypeNode.spell]

theorem tree?_eq (h : Denotes g lookup type id) (hg : g.WellFormed) :
    type.tree? (fun name => (lookup name).map g.tree) = some (g.tree id) :=
  h.tree?_of_spelled hg.node_builtin hg.tree_eq

end Denotes

end TypeExpr

end ThriftIdl
