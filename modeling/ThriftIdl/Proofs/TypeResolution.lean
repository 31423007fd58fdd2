import ThriftIdl.Proofs.GraphConstruction
import ThriftIdl.Proofs.LinkStates

namespace ThriftIdl

def TypeNode.IsContainer : TypeNode → Prop
  | list _ | set _ | map .. => True
  | placeholder | builtin _ | user .. | typedef .. => False

theorem TypeGraph.Interned.holds_of_node {g : TypeGraph} (hg : g.Interned) {id : TypeId}
    (h : g.node id ≠ .placeholder) : g.Holds id := by
  refine ⟨lt_size_of_node h, ?_⟩
  rintro rfl
  exact h (hg.node_initial (by decide))

theorem TypeGraph.intern_again {g g' : TypeGraph} {node : TypeNode} (hg : g'.Interned)
    (hgrow : (g.intern node).2.Grows g') (hnode : node ≠ .placeholder) :
    g'.intern node = ((g.intern node).1, g') := by
  have hn : g'.node (g.intern node).1 = node := by
    rw [hgrow.node_of_ne (by rwa [g.node_intern]), g.node_intern]
  apply hg.intern_eq_iff.2
  exact ⟨lt_size_of_node (by rwa [hn]), hn⟩

namespace TypeExpr

variable {g g' : TypeGraph} {lookup : String → Option TypeId} {type : TypeExpr} {id : TypeId}
  {name : String} {result : Except LinkFault (Option TypeId)}

section FirstUnresolved

theorem unresolved_iff :
    ((Builtin.ofName? name).isNone && (lookup name).isNone) = true ↔ ¬ Known lookup name := by
  simp [Known]

theorem firstUnresolved_eq_find? (lookup : String → Option TypeId) (type : TypeExpr) :
    type.firstUnresolved lookup =
      type.names.find? fun name => (Builtin.ofName? name).isNone && (lookup name).isNone := by
  induction type with
  | named name =>
    cases hb : Builtin.ofName? name <;> cases hl : lookup name <;>
      simp [firstUnresolved, names, hb, hl]
  | list element ih | set element ih => simpa only [firstUnresolved, names] using ih
  | map key value ihk ihv =>
    simp only [firstUnresolved, names, List.find?_append, ihk, ihv, Option.orElse_eq_orElse,
      Option.orElse_eq_or]

theorem firstUnresolved_eq_some_iff : type.firstUnresolved lookup = some name ↔
    ∃ before after, type.names = before ++ name :: after ∧ ¬ Known lookup name ∧
      ∀ earlier ∈ before, Known lookup earlier := by
  rw [firstUnresolved_eq_find?]
  simp only [List.find?_eq_some_iff_append, Bool.not_eq_true', ← Bool.not_eq_true, unresolved_iff,
    not_not]
  constructor
  · rintro ⟨hn, before, after, he, hall⟩
    exact ⟨before, after, he, hn, hall⟩
  · rintro ⟨before, after, he, hn, hall⟩
    exact ⟨hn, before, after, he, hall⟩

theorem mem_of_firstUnresolved (h : type.firstUnresolved lookup = some name) :
    name ∈ type.names ∧ ¬ Known lookup name := by
  obtain ⟨before, after, he, hn, -⟩ := firstUnresolved_eq_some_iff.1 h
  refine ⟨?_, hn⟩
  rw [he]
  simp

theorem firstUnresolved_isSome : (∃ name, type.firstUnresolved lookup = some name) ↔
    ∃ name ∈ type.names, ¬ Known lookup name := by
  rw [← Option.isSome_iff_exists, firstUnresolved_eq_find?, List.find?_isSome]
  simp only [unresolved_iff]

end FirstUnresolved

namespace Outcome

theorem unknown_iff (h : Outcome g lookup type result) (hv : "void" ∉ type.names) :
    result = .ok none ↔ ∃ name, type.firstUnresolved lookup = some name := by
  rw [firstUnresolved_isSome]
  cases h with
  | void hv' => exact absurd hv' hv
  | unknown _ hm hn => simpa using ⟨_, hm, hn⟩
  | known h =>
    simp only [reduceCtorEq, Except.ok.injEq, false_iff]
    rintro ⟨name, hm, hn⟩
    exact hn (h.known hm)

theorem known_of_firstUnresolved (h : Outcome g lookup type result) (hv : "void" ∉ type.names)
    (hnone : type.firstUnresolved lookup = none) :
    ∃ id, result = .ok (some id) ∧ type.Denotes g lookup id := by
  cases h with
  | void hv' => exact absurd hv' hv
  | unknown _ hm hn =>
    obtain ⟨name, hname⟩ := firstUnresolved_isSome.2 ⟨_, hm, hn⟩
    rw [hnone] at hname
    cases hname
  | @known id hd => exact ⟨id, rfl, hd⟩

end Outcome

theorem Denotes.holds (h : type.Denotes g lookup id) (hg : g.Interned)
    (hl : ∀ name id, lookup name = some id → g.Holds id) : g.Holds id := by
  cases h with
  | symbol hb hs => exact hl _ _ hs
  | builtin hb hv => exact hg.holds_of_node (by simp [hg.node_builtin])
  | list he hn | set he hn | map hk hv hn => exact hg.holds_of_node (by simp [hn])

namespace Adds

theorem containers (h : Adds lookup g g') :
    ∃ added, g'.entries = g.entries ++ added ∧ ∀ entry ∈ added, entry.node.IsContainer := by
  apply h.keeps ⟨[], by simp⟩
  rintro g₁ node ⟨added, he, hall⟩ hnode
  have hcontainer : node.IsContainer := by cases hnode <;> trivial
  rcases g₁.intern_cases node with ⟨i, -, -, hi⟩ | ⟨-, hi⟩
  · rw [hi]
    exact ⟨added, he, hall⟩
  · refine ⟨added ++ [⟨node, g₁.nameOf node⟩], ?_, ?_⟩
    · rw [hi, he, List.append_assoc]
    · simpa [or_imp, forall_and] using ⟨hall, hcontainer⟩

theorem interned (h : Adds lookup g g') (hg : g.Interned)
    (hl : ∀ name id, lookup name = some id → g.Holds id) : g'.Interned := by
  have hall : g.Grows g' ∧ g'.Interned := by
    apply h.keeps (I := fun g' => g.Grows g' ∧ g'.Interned) ⟨.refl g, hg⟩
    rintro g₁ node ⟨hgrow, hg₁⟩ hnode
    have hl₁ : ∀ name id, lookup name = some id → g₁.Holds id := fun name id hs =>
      ⟨Nat.lt_of_lt_of_le (hl name id hs).1 hgrow.size_le, (hl name id hs).2⟩
    refine ⟨hgrow.trans (g₁.grows_intern node), hg₁.call ⟨node, ?_, rfl⟩⟩
    cases hnode with
    | list h => exact .list (h.holds hg₁ hl₁)
    | set h => exact .set (h.holds hg₁ hl₁)
    | map hk hv => exact .map (hk.holds hg₁ hl₁) (hv.holds hg₁ hl₁)
  exact hall.2

end Adds

theorem wrapped_grows (wrap : TypeId → TypeNode)
    (result : Except LinkFault (Option TypeId) × TypeGraph) :
    result.2.Grows (wrapped wrap result).2 := by
  rcases result with ⟨_ | _ | i, g₁⟩
  · exact .refl g₁
  · exact .refl g₁
  · exact g₁.grows_intern (wrap i)

theorem wrapped_again {wrap : TypeId → TypeNode}
    {result : Except LinkFault (Option TypeId) × TypeGraph} (hwrap : ∀ i, wrap i ≠ .placeholder)
    (hg : g'.Interned) (hgrow : (wrapped wrap result).2.Grows g') :
    wrapped wrap (result.1, g') = ((wrapped wrap result).1, g') := by
  rcases result with ⟨_ | _ | i, g₁⟩
  · rfl
  · rfl
  · simp [wrapped, TypeGraph.intern_again hg hgrow (hwrap i)]

/-- What was interned for a type the first time is found the second time, also if it came to
nothing. -/
theorem exec_resolve_again (type : TypeExpr) (hg : g'.Interned)
    (hgrow : (exec (type.resolve lookup) g).2.Grows g') :
    exec (type.resolve lookup) g' = ((exec (type.resolve lookup) g).1, g') := by
  induction type generalizing g with
  | named name =>
    rw [exec_resolve_named, exec_resolve_named]
    split <;> rfl
  | list element ih =>
    rw [exec_resolve_list] at hgrow
    rw [exec_resolve_list, exec_resolve_list, ih ((wrapped_grows _ _).trans hgrow)]
    exact wrapped_again (by simp) hg hgrow
  | set element ih =>
    rw [exec_resolve_set] at hgrow
    rw [exec_resolve_set, exec_resolve_set, ih ((wrapped_grows _ _).trans hgrow)]
    exact wrapped_again (by simp) hg hgrow
  | map key value ihk ihv =>
    have hkey := ihk (g := g)
    rw [exec_resolve_map] at hgrow
    rw [exec_resolve_map, exec_resolve_map]
    rcases hk : exec (key.resolve lookup) g with ⟨fault | k, g₁⟩
    · rw [hk] at hgrow hkey
      rw [hkey hgrow]
    · have hvalue := ihv (g := g₁)
      have hadds : Adds lookup g₁ _ := (value.resolve_adds g₁).1
      have hgrow₁ := hadds.grows
      rw [hk] at hgrow hkey
      dsimp only at hgrow hkey ⊢
      rcases hv : exec (value.resolve lookup) g₁ with ⟨fault | v, g₂⟩
      · rw [hv] at hgrow hvalue hgrow₁
        rw [hkey (hgrow₁.trans hgrow)]
        simp [hvalue hgrow]
      · rw [hv] at hgrow hvalue hgrow₁
        have hgrow₂ : g₂.Grows g' := by
          rcases k with _ | i <;> rcases v with _ | j
          · exact hgrow
          · exact hgrow
          · exact hgrow
          · exact (g₂.grows_intern _).trans hgrow
        rw [hkey (hgrow₁.trans hgrow₂)]
        dsimp only
        rw [hvalue hgrow₂]
        rcases k with _ | i <;> rcases v with _ | j
        · rfl
        · rfl
        · rfl
        · simp [TypeGraph.intern_again hg hgrow]

end TypeExpr

/-- Every symbol stands for a type that the graph holds. -/
def LinkState.SymbolsHeld (st : LinkState) : Prop :=
  ∀ (i : ProgramId) (p : Program), st.programs[i]? = some p →
    ∀ name id, p.typeSymbol name = some id → st.types.Holds id

namespace Linking

open TypeExpr (Adds Known Outcome)

variable {st : LinkState}

theorem lookup_holds (hs : st.SymbolsHeld) (program : ProgramId) (name : String) (id : TypeId)
    (h : st.lookupType program name = some id) : st.types.Holds id := by
  obtain ⟨i, q, name', hq, hsymbol⟩ := lookupType_eq_some h
  exact hs i q hq name' id hsymbol

/-- Resolving a type agrees with the search for its first unknown name. For whatever it comes to
it adds containers only, and to resolve the type once more comes to the same and adds nothing. -/
theorem resolve_agrees (h : st.types.Interned) (hs : st.SymbolsHeld) (program : ProgramId)
    (location : Location) (type : TypeExpr) :
    let lookup := st.lookupType program
    ∃ result types, exec (resolve program location type) st = (result, { st with types }) ∧
      (∀ e, result = .error e ↔
        "void" ∈ type.names ∧ e = .unlinkable location .misplacedVoid) ∧
      ("void" ∉ type.names →
        (result = .ok none ↔ ∃ name, type.firstUnresolved lookup = some name)) ∧
      (∀ name, type.firstUnresolved lookup = some name ↔
        ∃ before after, type.names = before ++ name :: after ∧ ¬ Known lookup name ∧
          ∀ earlier ∈ before, Known lookup earlier) ∧
      ("void" ∉ type.names → type.firstUnresolved lookup = none →
        ∃ id, result = .ok (some id) ∧ types.Holds id ∧
          type.tree? (fun name => (lookup name).map types.tree) = some (types.tree id)) ∧
      (∃ added, types.entries = st.types.entries ++ added ∧
        ∀ entry ∈ added, entry.node.IsContainer) ∧
      (∀ id < st.types.size, types.node id = st.types.node id ∧ types.name id = st.types.name id) ∧
      exec (resolve program location type) { st with types } = (result, { st with types }) := by
  intro lookup
  have hl := lookup_holds hs program
  obtain ⟨hadds, hout⟩ : Adds lookup st.types _ ∧ Outcome _ lookup type _ :=
    type.resolve_adds st.types
  have hg := hadds.interned h hl
  have hagain := type.exec_resolve_again hg (.refl _)
  have he := exec_resolve program location type st
  generalize exec (type.resolve lookup) st.types = out at hadds hout hg hagain he
  obtain ⟨result, types⟩ := out
  dsimp only at hadds hout hg hagain he
  have hgrow := hadds.grows
  refine ⟨_, types, he, fun e => ?_, fun hv => ?_, fun name => TypeExpr.firstUnresolved_eq_some_iff,
    fun hv hnone => ?_, hadds.containers, fun id hid => ⟨hgrow.node_eq hid, hgrow.name_eq hid⟩, ?_⟩
  · cases hout with
    | void hv => simp [Except.mapError, hv, eq_comm]
    | unknown hv hm hn => simp [Except.mapError, hv]
    | known hd => simp [Except.mapError, hd.void_not_mem]
  · rw [← hout.unknown_iff hv]
    cases result <;> simp [Except.mapError]
  · obtain ⟨id, rfl, hd⟩ := hout.known_of_firstUnresolved hv hnone
    refine ⟨id, rfl, hd.holds hg fun name id hs => ?_,
      hd.tree?_of_spelled hg.node_builtin hg.tree_eq⟩
    exact ⟨Nat.lt_of_lt_of_le (hl name id hs).1 hgrow.size_le, (hl name id hs).2⟩
  · have hsame : ({ st with types } : LinkState).lookupType program = lookup := rfl
    rw [exec_resolve, hsame, hagain]

def rowsOnly : LinkState :=
  (LinkState.ofPrograms [.ofDocument .here ⟨"rows.thrift", []⟩]).defineUser 0
    ("Row", .record .struct)

theorem rowsOnly_interned : rowsOnly.types.Interned :=
  .of_built (.tail .refl ⟨_, .user "Row" (.record .struct) 0, rfl⟩)

theorem rowsOnly_symbolsHeld : rowsOnly.SymbolsHeld := by
  intro i p hp name id hs
  obtain ⟨hi, rfl⟩ := List.getElem?_eq_some_iff.1 hp
  obtain rfl : i = 0 := Nat.lt_one_iff.1 hi
  change List.lookup name [("Row", 10)] = some id at hs
  rw [List.lookup_cons] at hs
  split at hs
  · obtain rfl := Option.some.inj hs
    exact ⟨by decide, by decide⟩
  · cases hs

/-- The list of rows stays behind, although the map cannot be resolved. -/
theorem rowsOnly_agrees : rowsOnly.types.Interned ∧ rowsOnly.SymbolsHeld ∧ ∃ types,
    let partly := { rowsOnly with types }
    let type := TypeExpr.map (.list (.named "Row")) (.named "Missing")
    let resolveIt := resolve 0 ⟨"rows.thrift", .start⟩ type
    type.firstUnresolved (rowsOnly.lookupType 0) = some "Missing" ∧
      exec resolveIt rowsOnly = (.ok none, partly) ∧ types.size = rowsOnly.types.size + 1 ∧
      exec resolveIt partly = (.ok none, partly) := by
  refine ⟨rowsOnly_interned, rowsOnly_symbolsHeld, ?_⟩
  obtain ⟨result, types, he, -, hunknown, -, -, -, -, hagain⟩ :=
    resolve_agrees rowsOnly_interned rowsOnly_symbolsHeld 0 ⟨"rows.thrift", .start⟩
      (.map (.list (.named "Row")) (.named "Missing"))
  obtain rfl : result = .ok none := (hunknown (by decide)).2 ⟨"Missing", by decide⟩
  have hsize : (exec (resolve 0 ⟨"rows.thrift", .start⟩
      (.map (.list (.named "Row")) (.named "Missing"))) rowsOnly).2.types.size = 12 := by decide
  rw [he] at hsize
  exact ⟨types, by decide, he, hsize, hagain⟩

end Linking

end ThriftIdl
