import ThriftIdl.Proofs.LinkedParts
import ThriftIdl.Proofs.LoadOrder

namespace ThriftIdl

open Linking (Linkable PartLinked TypesLinked Advances)

namespace SchemaPart

def typeIds (part : SchemaPart) : List TypeId :=
  part.enums.map (·.typeId) ++ part.typedefs.flatMap (fun t => [t.typeId, t.target]) ++
    part.records.flatMap (fun r => r.typeId :: r.fields.map (·.typeId)) ++
    part.services.flatMap fun s => s.methods.flatMap fun m => (m.params ++ m.throws).map (·.typeId)

def returnTypes (part : SchemaPart) : List TypeId :=
  part.services.flatMap fun s => s.methods.map (·.returnType)

end SchemaPart

def Schema.whole (s : Schema) : SchemaPart := ⟨s.enums, s.typedefs, s.records, s.services⟩

/-- Nothing that a type is made of is missing, or `void`. -/
def TypeGraph.Whole (g : TypeGraph) (id : TypeId) : Prop :=
  ∀ part, Relation.ReflTransGen g.MadeOf id part →
    part < g.size ∧ part ≠ 0 ∧ part ≠ Builtin.void.id ∧ g.Usable part

theorem Schema.mem_ofParts {types : TypeGraph} {parts : List SchemaPart} {id : TypeId} :
    (id ∈ (Schema.ofParts types parts).whole.typeIds → ∃ part ∈ parts, id ∈ part.typeIds) ∧
      (id ∈ (Schema.ofParts types parts).whole.returnTypes →
        ∃ part ∈ parts, id ∈ part.returnTypes) := by
  unfold SchemaPart.typeIds SchemaPart.returnTypes Schema.whole Schema.ofParts
  constructor
  · intro h
    simp only [List.mem_append, List.mem_map, List.mem_flatMap] at h ⊢
    rcases h with ((⟨e, ⟨part, hp, he⟩, rfl⟩ | ⟨t, ⟨part, hp, ht⟩, hid⟩) |
      ⟨r, ⟨part, hp, hr⟩, hid⟩) | ⟨s, ⟨part, hp, hs⟩, hid⟩
    · exact ⟨part, hp, .inl (.inl (.inl ⟨e, he, rfl⟩))⟩
    · exact ⟨part, hp, .inl (.inl (.inr ⟨t, ht, hid⟩))⟩
    · exact ⟨part, hp, .inl (.inr ⟨r, hr, hid⟩)⟩
    · exact ⟨part, hp, .inr ⟨s, hs, hid⟩⟩
  · intro h
    simp only [List.mem_flatMap] at h ⊢
    obtain ⟨s, ⟨part, hp, hs⟩, hid⟩ := h
    exact ⟨part, hp, s, hs, hid⟩

section Usable

variable {st : LinkState} {program : ProgramId} {p : Program} {part : SchemaPart} {id : TypeId}
  {own : List (String × TypeId)} {settled : List Linking.SettledTypedef}

theorem Linking.TypesLinked.declared_usable (h : TypesLinked program p own settled st)
    (hst : st.WellFormed) {name : String}
    (hm : name ∈ (Linking.userTypes p.document).map Prod.fst) :
    st.types.Usable ((st.lookupType program name).getD 0) := by
  have hown : (own.lookup name).isSome := h.own_isSome.2 hm
  have hsome : (st.lookupType program name).isSome := by
    rw [h.lookup]
    simp [Linking.lookupAfter, Linking.baseLookup, hown]
  obtain ⟨id, hid⟩ := Option.isSome_iff_exists.1 hsome
  rw [hid]
  exact hst.usable hid

theorem Linking.FieldLinked.usable {locate : Position → Location} {decl : FieldDecl} {field : Field}
    (h : Linking.FieldLinked st.types (st.lookupType program) locate decl field)
    (hst : st.WellFormed) : st.types.Usable field.typeId :=
  h.type.usable hst.types fun _ _ hs => hst.usable hs

theorem fields_usable {locate : Position → Location} {decls : List FieldDecl} {fields : List Field}
    (h : List.Forall₂ (Linking.FieldLinked st.types (st.lookupType program) locate) decls fields)
    (hst : st.WellFormed) {field : Field} (hm : field ∈ fields) :
    st.types.Usable field.typeId := by
  obtain ⟨decl, -, hf⟩ := forall₂_mem_right h hm
  exact hf.usable hst

theorem Linking.TypesLinked.typedef_usable (h : TypesLinked program p own settled st)
    (hst : st.WellFormed) {s : Linking.SettledTypedef} (hs : s ∈ settled) :
    st.types.Usable s.2.typeId ∧ st.types.Usable s.2.target := by
  have hn := h.sequence.node hs
  have hid : st.types.Usable s.2.typeId := by simp [TypeGraph.Usable, hn]
  refine ⟨hid, hst.types.usable _ hid.lt_size _ ?_⟩
  simp [TypeGraph.MadeOf, hn, TypeNode.children]

theorem user_name_mem {name : String} (h : (∃ decl ∈ p.document.enums, decl.name = name) ∨
    ∃ decl ∈ p.document.records, decl.name = name) :
    name ∈ (Linking.userTypes p.document).map Prod.fst := by
  unfold Linking.userTypes
  rw [List.map_append, List.mem_append, List.map_map, List.map_map]
  rcases h with ⟨decl, hm, rfl⟩ | ⟨decl, hm, rfl⟩
  · exact .inl (List.mem_map.2 ⟨decl, hm, rfl⟩)
  · exact .inr (List.mem_map.2 ⟨decl, hm, rfl⟩)

theorem Linking.PartLinked.typeId_usable (h : PartLinked program p part st) (hst : st.WellFormed)
    (hid : id ∈ part.typeIds) : st.types.Usable id := by
  obtain ⟨own, settled, ht, htypedefs⟩ := h.types
  simp only [SchemaPart.typeIds, List.mem_append, List.mem_map, List.mem_flatMap] at hid
  rcases hid with ((⟨e, he, rfl⟩ | ⟨t, htm, hid⟩) | ⟨r, hr, hid⟩) | ⟨s, hs, m, hm, f, hf, rfl⟩
  · obtain ⟨decl, hdecl, hl⟩ := forall₂_mem_right h.enums he
    rw [hl.typeId]
    exact ht.declared_usable hst (user_name_mem (.inl ⟨decl, hdecl, rfl⟩))
  · obtain ⟨decl, -, r, hs, rfl⟩ := forall₂_mem_right htypedefs htm
    obtain ⟨hown, htarget⟩ := ht.typedef_usable hst hs
    have hcase : id = r.typeId ∨ id = r.target := by
      simpa [Linking.linkTypedef] using hid
    rcases hcase with rfl | rfl
    · exact hown
    · exact htarget
  · obtain ⟨decl, hdecl, hl⟩ := forall₂_mem_right h.records hr
    rcases List.mem_cons.1 hid with rfl | hid
    · rw [hl.typeId]
      exact ht.declared_usable hst (user_name_mem (.inr ⟨decl, hdecl, rfl⟩))
    · obtain ⟨f, hf, rfl⟩ := List.mem_map.1 hid
      exact fields_usable hl.fields hst hf
  · obtain ⟨decl, -, hl⟩ := forall₂_mem_right h.services hs
    obtain ⟨function, -, hmethod⟩ := forall₂_mem_right hl.methods hm
    rcases hf with hf | hf
    · exact fields_usable hmethod.params hst hf
    · exact fields_usable hmethod.throws hst hf

theorem Linking.PartLinked.returnType_usable (h : PartLinked program p part st)
    (hst : st.WellFormed) (hid : id ∈ part.returnTypes) :
    id = Builtin.void.id ∨ st.types.Usable id := by
  simp only [SchemaPart.returnTypes, List.mem_flatMap, List.mem_map] at hid
  obtain ⟨s, hs, m, hm, rfl⟩ := hid
  obtain ⟨decl, -, hl⟩ := forall₂_mem_right h.services hs
  obtain ⟨function, -, hmethod⟩ := forall₂_mem_right hl.methods hm
  rcases hmethod.returns with ⟨-, hvoid⟩ | ⟨-, hdenotes⟩
  · exact .inl hvoid
  · exact .inr (hdenotes.usable hst.types fun _ _ hs => hst.usable hs)

end Usable

section Load

variable {space : SearchSpace} {roots : List String} {loaded : LoadedPrograms} {schema : Schema}

theorem LinkOrder.Ordered.pairwise {programs : List Program} {order : List ProgramId}
    (h : Ordered programs order) : order.Pairwise fun i j => ¬ Includes programs i j := by
  induction h with
  | nil => exact List.Pairwise.nil
  | @snoc done id earlier valid new after ih =>
    rw [List.pairwise_append]
    refine ⟨ih, List.pairwise_singleton _ _, ?_⟩
    rintro i hi j hj hij
    obtain rfl := List.mem_singleton.1 hj
    exact new (earlier.closed hi (.single hij))

theorem Loaded.linkable (h : Loaded space roots loaded) :
    Linkable loaded.programs loaded.order := by
  obtain ⟨ids, hd⟩ := h.discovered
  refine ⟨h.ordered.nodup, ?_, ?_⟩
  · intro i hi
    have hlt : i < loaded.programs.length := h.ordered.lt_length hi
    refine ⟨loaded.programs[i], List.getElem?_eq_getElem hlt, ?_, ?_⟩
    · exact (hd.registered.fresh _ (List.getElem_mem hlt)).1
    · intro inc hinc he
      have hself : Includes loaded.programs i i :=
        ⟨_, List.getElem?_eq_getElem hlt, inc, hinc, he⟩
      exact h.ordered.acyclic hi (.single hself)
  · refine h.ordered.pairwise.imp fun {i j} hno p hp inc hinc he => ?_
    exact hno ⟨p, hp, inc, hinc, he⟩

theorem Loaded.wellFormed (h : Loaded space roots loaded) :
    (LinkState.ofPrograms loaded.programs).WellFormed := by
  obtain ⟨ids, hd⟩ := h.discovered
  exact LinkState.wellFormed_ofPrograms fun p hp => (hd.registered.fresh p hp).1

structure LoadLinked (space : SearchSpace) (roots : List String) (loaded : LoadedPrograms)
    (parts : List SchemaPart) (final : LinkState) : Prop where
  found : Loaded space roots loaded
  ran : exec (Linking.linkParts 0 loaded.order) (.ofPrograms loaded.programs) = (.ok parts, final)
  advances : Advances (.ofPrograms loaded.programs) loaded.order final
  linked : List.Forall₂ (fun program part => ∀ p, loaded.programs[program]? = some p →
    PartLinked program p part final) loaded.order parts

theorem loadLinked_of_ran {parts : List SchemaPart} {final : LinkState}
    (h : Loaded space roots loaded)
    (hrun : exec (Linking.linkParts 0 loaded.order) (.ofPrograms loaded.programs) =
      (.ok parts, final)) : LoadLinked space roots loaded parts final := by
  obtain ⟨hadvances, hlinked, -⟩ :=
    Linking.linkParts_ok h.linkable h.wellFormed (fun _ _ => rfl) hrun
  exact ⟨h, hrun, hadvances, hlinked⟩

theorem load_linked (h : load space roots = .ok schema) : ∃ loaded parts final,
    loadPrograms space roots = .ok loaded ∧ LoadLinked space roots loaded parts final ∧
      schema = .ofParts final.types parts := by
  unfold load at h
  cases hl : loadPrograms space roots with
  | error e =>
    rw [hl] at h
    cases h
  | ok loaded =>
    rw [hl] at h
    change (exec (Linking.linkAll loaded.order) (.ofPrograms loaded.programs)).1 = .ok schema at h
    generalize hr : exec (Linking.linkAll loaded.order) (.ofPrograms loaded.programs) = result at h
    obtain ⟨outcome, st⟩ := result
    obtain rfl : outcome = .ok schema := h
    obtain ⟨parts, final, hrun, hrest⟩ := exec_bind_ok_iff.1 hr
    rw [exec_bind_of_ok (exec_get final)] at hrest
    obtain ⟨rfl, -⟩ := exec_pure_ok_iff.1 hrest
    exact ⟨loaded, parts, final, rfl, loadLinked_of_ran (loadPrograms_loaded hl) hrun, rfl⟩

theorem LoadLinked.exists_linked {parts : List SchemaPart} {final : LinkState}
    (h : LoadLinked space roots loaded parts final) {part : SchemaPart} (hm : part ∈ parts) :
    ∃ program p, PartLinked program p part final := by
  obtain ⟨program, hprogram, hl⟩ := forall₂_mem_right h.linked hm
  have hlt := h.found.ordered.lt_length hprogram
  exact ⟨program, _, hl _ (List.getElem?_eq_getElem hlt)⟩

theorem TypeGraph.WellFormed.whole {g : TypeGraph} (hg : g.WellFormed) {id : TypeId}
    (hid : g.Usable id) : g.Whole id := by
  intro part hreach
  have hu := hg.usable_of_reaches hid hreach
  obtain ⟨hlt, hne, hvoid⟩ := hg.usable_iff.1 hu
  exact ⟨hlt, hne, hvoid, hu⟩

theorem TypeGraph.WellFormed.spelled {g : TypeGraph} (hg : g.WellFormed) {id : TypeId}
    (hid : g.Usable id) : (g.tree id).Complete ∧ (g.tree (g.trueType id)).Complete := by
  have htrue := hg.usable_of_reaches hid (g.reaches_trueType id)
  exact ⟨hg.tree_complete hid.1, hg.tree_complete htrue.1⟩

theorem TypeGraph.WellFormed.void_spelled {g : TypeGraph} (hg : g.WellFormed) :
    (g.tree Builtin.void.id).Complete ∧ (g.tree (g.trueType Builtin.void.id)).Complete := by
  have hn := hg.node_builtin .void
  have htrue : g.trueType Builtin.void.id = Builtin.void.id := by
    rw [TypeGraph.trueType, hn]
  rw [htrue, hg.tree_of_node hn]
  exact ⟨trivial, trivial⟩

/-- In a schema nothing is missing from a type, and `void` stands only where a function returns
nothing, so that every type can be written out. -/
theorem load_types_whole (h : load space roots = .ok schema) :
    (∀ id ∈ schema.whole.typeIds, schema.types.Whole id) ∧
    (∀ id ∈ schema.whole.returnTypes,
      id = Builtin.void.id ∧ schema.types.node id = .builtin .void ∨ schema.types.Whole id) ∧
    ∀ id ∈ schema.whole.typeIds ++ schema.whole.returnTypes,
      (schema.types.tree id).Complete ∧
        (schema.types.tree (schema.types.trueType id)).Complete := by
  obtain ⟨loaded, parts, final, -, hlinked, rfl⟩ := load_linked h
  have hst := hlinked.advances.wellFormed
  have hg : final.types.WellFormed := hst.types
  have htypes : ∀ id ∈ (Schema.ofParts final.types parts).whole.typeIds, final.types.Usable id := by
    intro id hid
    obtain ⟨part, hm, hid⟩ := Schema.mem_ofParts.1 hid
    obtain ⟨program, p, hp⟩ := hlinked.exists_linked hm
    exact hp.typeId_usable hst hid
  have hreturns : ∀ id ∈ (Schema.ofParts final.types parts).whole.returnTypes,
      id = Builtin.void.id ∨ final.types.Usable id := by
    intro id hid
    obtain ⟨part, hm, hid⟩ := Schema.mem_ofParts.2 hid
    obtain ⟨program, p, hp⟩ := hlinked.exists_linked hm
    exact hp.returnType_usable hst hid
  refine ⟨?_, ?_, ?_⟩
  · intro id hid
    exact hg.whole (htypes id hid)
  · intro id hid
    rcases hreturns id hid with rfl | hu
    · exact .inl ⟨rfl, hg.node_builtin .void⟩
    · exact .inr (hg.whole hu)
  · intro id hid
    rcases List.mem_append.1 hid with hid | hid
    · exact hg.spelled (htypes id hid)
    · rcases hreturns id hid with rfl | hu
      · exact hg.void_spelled
      · exact hg.spelled hu

end Load

def rows : SearchSpace :=
  ⟨⟨[(⟨true, ["rows.thrift"]⟩, "typedef list<i32> Row struct Table { 1: Row head }")], []⟩, []⟩

theorem rows_whole : ∃ schema, load rows ["/rows.thrift"] = .ok schema ∧
    schema.whole.typeIds = [12, 11, 10, 12] ∧
      ∀ id ∈ schema.whole.typeIds, schema.types.Whole id := by
  have hids : (load rows ["/rows.thrift"]).map (fun schema => schema.whole.typeIds) =
      .ok [12, 11, 10, 12] := by cbv
  cases h : load rows ["/rows.thrift"] with
  | error e =>
    rw [h] at hids
    cases hids
  | ok schema =>
    rw [h] at hids
    exact ⟨schema, rfl, Except.ok.inj hids, (load_types_whole h).1⟩

end ThriftIdl
