import ThriftIdl.Proofs.LinkedGraphs
import ThriftIdl.Proofs.ReadableDocuments
import ThriftIdl.Proofs.SchemaContents
import ThriftIdl.Proofs.TypeNames

namespace ThriftIdl

open Linking (PartLinked userTypes)

namespace Schema

/-- The declared types of a schema, each with its name. -/
def declarations (s : Schema) : List (String × TypeId) :=
  s.enums.map (fun e => (e.name, e.typeId)) ++ s.typedefs.map (fun t => (t.name, t.typeId)) ++
    s.structs.map (fun r => (r.name, r.typeId)) ++ s.unions.map (fun r => (r.name, r.typeId)) ++
    s.exceptions.map (fun r => (r.name, r.typeId))

def declaredNames (s : Schema) : List String :=
  s.enums.map (·.name) ++ s.typedefs.map (·.name) ++ s.structs.map (·.name) ++
    s.unions.map (·.name) ++ s.exceptions.map (·.name)

theorem declarations_names (s : Schema) : s.declarations.map Prod.fst = s.declaredNames := by
  simp [declarations, declaredNames, Function.comp_def]

end Schema

section Words

variable {d : Document} {name : String}

theorem Reader.IsIdentifier.unbracketed (h : Reader.IsIdentifier false name) :
    Unbracketed name.toList := by
  intro c hc
  have hchar := h.chars c hc
  refine ⟨?_, ?_, ?_⟩ <;> rintro rfl <;> revert hchar <;> decide

theorem Document.isIdentifier_of_name (h : ∀ decl ∈ d.declarations, decl.Readable)
    (hm : name ∈ d.declarations.filterMap Declaration.name?) : Reader.IsIdentifier false name := by
  obtain ⟨decl, hdecl, hname⟩ := List.mem_filterMap.1 hm
  have hr := h decl hdecl
  cases decl with
  | scoping decl | inclusion decl => cases hname
  | typedef decl | enum decl | record decl | service decl =>
    obtain rfl := Option.some.inj hname
    exact hr.name

theorem Linking.declared_name_mem (hm : name ∈ d.typedefs.map (·.name) ∨
    name ∈ (userTypes d).map Prod.fst) : name ∈ d.declarations.filterMap Declaration.name? := by
  rw [← Linking.definitions_names, (Linking.definitions_perm d).mem_iff, List.mem_append,
    List.mem_append]
  exact hm.imp_right .inl

theorem Linking.declared_not_builtin
    (hn : Linking.nameFault? [] (Linking.definitions d) = none)
    (hm : name ∈ d.declarations.filterMap Declaration.name?) : Builtin.ofName? name = none := by
  rw [← Linking.definitions_names] at hm
  obtain ⟨definition, hdef, rfl⟩ := List.mem_map.1 hm
  exact ((Linking.nameFault?_eq_none_iff.1 hn).1 definition hdef).1

end Words

section Part

variable {st : LinkState} {program : ProgramId} {p : Program} {part : SchemaPart} {name : String}
  {id : TypeId} {own : List (String × TypeId)} {settled : List Linking.SettledTypedef}

theorem Linking.TypesLinked.typeSymbol (h : Linking.TypesLinked program p own settled st)
    (hm : (name, id) ∈ Linking.symbolsOf settled ++ own) :
    st.lookupType program name = some id := by
  obtain ⟨q, hq, -, hscope⟩ := h.present
  have htypes : q.types = Linking.symbolsOf settled ++ own := congrArg (·.2.2) hscope
  have hkeys : ((Linking.symbolsOf settled ++ own).map Prod.fst).Nodup := by
    rw [List.map_append, List.nodup_append]
    have hsettled : (Linking.symbolsOf settled).map Prod.fst = (settled.map (·.1.name)) := by
      simp [Linking.symbolsOf, Function.comp_def]
    refine ⟨?_, ?_, ?_⟩
    · rw [hsettled]
      exact List.nodup_reverse.1 h.sequence.nodup
    · rw [h.names, List.nodup_reverse]
      exact (List.nodup_append.1 (List.nodup_append.1 (Linking.declared_nodup h.wellNamed)).2.1).1
    · rw [hsettled, h.names]
      rintro a ha b hb rfl
      obtain ⟨s, hs, rfl⟩ := List.mem_map.1 ha
      exact Linking.typedef_not_user h.wellNamed (h.declared s hs) (List.mem_reverse.1 hb)
  unfold LinkState.lookupType
  rw [lookupType_eq hq]
  unfold Program.typeSymbol
  rw [htypes, (lookup_eq_some_iff_mem hkeys).2 hm, Option.some_or]

/-- The types with symbols in a program are those of its declarations. -/
theorem Linking.PartLinked.symbol_cases (h : PartLinked program p part st)
    (hq : ∃ q, st.programs[program]? = some q ∧ (name, id) ∈ q.types) :
    name ∈ p.document.declarations.filterMap Declaration.name? ∧
      ((∃ e ∈ part.enums, e.name = name ∧ e.typeId = id) ∨
        (∃ t ∈ part.typedefs, t.name = name ∧ t.typeId = id) ∨
          ∃ r ∈ part.records, r.name = name ∧ r.typeId = id) := by
  obtain ⟨own, settled, ht, htypedefs⟩ := h.types
  obtain ⟨q, hq, hm⟩ := hq
  obtain ⟨q', hq', -, hscope⟩ := ht.present
  obtain rfl : q = q' := Option.some.inj (hq.symm.trans hq')
  rw [show q.types = Linking.symbolsOf settled ++ own from congrArg (·.2.2) hscope] at hm
  have hlookup := ht.typeSymbol hm
  rcases List.mem_append.1 hm with hm | hm
  · obtain ⟨⟨decl, r⟩, hs, he⟩ := List.mem_map.1 hm
    obtain ⟨rfl, rfl⟩ := Prod.mk.inj he
    have hdecl := ht.declared _ hs
    refine ⟨Linking.declared_name_mem (.inl (List.mem_map_of_mem hdecl)), .inr (.inl ?_)⟩
    obtain ⟨t, htm, r', hs', rfl⟩ := forall₂_mem_left htypedefs hdecl
    have hsame : (decl, r) = (decl, r') :=
      List.inj_on_of_nodup_map (List.nodup_reverse.1 ht.sequence.nodup) hs hs' rfl
    obtain rfl := (Prod.mk.inj hsame).2
    exact ⟨_, (List.of_mem_zip htm).2, rfl, rfl⟩
  · have hname : name ∈ (userTypes p.document).map Prod.fst := by
      rw [← List.mem_reverse, ← ht.names]
      exact List.mem_map_of_mem hm
    refine ⟨Linking.declared_name_mem (.inr hname), ?_⟩
    unfold userTypes at hname
    rw [List.map_append, List.mem_append, List.map_map, List.map_map] at hname
    rcases hname with hname | hname
    · obtain ⟨decl, hdecl, rfl⟩ := List.mem_map.1 hname
      obtain ⟨e, he, hl⟩ := forall₂_mem_left h.enums hdecl
      refine .inl ⟨e, (List.of_mem_zip he).2, congrArg EnumType.name hl.copied, ?_⟩
      rw [hl.typeId]
      exact congrArg (·.getD 0) hlookup
    · obtain ⟨decl, hdecl, rfl⟩ := List.mem_map.1 hname
      obtain ⟨r, hr, hl⟩ := forall₂_mem_left h.records hdecl
      refine .inr (.inr ⟨r, (List.of_mem_zip hr).2, congrArg Record.name hl.copied, ?_⟩)
      rw [hl.typeId]
      exact congrArg (·.getD 0) hlookup

end Part

section Load

variable {space : SearchSpace} {roots : List String} {loaded : LoadedPrograms}
  {parts : List SchemaPart} {final : LinkState} {schema : Schema} {program : ProgramId}
  {name : String} {id a b : TypeId}

theorem LinkState.consistent_ofPrograms (h : Loaded space roots loaded) :
    (LinkState.ofPrograms loaded.programs).Consistent loaded.programs.length where
  wellFormed := h.wellFormed
  built := .refl
  symbols _ _ _ hd := absurd hd TypeGraph.not_declares_initial
  count := rfl

/-- Linking programs one after another, in the order of their includes, keeps a state consistent. -/
theorem Loaded.consistent_linked {order : List ProgramId} (h : Loaded space roots loaded)
    (hp : order <+: loaded.order)
    (hrun : exec (Linking.linkParts 0 order) (.ofPrograms loaded.programs) = (.ok parts, final)) :
    final.Consistent loaded.programs.length := by
  have hvalid : ∀ i ∈ order, i < loaded.programs.length :=
    fun i hi => h.ordered.lt_length (hp.subset hi)
  exact (Linking.linkParts_preserves 0 hvalid).of_ok hrun (LinkState.consistent_ofPrograms h)

theorem LoadLinked.consistent (h : LoadLinked space roots loaded parts final) :
    final.Consistent loaded.programs.length :=
  h.found.consistent_linked (List.prefix_refl _) h.ran

theorem Loaded.readable (h : Loaded space roots loaded) {p : Program} (hp : p ∈ loaded.programs) :
    ∀ decl ∈ p.document.declarations, decl.Readable := by
  obtain ⟨ids, hd⟩ := h.discovered
  obtain ⟨text, -, hparse⟩ := hd.registered.parsed p hp
  exact (Document.readable_of_parse hparse).2

theorem mem_declarations {record : Record} (hm : record ∈ schema.records) :
    (record.name, record.typeId) ∈ schema.declarations := by
  have hkind : record ∈ schema.recordsOf record.kind := by
    unfold Schema.recordsOf
    rw [List.mem_filter]
    exact ⟨hm, by simp⟩
  unfold Schema.declarations Schema.structs Schema.unions Schema.exceptions
  simp only [List.mem_append, List.mem_map]
  cases hk : record.kind with
  | struct => exact .inl (.inl (.inr ⟨record, hk ▸ hkind, rfl⟩))
  | union => exact .inl (.inr ⟨record, hk ▸ hkind, rfl⟩)
  | exception => exact .inr ⟨record, hk ▸ hkind, rfl⟩

/-- A declared type of the graph is that of a declaration, which names it. -/
theorem LoadLinked.declared (h : LoadLinked space roots loaded parts final)
    (hd : final.types.Declares id name program) : Reader.IsIdentifier false name ∧
      Builtin.ofName? name = none ∧
      (name, id) ∈ (Schema.ofParts final.types parts).declarations := by
  obtain ⟨q, hq, hm⟩ := h.consistent.symbols id name program hd
  have hlt : program < loaded.programs.length := by
    rw [← h.consistent.count]
    exact (List.getElem?_eq_some_iff.1 hq).1
  have hp := List.getElem?_eq_getElem hlt
  obtain ⟨part, hpart, hl⟩ := forall₂_mem_left h.linked (h.found.complete program hlt)
  have hlinked := hl _ hp
  have hpm := (List.of_mem_zip hpart).2
  obtain ⟨hname, hcases⟩ := hlinked.symbol_cases ⟨q, hq, hm⟩
  obtain ⟨own, settled, ht, -⟩ := hlinked.types
  refine ⟨Document.isIdentifier_of_name (h.found.readable (List.getElem_mem hlt)) hname,
    Linking.declared_not_builtin ht.wellNamed hname, ?_⟩
  rcases hcases with ⟨e, he, rfl, rfl⟩ | ⟨t, htm, rfl, rfl⟩ | ⟨r, hr, rfl, rfl⟩
  · have hem : e ∈ (Schema.ofParts final.types parts).enums := List.mem_flatMap.2 ⟨part, hpm, he⟩
    unfold Schema.declarations
    simp only [List.mem_append, List.mem_map]
    exact .inl (.inl (.inl (.inl ⟨e, hem, rfl⟩)))
  · have htm' : t ∈ (Schema.ofParts final.types parts).typedefs :=
      List.mem_flatMap.2 ⟨part, hpm, htm⟩
    unfold Schema.declarations
    simp only [List.mem_append, List.mem_map]
    exact .inl (.inl (.inl (.inr ⟨t, htm', rfl⟩)))
  · exact mem_declarations (List.mem_flatMap.2 ⟨part, hpm, hr⟩)

theorem LoadLinked.namesApart (h : LoadLinked space roots loaded parts final)
    (hnd : (Schema.ofParts final.types parts).declaredNames.Nodup) :
    final.types.NamesApart := by
  rw [← Schema.declarations_names] at hnd
  constructor
  · intro id name program hd
    obtain ⟨hword, hbuiltin, -⟩ := h.declared hd
    exact ⟨hword.unbracketed, hbuiltin⟩
  · intro i j name program program' hi hj
    have hi' := (lookup_eq_some_iff_mem hnd).2 (h.declared hi).2.2
    have hj' := (lookup_eq_some_iff_mem hnd).2 (h.declared hj).2.2
    exact Option.some.inj (hi'.symm.trans hj')

/-- In a schema whose declared types have different names, the name of a type stands for it alone,
and so does its JSON form. -/
theorem load_types_named (h : load space roots = .ok schema) (hnd : schema.declaredNames.Nodup)
    (ha : schema.types.isPlaceholder a = false) (hb : schema.types.isPlaceholder b = false) :
    (a = b ↔ schema.types.name a = schema.types.name b) ∧
      (a = b ↔ schema.types.typeJson a = schema.types.typeJson b) := by
  obtain ⟨loaded, parts, final, -, hlinked, rfl⟩ := load_linked h
  have hg : final.types.Interned := .of_built hlinked.consistent.built
  have hapart := hlinked.namesApart hnd
  have hknown {id : TypeId} (hid : final.types.isPlaceholder id = false) :
      final.types.node id ≠ .placeholder := by
    intro hn
    simp [TypeGraph.isPlaceholder, hn] at hid
  constructor
  · constructor
    · rintro rfl
      rfl
    · exact hg.name_injective hapart (hknown ha) (hknown hb)
  · constructor
    · rintro rfl
      rfl
    · exact hg.json_injective hapart (hknown ha) (hknown hb)

end Load

def shelves : SearchSpace :=
  ⟨⟨[(⟨true, ["shelves.thrift"]⟩, "typedef map<string, list<i32>> Row " ++
      "struct Table \x7b 1: map<Row, Row> head \x7d")], []⟩, []⟩

theorem shelves_named : ∃ schema, load shelves ["/shelves.thrift"] = .ok schema ∧
    schema.types.name 14 = "map<Row, Row>" ∧ schema.types.name 12 = "map<string, list<i32>>" ∧
    ((14 : TypeId) = 12 ↔ schema.types.name 14 = schema.types.name 12) ∧
    ((14 : TypeId) = 12 ↔ schema.types.typeJson 14 = schema.types.typeJson 12) := by
  have hfacts : (load shelves ["/shelves.thrift"]).map (fun schema =>
      (schema.declaredNames, schema.types.isPlaceholder 14, schema.types.isPlaceholder 12,
        schema.types.name 14, schema.types.name 12)) =
      .ok (["Row", "Table"], false, false, "map<Row, Row>", "map<string, list<i32>>") := by cbv
  cases h : load shelves ["/shelves.thrift"] with
  | error e =>
    rw [h] at hfacts
    cases hfacts
  | ok schema =>
    rw [h] at hfacts
    simp only [Except.map, Except.ok.injEq, Prod.mk.injEq] at hfacts
    obtain ⟨hnames, hmap, hrow, hname, hname'⟩ := hfacts
    have hnd : schema.declaredNames.Nodup := by
      rw [hnames]
      decide
    exact ⟨schema, rfl, hname, hname', load_types_named h hnd hmap hrow⟩

end ThriftIdl
