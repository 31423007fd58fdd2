import ThriftIdl.Proofs.CanonicalNames
import ThriftIdl.Proofs.DeclaredPositions
import ThriftIdl.Proofs.TypeForms

namespace ThriftIdl

open Linking (PartLinked)

section Numbers

variable {n n' : Numbering} {written : Option Int} {number value : Int}

theorem Numbering.give_ok (h : n.give number = .ok (value, n')) :
    value = number ∧ number ≤ Numeral.maxInt32 ∧ n.next ≤ n'.next := by
  unfold give at h
  split at h
  · cases h
  · next hmax =>
    split at h
    · cases h
    · simp only [Except.ok.injEq, Prod.mk.injEq] at h
      obtain ⟨rfl, rfl⟩ := h
      exact ⟨rfl, Int.not_lt.1 hmax, Int.le_max_left _ _⟩

theorem EnumMemberDecl.Readable.fits {m : EnumMemberDecl} (h : m.Readable n n')
    (hn : 0 ≤ n.next) : 0 ≤ n'.next ∧ Numeral.fitsInt32 m.value = true := by
  obtain ⟨hvalue, hmax, hnext⟩ := Numbering.give_ok h.assigned
  refine ⟨Int.le_trans hn hnext, ?_⟩
  rw [hvalue]
  cases hw : m.written with
  | some value => exact h.written value hw
  | none =>
    rw [hw] at hmax
    simp only [Option.getD_none] at hmax ⊢
    have hmin : Numeral.minInt32 ≤ 0 := by decide
    simp [Numeral.fitsInt32, hmax, Int.le_trans hmin hn]

theorem EnumDecl.Readable.fits {d : EnumDecl} (h : d.Readable) :
    ∀ m ∈ d.members, Numeral.fitsInt32 m.value = true :=
  h.members.forall (I := fun n => 0 ≤ n.next) (Int.le_refl 0) fun _ _ _ hn hm => hm.fits hn

theorem EnumDecl.Readable.member_name {d : EnumDecl} (h : d.Readable) :
    ∀ m ∈ d.members, Reader.IsIdentifier false m.name :=
  h.members.forall (I := fun _ => True) trivial fun _ _ _ _ hm => ⟨trivial, hm.name⟩

theorem ReadableFields.name {fields : List FieldDecl} (h : ReadableFields fields) :
    ∀ f ∈ fields, Reader.IsIdentifier false f.name :=
  h.forall (I := fun _ => True) trivial fun _ _ _ _ hf => ⟨trivial, hf.name⟩

theorem ServiceDecl.Readable.function {d : ServiceDecl} (h : d.Readable) :
    ∀ f ∈ d.functions, f.Readable :=
  h.functions.forall (I := fun _ => True) trivial fun _ _ _ _ hf => ⟨trivial, hf⟩

theorem Reader.IsIdentifier.ne_empty {hyphens : Bool} {name : String}
    (h : IsIdentifier hyphens name) : name ≠ "" := by
  rintro rfl
  have hstart := h.start
  cases hstart

end Numbers

namespace TypeGraph

variable {g : TypeGraph} {id : TypeId}

/-- The types of a graph can be written out. -/
structure Written (g : TypeGraph) : Prop where
  wellFormed : g.WellFormed
  named : ∀ id name program, g.Declares id name program → name ≠ ""

namespace Written

theorem tree_named (h : g.Written) (id : TypeId) : (g.tree id).Named := by
  induction id using Nat.strongRecOn with
  | ind id ih =>
    have hchild {child : TypeId} (hm : g.MadeOf id child) : (g.tree child).Named :=
      ih child (h.wellFormed.older_of_madeOf hm)
    rw [h.wellFormed.tree_eq]
    cases hn : g.node id with
    | placeholder => trivial
    | builtin type => trivial
    | list element => exact hchild (by simp [MadeOf, hn, TypeNode.children])
    | set element => exact hchild (by simp [MadeOf, hn, TypeNode.children])
    | map key value =>
      exact ⟨hchild (by simp [MadeOf, hn, TypeNode.children]),
        hchild (by simp [MadeOf, hn, TypeNode.children])⟩
    | user name kind program => exact h.named id name program (.inl ⟨kind, hn⟩)
    | typedef name target program =>
      exact ⟨h.named id name program (.inr ⟨target, hn⟩),
        hchild (by simp [MadeOf, hn, TypeNode.children])⟩

theorem accepted (h : g.Written) (hid : g.node id ≠ .placeholder) :
    JsonSchema.type (g.typeJson id) = true :=
  TypeTree.accepted (h.wellFormed.tree_complete hid) (h.tree_named id)

end Written

end TypeGraph

namespace JsonSchema

theorem array_arr {α : Type} {items : JsonSchema} {f : α → Json} {xs : List α} :
    array items (.arr (xs.map f)) = true ↔ ∀ x ∈ xs, items (f x) = true := by
  simp [array]

@[simp] theorem text_str (word : String) : text 0 (.str word) = true := by simp [text]

theorem identifier_str {hyphens : Bool} {name : String} (h : Reader.IsIdentifier hyphens name) :
    identifier (.str name) = true := by
  simp only [identifier, text, decide_eq_true_eq]
  rw [Nat.one_le_iff_ne_zero]
  exact fun h0 => h.ne_empty (String.length_eq_zero_iff.1 h0)

theorem location_locate {p : Program} {position : Position} (h : position.Counted) :
    location (.ofLocation (p.locate position)) = true := by
  have hline : 1 ≤ (p.locate position).line := h.line
  have hcolumn : 1 ≤ (p.locate position).column := h.column
  simp [location, Json.ofLocation, object, integer, List.lookup_cons]
  omega

theorem namespaces_json (p : Program) : namespaces (namespacesJson p.namespaces) = true := by
  have hnodup : ((p.namespaces.map Prod.fst).map NamespaceScope.spelling).Nodup := by
    have hevery : (NamespaceScope.every.map NamespaceScope.spelling).Nodup := by decide
    exact (p.lastStatementsHold.sorted.map _).nodup hevery
  have hlisted (scope : NamespaceScope) : scope.spelling ∈ scopes := by
    cases scope <;> decide
  unfold namespaces dictionary namespacesJson
  simp only [decide_eq_true_eq, List.all_map, List.all_eq_true]
  constructor
  · rw [List.map_map] at hnodup ⊢
    exact hnodup
  · rintro ⟨scope, name⟩ -
    simp [hlisted]

section Forms

variable {g : TypeGraph}

theorem field_json {f : Field} (hname : identifier (.str f.name) = true)
    (hlocation : location (.ofLocation f.location) = true)
    (htype : type (g.typeJson f.typeId) = true) : field (f.toJson g) = true := by
  have hreq : words ["required", "optional", "default"] (.str f.requiredness.keyword) = true := by
    cases f.requiredness <;> simp [words, Requiredness.keyword]
  by_cases ho : f.isObfuscated = true <;> by_cases hr : f.isRedacted = true <;>
    simp [field, Field.toJson, object, integer, raised, List.lookup_cons, *]

theorem enumMember_json {m : EnumMember} (hname : identifier (.str m.name) = true)
    (hlocation : location (.ofLocation m.location) = true)
    (hvalue : Numeral.fitsInt32 m.value = true) : enumMember m.toJson = true := by
  have hinteger : integer (some (-2147483648)) (some 2147483647) (.int m.value) = true := hvalue
  simp [enumMember, EnumMember.toJson, object, List.lookup_cons, *]

theorem enum_json {e : EnumType} (hname : identifier (.str e.name) = true)
    (hlocation : location (.ofLocation e.location) = true)
    (hmembers : ∀ m ∈ e.members, enumMember m.toJson = true)
    (hnamespaces : namespaces (namespacesJson e.namespaces) = true) : enum e.toJson = true := by
  have harray := array_arr.2 hmembers
  simp [enum, EnumType.toJson, object, words, List.lookup_cons, *]

theorem typedef_json {t : Typedef} (hname : identifier (.str t.name) = true)
    (hlocation : location (.ofLocation t.location) = true)
    (hnamespaces : namespaces (namespacesJson t.namespaces) = true)
    (htarget : type (g.typeJson t.target) = true)
    (htrue : type (g.typeJson (g.trueType t.typeId)) = true) : typedef (t.toJson g) = true := by
  simp [typedef, Typedef.toJson, object, words, List.lookup_cons, *]

theorem record_json {r : Record} (hname : identifier (.str r.name) = true)
    (hlocation : location (.ofLocation r.location) = true)
    (hfields : ∀ f ∈ r.fields, field (f.toJson g) = true)
    (hnamespaces : namespaces (namespacesJson r.namespaces) = true) :
    record (r.toJson g) = true := by
  have harray := array_arr.2 hfields
  have hkind : words ["struct", "union", "exception"] (.str r.kind.keyword) = true := by
    cases r.kind <;> simp [words, RecordKind.keyword]
  simp [record, Record.toJson, object, List.lookup_cons, *]

theorem method_json {m : Method} (hname : identifier (.str m.name) = true)
    (hlocation : location (.ofLocation m.location) = true)
    (hparams : ∀ f ∈ m.params, field (f.toJson g) = true)
    (hthrows : ∀ f ∈ m.throws, field (f.toJson g) = true)
    (hreturns : type (g.typeJson m.returnType) = true) : method (m.toJson g) = true := by
  have hparams := array_arr.2 hparams
  have hthrows := array_arr.2 hthrows
  simp [method, Method.toJson, object, boolean, List.lookup_cons, *]

theorem service_json {schema : Schema} {s : Service} (hname : identifier (.str s.name) = true)
    (hlocation : location (.ofLocation s.location) = true)
    (hmethods : ∀ m ∈ s.methods, method (m.toJson schema.types) = true)
    (hnamespaces : namespaces (namespacesJson s.namespaces) = true) :
    service (schema.serviceJson s) = true := by
  have harray := array_arr.2 hmethods
  have hbase : orNull (text 0) (.ofOption (fun base => .str base.name) (schema.baseOf s)) = true := by
    cases schema.baseOf s <;> simp [Json.ofOption, orNull]
  simp [service, Schema.serviceJson, object, words, List.lookup_cons, *]

theorem schema_json {s : Schema} (henums : ∀ e ∈ s.enums, enum e.toJson = true)
    (htypedefs : ∀ t ∈ s.typedefs, typedef (t.toJson s.types) = true)
    (hrecords : ∀ r ∈ s.records, record (r.toJson s.types) = true)
    (hservices : ∀ service' ∈ s.services, service (s.serviceJson service') = true) :
    schema s.toJson = true := by
  have hkind (kind : RecordKind) :
      array record (.arr ((s.recordsOf kind).map (Record.toJson s.types))) = true := by
    rw [array_arr]
    intro r hr
    exact hrecords r (List.mem_of_mem_filter hr)
  have hstructs := hkind .struct
  have hunions := hkind .union
  have hexceptions := hkind .exception
  have henums := array_arr.2 henums
  have htypedefs := array_arr.2 htypedefs
  have hservices := array_arr.2 hservices
  have hversion : version (.str Schema.formatVersion) = true := by decide
  simp [schema, Schema.toJson, object, words, List.lookup_cons, Schema.structs, Schema.unions,
    Schema.exceptions, *]

end Forms

end JsonSchema

section Linked

open JsonSchema (identifier_str location_locate namespaces_json)

variable {st : LinkState} {program : ProgramId} {p : Program} {part : SchemaPart}
  (hg : st.types.Written)

theorem Linking.EnumLinked.json {decl : EnumDecl} {e : EnumType} (hd : decl.Readable)
    (hc : (Declaration.enum decl).Counted) (h : Linking.EnumLinked (st.lookupType program) p decl e) :
    JsonSchema.enum e.toJson = true := by
  have hname : e.name = decl.name := congrArg EnumType.name h.copied
  have hlocation : e.location = p.locate decl.position := congrArg EnumType.location h.copied
  have hnamespaces : e.namespaces = p.namespaces := congrArg EnumType.namespaces h.copied
  have hmembers : e.members = decl.members.map fun m =>
      ⟨m.name, m.value, m.documentation, p.locate m.position⟩ := congrArg EnumType.members h.copied
  apply JsonSchema.enum_json
  · rw [hname]
    exact identifier_str hd.name
  · rw [hlocation]
    exact location_locate hc.own
  · rw [hmembers]
    intro m hm
    obtain ⟨decl, hdecl, rfl⟩ := List.mem_map.1 hm
    exact JsonSchema.enumMember_json (identifier_str (hd.member_name decl hdecl))
      (location_locate (hc.parts decl hdecl)) (hd.fits decl hdecl)
  · rw [hnamespaces]
    exact namespaces_json p

include hg

theorem Linking.fields_json {decls : List FieldDecl} {fields : List Field}
    (hst : st.WellFormed) (hd : ReadableFields decls) (hc : FieldsCounted decls)
    (h : List.Forall₂ (Linking.FieldLinked st.types (st.lookupType program) p.locate) decls fields) :
    ∀ f ∈ fields, JsonSchema.field (f.toJson st.types) = true := by
  intro f hf
  obtain ⟨decl, hdecl, hl⟩ := forall₂_mem_right h hf
  have hname : f.name = decl.name := congrArg Field.name hl.copied
  have hlocation : f.location = p.locate decl.position := congrArg Field.location hl.copied
  apply JsonSchema.field_json
  · rw [hname]
    exact identifier_str (hd.name decl hdecl)
  · rw [hlocation]
    exact location_locate (hc decl hdecl)
  · exact hg.accepted (hl.usable hst).1

theorem Linking.MethodLinked.json {decl : FunctionDecl} {m : Method} (hst : st.WellFormed)
    (hd : decl.Readable) (hc : decl.Counted)
    (h : Linking.MethodLinked st.types (st.lookupType program) p.locate decl m) :
    JsonSchema.method (m.toJson st.types) = true := by
  have hname : m.name = decl.name := congrArg Method.name h.copied
  have hlocation : m.location = p.locate decl.position := congrArg Method.location h.copied
  apply JsonSchema.method_json
  · rw [hname]
    exact identifier_str hd.name
  · rw [hlocation]
    exact location_locate hc.own
  · exact fields_json hg hst hd.params hc.params h.params
  · exact fields_json hg hst hd.throws hc.throws h.throws
  · apply hg.accepted
    rcases h.returns with ⟨-, hvoid⟩ | ⟨-, hdenotes⟩
    · rw [hvoid, hg.wellFormed.node_builtin]
      simp
    · exact (hdenotes.usable hst.types fun _ _ hs => hst.usable hs).1

theorem Linking.RecordLinked.json {decl : RecordDecl} {r : Record} (hst : st.WellFormed)
    (hd : decl.Readable) (hc : (Declaration.record decl).Counted)
    (h : Linking.RecordLinked st.types (st.lookupType program) p decl r) :
    JsonSchema.record (r.toJson st.types) = true := by
  have hname : r.name = decl.name := congrArg Record.name h.copied
  have hlocation : r.location = p.locate decl.position := congrArg Record.location h.copied
  have hnamespaces : r.namespaces = p.namespaces := congrArg Record.namespaces h.copied
  apply JsonSchema.record_json
  · rw [hname]
    exact identifier_str hd.name
  · rw [hlocation]
    exact location_locate hc.own
  · exact fields_json hg hst hd.fields hc.parts h.fields
  · rw [hnamespaces]
    exact namespaces_json p

theorem Linking.ServiceLinked.json {schema : Schema} {decl : ServiceDecl} {s : Service}
    (hst : st.WellFormed) (htypes : schema.types = st.types) (hd : decl.Readable)
    (hc : (Declaration.service decl).Counted)
    (h : Linking.ServiceLinked st.types (st.lookupType program) p decl s) :
    JsonSchema.service (schema.serviceJson s) = true := by
  have hname : s.name = decl.name := congrArg Service.name h.copied
  have hlocation : s.location = p.locate decl.position := congrArg Service.location h.copied
  have hnamespaces : s.namespaces = p.namespaces := congrArg Service.namespaces h.copied
  apply JsonSchema.service_json
  · rw [hname]
    exact identifier_str hd.name
  · rw [hlocation]
    exact location_locate hc.own
  · intro m hm
    obtain ⟨function, hf, hl⟩ := forall₂_mem_right h.methods hm
    rw [htypes]
    exact hl.json hg hst (hd.function function hf) (hc.parts function hf)
  · rw [hnamespaces]
    exact namespaces_json p

theorem Linking.TypedefLinkedTo.json {own : List (String × TypeId)}
    {settled : List Linking.SettledTypedef} {decl : TypedefDecl} {t : Typedef}
    (hst : st.WellFormed) (ht : Linking.TypesLinked program p own settled st)
    (hd : decl.Readable) (hc : (Declaration.typedef decl).Counted)
    (h : Linking.TypedefLinkedTo p settled decl t) :
    JsonSchema.typedef (t.toJson st.types) = true := by
  obtain ⟨r, hs, rfl⟩ := h
  obtain ⟨hown, htarget⟩ := ht.typedef_usable hst hs
  have htrue : st.types.Usable (st.types.trueType r.typeId) :=
    hst.types.usable_of_reaches hown (st.types.reaches_trueType r.typeId)
  apply JsonSchema.typedef_json
  · exact identifier_str hd.name
  · exact location_locate hc.own
  · exact namespaces_json p
  · exact hg.accepted htarget.1
  · exact hg.accepted htrue.1

end Linked

section Load

variable {space : SearchSpace} {roots : List String} {loaded : LoadedPrograms}
  {parts : List SchemaPart} {final : LinkState} {schema : Schema}

theorem LoadLinked.written (h : LoadLinked space roots loaded parts final) :
    final.types.Written where
  wellFormed := h.consistent.wellFormed.types
  named _ _ _ hd := (h.declared hd).1.ne_empty

theorem LoadLinked.of_mem {α : Type} {select : SchemaPart → List α} {a : α}
    (h : LoadLinked space roots loaded parts final) (hm : a ∈ parts.flatMap select) :
    ∃ i p part, PartLinked i p part final ∧ a ∈ select part ∧
      ∀ decl ∈ p.document.declarations, decl.Readable ∧ decl.Counted := by
  obtain ⟨part, hpart, hm⟩ := List.mem_flatMap.1 hm
  obtain ⟨i, hi, hl⟩ := forall₂_mem_right h.linked hpart
  have hlt := h.found.ordered.lt_length hi
  obtain ⟨ids, hd⟩ := h.found.discovered
  obtain ⟨text, -, hparse⟩ := hd.registered.parsed _ (List.getElem_mem hlt)
  refine ⟨i, loaded.programs[i], part, hl _ (List.getElem?_eq_getElem hlt), hm, ?_⟩
  intro decl hdecl
  exact ⟨(Document.readable_of_parse hparse).2 decl hdecl,
    Document.counted_of_parse hparse decl hdecl⟩

/-- What a load gives can be written out as the JSON schema of the format wants it. -/
theorem load_json_valid (h : load space roots = .ok schema) :
    JsonSchema.schema schema.toJson = true := by
  obtain ⟨loaded, parts, final, -, hlinked, rfl⟩ := load_linked h
  have hg := hlinked.written
  have hst := hlinked.consistent.wellFormed
  apply JsonSchema.schema_json
  · intro e he
    obtain ⟨i, p, part, hp, he, hdecls⟩ := hlinked.of_mem he
    obtain ⟨decl, hdecl, hl⟩ := forall₂_mem_right hp.enums he
    obtain ⟨hreadable, hcounted⟩ := hdecls _ (Document.declared_enum hdecl)
    exact hl.json hreadable hcounted
  · intro t ht
    obtain ⟨i, p, part, hp, ht, hdecls⟩ := hlinked.of_mem ht
    obtain ⟨own, settled, htypes, htypedefs⟩ := hp.types
    obtain ⟨decl, hdecl, hl⟩ := forall₂_mem_right htypedefs ht
    obtain ⟨hreadable, hcounted⟩ := hdecls _ (Document.declared_typedef hdecl)
    exact hl.json hg hst htypes hreadable hcounted
  · intro r hr
    obtain ⟨i, p, part, hp, hr, hdecls⟩ := hlinked.of_mem hr
    obtain ⟨decl, hdecl, hl⟩ := forall₂_mem_right hp.records hr
    obtain ⟨hreadable, hcounted⟩ := hdecls _ (Document.declared_record hdecl)
    exact hl.json hg hst hreadable hcounted
  · intro s hs
    obtain ⟨i, p, part, hp, hs, hdecls⟩ := hlinked.of_mem hs
    obtain ⟨decl, hdecl, hl⟩ := forall₂_mem_right hp.services hs
    obtain ⟨hreadable, hcounted⟩ := hdecls _ (Document.declared_service hdecl)
    exact hl.json hg hst rfl hreadable hcounted

end Load

def levels : SearchSpace :=
  ⟨⟨[(⟨true, ["levels.thrift"]⟩, "enum Level \x7b LOW = -1 \x7d " ++
      "struct Row \x7b 1: map<i32, Level> all # @redacted\n\x7d")], []⟩, []⟩

theorem levels_json_valid : ∃ schema, load levels ["/levels.thrift"] = .ok schema ∧
    schema.enums.map (fun e => e.members.map (·.value)) = [[-1]] ∧
    schema.structs.map (fun r => r.fields.map (·.isRedacted)) = [[true]] ∧
    JsonSchema.schema schema.toJson = true := by
  have hfacts : (load levels ["/levels.thrift"]).map (fun schema =>
      (schema.enums.map (fun e => e.members.map (·.value)),
        schema.structs.map (fun r => r.fields.map (·.isRedacted)))) =
      .ok ([[-1]], [[true]]) := by cbv
  cases h : load levels ["/levels.thrift"] with
  | error e =>
    rw [h] at hfacts
    cases hfacts
  | ok schema =>
    rw [h] at hfacts
    simp only [Except.map, Except.ok.injEq, Prod.mk.injEq] at hfacts
    exact ⟨schema, rfl, hfacts.1, hfacts.2, load_json_valid h⟩

end ThriftIdl
