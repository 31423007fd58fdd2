import ThriftIdl.Proofs.DocumentLists
import ThriftIdl.Proofs.LinkedSchema

namespace ThriftIdl

open Linking (PartLinked userTypes)

/-- A declaration with the program it stands in. -/
structure Placed (α : Type) where
  id : ProgramId
  program : Program
  decl : α

/-- The declarations of one kind in all loaded programs, included programs first. -/
def LoadedPrograms.declared {α : Type} (loaded : LoadedPrograms) (kind : Document → List α) :
    List (Placed α) :=
  loaded.order.flatMap fun i =>
    loaded.programs[i]?.toList.flatMap fun p => (kind p.document).map (⟨i, p, ·⟩)

/-- Of several namespace statements for one scope the last holds. -/
structure LastStatementsHold (document : Document) (namespaces : Namespaces) : Prop where
  last : ∀ scope, namespaces.lookup scope =
    (document.namespaces.filter (·.scope = scope)).getLast?.map (·.name)
  sorted : (namespaces.map Prod.fst).Sublist NamespaceScope.every

def FieldKept (p : Program) (decl : FieldDecl) (field : Field) : Prop :=
  field = ⟨decl.id, decl.name, decl.requiredness, field.typeId, decl.documentation,
    p.locate decl.position⟩

structure MethodKept (p : Program) (decl : FunctionDecl) (method : Method) : Prop where
  copied : method = ⟨decl.name, decl.oneway, method.returnType, method.params, method.throws,
    decl.documentation, p.locate decl.position⟩
  params : List.Forall₂ (FieldKept p) decl.params method.params
  throws : List.Forall₂ (FieldKept p) decl.throws method.throws

structure EnumKept (g : TypeGraph) (source : Placed EnumDecl) (enum : EnumType) : Prop where
  node : g.node enum.typeId = .user source.decl.name .enum source.id
  copied : enum = ⟨source.decl.name, enum.typeId,
    source.decl.members.map fun m =>
      ⟨m.name, m.value, m.documentation, source.program.locate m.position⟩,
    source.decl.documentation, source.program.locate source.decl.position, enum.namespaces⟩
  namespaces : LastStatementsHold source.program.document enum.namespaces

structure TypedefKept (g : TypeGraph) (source : Placed TypedefDecl) (t : Typedef) : Prop where
  node : g.node t.typeId = .typedef source.decl.name t.target source.id
  copied : t = ⟨source.decl.name, t.target, t.typeId, source.decl.documentation,
    source.program.locate source.decl.position, t.namespaces⟩
  namespaces : LastStatementsHold source.program.document t.namespaces

structure RecordKept (g : TypeGraph) (source : Placed RecordDecl) (record : Record) : Prop where
  node : g.node record.typeId = .user source.decl.name (.record source.decl.kind) source.id
  copied : record = ⟨source.decl.name, source.decl.kind, record.typeId, record.fields,
    source.decl.documentation, source.program.locate source.decl.position, record.namespaces⟩
  fields : List.Forall₂ (FieldKept source.program) source.decl.fields record.fields
  namespaces : LastStatementsHold source.program.document record.namespaces

structure ServiceKept (source : Placed ServiceDecl) (service : Service) : Prop where
  copied : service = ⟨service.id, source.decl.name, service.base, service.methods,
    source.decl.documentation, source.program.locate source.decl.position, service.namespaces⟩
  methods : List.Forall₂ (MethodKept source.program) source.decl.functions service.methods
  namespaces : LastStatementsHold source.program.document service.namespaces

namespace Schema

def declaredTypes (s : Schema) : List TypeId :=
  s.typedefs.map (·.typeId) ++ (s.enums.map (·.typeId) ++ (s.structs.map (·.typeId) ++
    (s.unions.map (·.typeId) ++ s.exceptions.map (·.typeId))))

end Schema

section Namespaces

variable {f : NamespaceScope → Option String} {scope : NamespaceScope}
  {scopes : List NamespaceScope}

theorem scopes_sublist (f : NamespaceScope → Option String) (scopes : List NamespaceScope) :
    ((scopes.filterMap fun scope => (f scope).map (scope, ·)).map Prod.fst).Sublist scopes := by
  induction scopes with
  | nil => exact List.Sublist.refl []
  | cons first scopes ih =>
    cases hf : f first with
    | none => simpa [hf] using ih.cons first
    | some name => simpa [hf] using ih

theorem lookup_scopes (hm : scope ∈ scopes) :
    (scopes.filterMap fun scope => (f scope).map (scope, ·)).lookup scope = f scope := by
  induction scopes with
  | nil => simp at hm
  | cons first scopes ih =>
    by_cases he : scope = first
    · subst he
      cases hf : f scope with
      | some name => simp [hf]
      | none =>
        simp only [List.filterMap_cons, hf, Option.map_none]
        by_cases hin : scope ∈ scopes
        · rw [ih hin, hf]
        · rw [List.lookup_eq_none_iff]
          intro pair hp
          have hkey : pair.1 ∈ scopes :=
            (scopes_sublist f scopes).subset (List.mem_map_of_mem hp)
          simpa using fun h : scope = pair.1 => hin (h ▸ hkey)
    · have hin : scope ∈ scopes := (List.mem_cons.1 hm).resolve_left he
      cases hf : f first with
      | none => simpa [hf] using ih hin
      | some name =>
        have hne : (scope == first) = false := by simpa using he
        simpa [hf, List.lookup_cons, hne] using ih hin

theorem Program.lastStatementsHold (p : Program) :
    LastStatementsHold p.document p.namespaces := by
  have hlast (scope : NamespaceScope) :
      ((p.document.namespaces.reverse.find? (·.scope = scope)).map fun decl => (scope, decl.name)) =
        ((p.document.namespaces.filter (·.scope = scope)).getLast?.map (·.name)).map (scope, ·) := by
    rw [List.getLast?_filter, Option.map_map]
    rfl
  unfold Program.namespaces
  simp only [hlast]
  exact ⟨fun scope => lookup_scopes (by cases scope <;> decide), scopes_sublist _ _⟩

end Namespaces

section Kept

variable {st : LinkState} {program : ProgramId} {p : Program} {part : SchemaPart}

theorem Linking.FieldLinked.kept {g : TypeGraph} {lookup : String → Option TypeId}
    {decl : FieldDecl} {field : Field} (h : Linking.FieldLinked g lookup p.locate decl field) :
    FieldKept p decl field :=
  h.copied

theorem Linking.MethodLinked.kept {g : TypeGraph} {lookup : String → Option TypeId}
    {decl : FunctionDecl} {method : Method}
    (h : Linking.MethodLinked g lookup p.locate decl method) : MethodKept p decl method :=
  ⟨h.copied, h.params.imp fun _ _ => Linking.FieldLinked.kept,
    h.throws.imp fun _ _ => Linking.FieldLinked.kept⟩

theorem filter_records (kind : RecordKind) (d : Document) :
    d.records.filter (·.kind = kind) = d.recordsOf kind := by
  have hsame : (d.recordsOf kind).filter (·.kind = kind) = d.recordsOf kind := by
    rw [List.filter_eq_self]
    intro decl hm
    simpa using (Document.mem_recordsOf.1 hm).2
  have hother {kind' : RecordKind} (hne : kind' ≠ kind) :
      (d.recordsOf kind').filter (·.kind = kind) = [] := by
    rw [List.filter_eq_nil_iff]
    intro decl hm
    rw [(Document.mem_recordsOf.1 hm).2]
    simpa using hne
  unfold Document.records
  cases kind <;> simp only [List.filter_append, hsame, ne_eq, reduceCtorEq, not_false_eq_true,
    hother, List.append_nil, List.nil_append]

section Part

variable (hu : ∀ user ∈ userTypes p.document, st.NamesUser program user)

include hu

theorem Linking.PartLinked.enums_kept (h : PartLinked program p part st) :
    List.Forall₂ (fun decl => EnumKept st.types ⟨program, p, decl⟩) p.document.enums part.enums := by
  have hnames : ∀ decl ∈ p.document.enums, st.NamesUser program (decl.name, .enum) := by
    intro decl hm
    exact hu _ (List.mem_append_left _ (List.mem_map.2 ⟨decl, hm, rfl⟩))
  refine ((List.forall₂_and_left _ _).2 ⟨hnames, h.enums⟩).imp ?_
  rintro decl enum ⟨hn, hl⟩
  have hs : enum.namespaces = p.namespaces := congrArg EnumType.namespaces hl.copied
  refine ⟨?_, ?_, hs ▸ p.lastStatementsHold⟩
  · rw [hl.typeId]
    exact hn.lookupType
  · rw [hs]
    exact hl.copied

theorem Linking.PartLinked.records_kept (h : PartLinked program p part st) (kind : RecordKind) :
    List.Forall₂ (fun decl => RecordKept st.types ⟨program, p, decl⟩) (p.document.recordsOf kind)
      (part.records.filter (·.kind = kind)) := by
  have hnames : ∀ decl ∈ p.document.records,
      st.NamesUser program (decl.name, .record decl.kind) := by
    intro decl hm
    exact hu _ (List.mem_append_right _ (List.mem_map.2 ⟨decl, hm, rfl⟩))
  have hall : List.Forall₂ (fun decl => RecordKept st.types ⟨program, p, decl⟩)
      p.document.records part.records := by
    refine ((List.forall₂_and_left _ _).2 ⟨hnames, h.records⟩).imp ?_
    rintro decl record ⟨hn, hl⟩
    have hs : record.namespaces = p.namespaces := congrArg Record.namespaces hl.copied
    refine ⟨?_, ?_, hl.fields.imp fun _ _ => Linking.FieldLinked.kept, hs ▸ p.lastStatementsHold⟩
    · rw [hl.typeId]
      exact hn.lookupType
    · rw [hs]
      exact hl.copied
  rw [← filter_records]
  refine List.rel_filter ?_ hall
  intro decl record hk
  have hkind : record.kind = decl.kind := congrArg Record.kind hk.copied
  dsimp only
  rw [hkind]

end Part

theorem Linking.PartLinked.typedefs_kept (h : PartLinked program p part st) :
    List.Forall₂ (fun decl => TypedefKept st.types ⟨program, p, decl⟩) p.document.typedefs
      part.typedefs := by
  obtain ⟨own, settled, ht, htypedefs⟩ := h.types
  refine htypedefs.imp ?_
  rintro decl t ⟨r, hm, rfl⟩
  exact ⟨ht.sequence.node hm, rfl, p.lastStatementsHold⟩

theorem Linking.PartLinked.services_kept (h : PartLinked program p part st) :
    List.Forall₂ (fun decl => ServiceKept ⟨program, p, decl⟩) p.document.services
      part.services := by
  refine h.services.imp fun decl service hl => ?_
  have hs : service.namespaces = p.namespaces := congrArg Service.namespaces hl.copied
  refine ⟨?_, hl.methods.imp fun _ _ => Linking.MethodLinked.kept, hs ▸ p.lastStatementsHold⟩
  rw [hs]
  exact hl.copied

end Kept

section Distinct

variable {loaded : LoadedPrograms} {names names' : Document → List String}

/-- The names of one kind that the programs of a load declare, each with its program. -/
def LoadedPrograms.keys (loaded : LoadedPrograms) (names : Document → List String) :
    List (String × ProgramId) :=
  loaded.order.flatMap fun i => loaded.programs[i]?.toList.flatMap fun p =>
    (names p.document).map (·, i)

theorem keys_declared {α : Type} (loaded : LoadedPrograms) (kind : Document → List α)
    (name : α → String) : (loaded.declared kind).map (fun s => (name s.decl, s.id)) =
      loaded.keys fun d => (kind d).map name := by
  unfold LoadedPrograms.declared LoadedPrograms.keys
  simp only [List.map_flatMap, List.map_map, Function.comp_def]

theorem keys_append_perm : (loaded.keys names ++ loaded.keys names').Perm
    (loaded.keys fun d => names d ++ names' d) := by
  refine (List.flatMap_append_perm _ _ _).trans (List.Perm.of_eq ?_)
  unfold LoadedPrograms.keys
  congr 1
  funext i
  cases loaded.programs[i]? <;> simp

theorem keys_nodup (hnd : loaded.order.Nodup)
    (h : ∀ p ∈ loaded.programs, (names p.document).Nodup) : (loaded.keys names).Nodup := by
  unfold LoadedPrograms.keys
  rw [List.nodup_flatMap]
  refine ⟨?_, hnd.imp fun {i j} hij => ?_⟩
  · intro i _
    cases hp : loaded.programs[i]? with
    | none => simp
    | some p =>
      rw [Option.toList_some, List.flatMap_singleton]
      exact (h p (List.mem_of_getElem? hp)).map fun _ _ he => (Prod.mk.inj he).1
  · rintro ⟨name, k⟩ hi hj
    have hk (l : ProgramId) (hm : (name, k) ∈ loaded.programs[l]?.toList.flatMap fun p =>
        (names p.document).map (·, l)) : l = k := by
      obtain ⟨p, -, hm⟩ := List.mem_flatMap.1 hm
      obtain ⟨name', -, he⟩ := List.mem_map.1 hm
      exact (Prod.mk.inj he).2
    exact hij ((hk i hi).trans (hk j hj).symm)

theorem nodup_of_declares {g : TypeGraph} {keys : List (String × ProgramId)} {ids : List TypeId}
    (h : List.Forall₂ (fun key id => g.Declares id key.1 key.2) keys ids) (hnd : keys.Nodup) :
    ids.Nodup := by
  induction h with
  | nil => exact List.nodup_nil
  | @cons key id keys ids hkey hrest ih =>
    obtain ⟨hnew, hnd⟩ := List.nodup_cons.1 hnd
    refine List.nodup_cons.2 ⟨?_, ih hnd⟩
    intro hm
    obtain ⟨key', hm', hkey'⟩ := forall₂_mem_right hrest hm
    obtain ⟨hname, hid⟩ := hkey.unique hkey'
    exact hnew (Prod.ext hname hid ▸ hm')

theorem declares_of_kept {g : TypeGraph} {α β : Type} {kind : Document → List α} {results : List β}
    {R : Placed α → β → Prop} {name : α → String} {typeId : β → TypeId}
    (h : List.Forall₂ R (loaded.declared kind) results)
    (hd : ∀ s result, R s result → g.Declares (typeId result) (name s.decl) s.id) :
    List.Forall₂ (fun key id => g.Declares id key.1 key.2)
      (loaded.keys fun d => (kind d).map name) (results.map typeId) := by
  rw [← keys_declared, List.forall₂_map_left_iff, List.forall₂_map_right_iff]
  exact h.imp hd

end Distinct

section Load

variable {space : SearchSpace} {roots : List String} {loaded : LoadedPrograms}
  {parts : List SchemaPart} {final : LinkState} {schema : Schema}

theorem LoadLinked.namesUser (h : LoadLinked space roots loaded parts final) {i : ProgramId}
    {p : Program} (hp : loaded.programs[i]? = some p) :
    ∀ user ∈ userTypes p.document, final.NamesUser i user := by
  obtain ⟨-, -, hnames⟩ :=
    Linking.linkParts_ok h.found.linkable h.found.wellFormed (fun _ _ => rfl) h.ran
  exact hnames i (h.found.complete i (List.getElem?_eq_some_iff.1 hp).1) p hp

theorem Loaded.aligned {α β : Type} (h : Loaded space roots loaded) {kind : Document → List α}
    {select : SchemaPart → List β} {R : Placed α → β → Prop}
    (hparts : List.Forall₂ (fun i part => ∀ p, loaded.programs[i]? = some p →
      List.Forall₂ (fun decl => R ⟨i, p, decl⟩) (kind p.document) (select part))
      loaded.order parts) :
    List.Forall₂ R (loaded.declared kind) (parts.flatMap select) := by
  have hvalid : ∀ i ∈ loaded.order, i < loaded.programs.length :=
    fun i hi => h.ordered.lt_length hi
  refine List.rel_flatMap ((List.forall₂_and_left _ _).2 ⟨hvalid, hparts⟩) ?_
  rintro i part ⟨hlt, hl⟩
  have hp := List.getElem?_eq_getElem hlt
  dsimp only
  rw [hp, Option.toList_some, List.flatMap_singleton, List.forall₂_map_left_iff]
  exact hl _ hp

theorem LoadLinked.aligned {α β : Type} (h : LoadLinked space roots loaded parts final)
    {kind : Document → List α} {select : SchemaPart → List β} {R : Placed α → β → Prop}
    (hpart : ∀ i p part, loaded.programs[i]? = some p → PartLinked i p part final →
      List.Forall₂ (fun decl => R ⟨i, p, decl⟩) (kind p.document) (select part)) :
    List.Forall₂ R (loaded.declared kind) (parts.flatMap select) :=
  h.found.aligned (h.linked.imp fun i part hl p hp => hpart i p part hp (hl p hp))

theorem LoadLinked.names_nodup (h : LoadLinked space roots loaded parts final) {p : Program}
    (hm : p ∈ loaded.programs) :
    (p.document.typedefs.map (·.name) ++ (userTypes p.document).map Prod.fst).Nodup := by
  obtain ⟨i, hi, rfl⟩ := List.getElem_of_mem hm
  obtain ⟨part, -, hl⟩ := forall₂_mem_left h.linked (h.found.complete i hi)
  obtain ⟨own, settled, ht, -⟩ := (hl _ (List.getElem?_eq_getElem hi)).types
  have hnd := Linking.declared_nodup ht.wellNamed
  rw [← List.append_assoc] at hnd
  exact (List.nodup_append.1 hnd).1

theorem LoadLinked.names_distinct (h : LoadLinked space roots loaded parts final) :
    (loaded.keys (fun d => d.typedefs.map (·.name)) ++
      (loaded.keys (fun d => d.enums.map (·.name)) ++
        (loaded.keys (fun d => (d.recordsOf .struct).map (·.name)) ++
          (loaded.keys (fun d => (d.recordsOf .union).map (·.name)) ++
            loaded.keys fun d => (d.recordsOf .exception).map (·.name))))).Nodup := by
  have hperm : (loaded.keys (fun d => d.typedefs.map (·.name)) ++
      (loaded.keys (fun d => d.enums.map (·.name)) ++
        (loaded.keys (fun d => (d.recordsOf .struct).map (·.name)) ++
          (loaded.keys (fun d => (d.recordsOf .union).map (·.name)) ++
            loaded.keys fun d => (d.recordsOf .exception).map (·.name))))).Perm
      (loaded.keys fun d => d.typedefs.map (·.name) ++ (d.enums.map (·.name) ++
        ((d.recordsOf .struct).map (·.name) ++ ((d.recordsOf .union).map (·.name) ++
          (d.recordsOf .exception).map (·.name))))) := by
    refine (List.Perm.append_left _ ?_).trans keys_append_perm
    refine (List.Perm.append_left _ ?_).trans keys_append_perm
    refine (List.Perm.append_left _ ?_).trans keys_append_perm
    exact keys_append_perm
  rw [hperm.nodup_iff]
  refine keys_nodup h.found.ordered.nodup fun p hm => ?_
  have hnd := h.names_nodup hm
  simpa [userTypes, Document.records, Function.comp_def] using hnd

/-- A schema holds what the loaded files declare, kind by kind, and included files come before the
files that include them. Each declaration has a type of its own. -/
theorem load_contents (h : load space roots = .ok schema) :
    ∃ loaded, loadPrograms space roots = .ok loaded ∧
      (∀ p ∈ loaded.programs, Parsed space.store p.path p.document) ∧
      loaded.order.Perm (List.range loaded.programs.length) ∧
      List.Forall₂ (EnumKept schema.types) (loaded.declared Document.enums) schema.enums ∧
      List.Forall₂ (TypedefKept schema.types) (loaded.declared Document.typedefs)
        schema.typedefs ∧
      (∀ kind, List.Forall₂ (RecordKept schema.types)
        (loaded.declared (Document.recordsOf kind)) (schema.recordsOf kind)) ∧
      List.Forall₂ ServiceKept (loaded.declared Document.services) schema.services ∧
      schema.declaredTypes.Nodup := by
  obtain ⟨loaded, parts, final, hl, hlinked, rfl⟩ := load_linked h
  obtain ⟨ids, hdiscovered⟩ := hlinked.found.discovered
  have henums : List.Forall₂ (EnumKept final.types) (loaded.declared Document.enums)
      (parts.flatMap SchemaPart.enums) :=
    hlinked.aligned fun i p part hp hpart => hpart.enums_kept (hlinked.namesUser hp)
  have htypedefs : List.Forall₂ (TypedefKept final.types) (loaded.declared Document.typedefs)
      (parts.flatMap SchemaPart.typedefs) :=
    hlinked.aligned fun i p part _ hpart => hpart.typedefs_kept
  have hrecords (kind : RecordKind) : List.Forall₂ (RecordKept final.types)
      (loaded.declared (Document.recordsOf kind))
      ((Schema.ofParts final.types parts).recordsOf kind) := by
    unfold Schema.recordsOf Schema.ofParts
    rw [List.filter_flatMap]
    exact hlinked.aligned fun i p part hp hpart => hpart.records_kept (hlinked.namesUser hp) kind
  have hservices : List.Forall₂ ServiceKept (loaded.declared Document.services)
      (parts.flatMap SchemaPart.services) :=
    hlinked.aligned fun i p part _ hpart => hpart.services_kept
  refine ⟨loaded, hl, hdiscovered.registered.parsed, hlinked.found.perm, henums, htypedefs,
    hrecords, hservices, ?_⟩
  have hrecordIds (kind : RecordKind) :
      List.Forall₂ (fun key id => final.types.Declares id key.1 key.2)
        (loaded.keys fun d => (d.recordsOf kind).map (·.name))
        (((Schema.ofParts final.types parts).recordsOf kind).map (·.typeId)) :=
    declares_of_kept (hrecords kind) fun s record hk => .inl ⟨_, hk.node⟩
  have hids := List.rel_append
    (declares_of_kept htypedefs fun s t hk => .inr ⟨_, hk.node⟩)
    (List.rel_append (declares_of_kept henums fun s enum hk => .inl ⟨_, hk.node⟩)
      (List.rel_append (hrecordIds .struct)
        (List.rel_append (hrecordIds .union) (hrecordIds .exception))))
  exact nodup_of_declares hids hlinked.names_distinct

end Load

/-- Two files that declare a type of one name. -/
def sameNames : SearchSpace :=
  ⟨⟨[(⟨true, ["main.thrift"]⟩, "namespace go x namespace go y include \"base.thrift\" " ++
        "struct Row \x7b 1: base.Row inner \x7d typedef Row Line"),
    (⟨true, ["base.thrift"]⟩, "exception Gone \x7b\x7d struct Row \x7b 3: i32 id \x7d")], []⟩, []⟩

theorem sameNames_contents : ∃ schema, load sameNames ["/main.thrift"] = .ok schema ∧
    schema.structs.map (fun record => (record.name, record.typeId, record.namespaces)) =
      [("Row", 10, []), ("Row", 12, [(.go, "y")])] ∧ schema.declaredTypes.Nodup := by
  have hrows : (load sameNames ["/main.thrift"]).map (fun schema =>
      schema.structs.map fun record => (record.name, record.typeId, record.namespaces)) =
        .ok [("Row", 10, []), ("Row", 12, [(.go, "y")])] := by cbv
  cases h : load sameNames ["/main.thrift"] with
  | error e =>
    rw [h] at hrows
    cases hrows
  | ok schema =>
    rw [h] at hrows
    obtain ⟨-, -, -, -, -, -, -, -, hdistinct⟩ := load_contents h
    exact ⟨schema, rfl, Except.ok.inj hrows, hdistinct⟩

end ThriftIdl
