import ThriftIdl.Proofs.ProgramsInStep
import ThriftIdl.Proofs.ReadableDocuments

namespace ThriftIdl

open TypeGraph (Alike)

def Json.member? (key : String) : Json → Option Json
  | obj members => members.lookup key
  | _ => none

def Json.items : Json → List Json
  | arr items => items
  | _ => []

/-- What is listed in an array of its own in the JSON form of a schema. -/
inductive ArrayKind
  | enum
  | typedef
  | record (kind : RecordKind)
  | service
deriving DecidableEq, Repr

namespace ArrayKind

def key : ArrayKind → String
  | enum => "enums"
  | typedef => "typedefs"
  | record .struct => "structs"
  | record .union => "unions"
  | record .exception => "exceptions"
  | service => "services"

def positions : ArrayKind → Document → List Position
  | enum, d => d.enums.map (·.position)
  | typedef, d => d.typedefs.map (·.position)
  | record kind, d => (d.recordsOf kind).map (·.position)
  | service, d => d.services.map (·.position)

end ArrayKind

def Schema.array (s : Schema) (kind : ArrayKind) : List Json :=
  ((s.toJson.member? kind.key).map Json.items).getD []

/-- What a part of a schema adds to an array. -/
def SchemaPart.array (s : Schema) (part : SchemaPart) : ArrayKind → List Json
  | .enum => part.enums.map EnumType.toJson
  | .typedef => part.typedefs.map (Typedef.toJson s.types)
  | .record kind => (part.records.filter (·.kind = kind)).map (Record.toJson s.types)
  | .service => part.services.map s.serviceJson

/-- An element of an array tells where it was declared. -/
def DeclaredAt (source : Placed Position) (element : Json) : Prop :=
  element.member? "location" =
    some (.ofLocation ⟨source.program.path.render, source.decl⟩)

section Arrays

variable {s s' : Schema} {part part' : SchemaPart} {kind : ArrayKind}

theorem Schema.array_eq (s : Schema) (kind : ArrayKind) : s.array kind = s.whole.array s kind := by
  cases kind with
  | record kind => cases kind <;> rfl
  | _ => rfl

theorem array_ofParts (types : TypeGraph) (parts : List SchemaPart) (kind : ArrayKind) :
    (Schema.ofParts types parts).array kind =
      parts.flatMap fun part => part.array (.ofParts types parts) kind := by
  rw [Schema.array_eq]
  cases kind with
  | record kind =>
    unfold SchemaPart.array Schema.whole Schema.ofParts
    dsimp only
    rw [List.filter_flatMap, List.map_flatMap]
  | _ => exact List.map_flatMap

end Arrays

section Located

variable {space : SearchSpace} {roots : List String} {loaded : LoadedPrograms}
  {parts : List SchemaPart} {final : LinkState} {part : SchemaPart} {i : ProgramId} {p : Program}

theorem Loaded.locate (h : Loaded space roots loaded) (hp : loaded.programs[i]? = some p)
    (position : Position) : p.locate position = ⟨p.path.render, position⟩ := by
  obtain ⟨text, -, hparse⟩ := h.parsed hp
  unfold Program.locate Document.locate
  rw [(Document.readable_of_parse hparse).1]

theorem LoadLinked.array_located (h : LoadLinked space roots loaded parts final) (s : Schema)
    (hp : loaded.programs[i]? = some p) (hl : Linking.PartLinked i p part final) (kind : ArrayKind) :
    List.Forall₂ (fun position element => DeclaredAt ⟨i, p, position⟩ element)
      (kind.positions p.document) (part.array s kind) := by
  have hlocate := h.found.locate hp
  unfold DeclaredAt
  simp only [← hlocate]
  cases kind with
  | enum =>
    refine List.rel_map ?_ (hl.enums_kept (h.namesUser hp))
    intro decl enum hk
    rw [hk.copied]
    rfl
  | typedef =>
    refine List.rel_map ?_ hl.typedefs_kept
    intro decl t hk
    rw [hk.copied]
    rfl
  | record kind =>
    refine List.rel_map ?_ (hl.records_kept (h.namesUser hp) kind)
    intro decl record hk
    rw [hk.copied]
    rfl
  | service =>
    refine List.rel_map ?_ hl.services_kept
    intro decl service hk
    rw [hk.copied]
    rfl

theorem LoadLinked.arrays_located (h : LoadLinked space roots loaded parts final)
    (kind : ArrayKind) :
    List.Forall₂ DeclaredAt (loaded.declared kind.positions)
      ((Schema.ofParts final.types parts).array kind) := by
  rw [array_ofParts]
  exact h.aligned fun i p part hp hl => h.array_located _ hp hl kind

end Located

namespace Linking

variable {g g' : TypeGraph} {s s' : Schema} {part part' : SchemaPart}

theorem FieldAlike.toJson {field field' : Field} (h : FieldAlike g g' field field') :
    field.toJson g = field'.toJson g' := by
  rw [h.copied]
  unfold Field.toJson
  dsimp only
  rw [h.type.typeJson]
  rfl

theorem EnumAlike.toJson {enum enum' : EnumType} (h : EnumAlike enum enum') :
    enum.toJson = enum'.toJson := by
  rw [h.copied]
  rfl

theorem TypedefAlike.toJson {t t' : Typedef} (h : TypedefAlike g g' t t') (hg : g.WellFormed)
    (hg' : g'.WellFormed) : t.toJson g = t'.toJson g' := by
  rw [h.copied]
  unfold Typedef.toJson
  rw [h.target.typeJson, h.typeId.trueType_json hg hg']

theorem RecordAlike.toJson {record record' : Record} (h : RecordAlike g g' record record') :
    record.toJson g = record'.toJson g' := by
  rw [h.copied]
  unfold Record.toJson
  rw [map_eq_map_of_forall₂ (h.fields.imp fun _ _ => FieldAlike.toJson)]

theorem MethodAlike.toJson {method method' : Method} (h : MethodAlike g g' method method') :
    method.toJson g = method'.toJson g' := by
  rw [h.copied]
  unfold Method.toJson
  rw [map_eq_map_of_forall₂ (h.params.imp fun _ _ => FieldAlike.toJson),
    map_eq_map_of_forall₂ (h.throws.imp fun _ _ => FieldAlike.toJson), h.returnType.typeJson]

theorem ServiceAlike.toJson {service service' : Service}
    (h : ServiceAlike s.types s'.types service service')
    (hbase : (s.baseOf service).map (·.name) = (s'.baseOf service').map (·.name)) :
    s.serviceJson service = s'.serviceJson service' := by
  have hof (base : Option Service) : Json.ofOption (fun base => .str base.name) base =
      Json.ofOption Json.str (base.map (·.name)) := by cases base <;> rfl
  unfold Schema.serviceJson
  rw [hof, hof, hbase, map_eq_map_of_forall₂ (h.methods.imp fun _ _ => MethodAlike.toJson),
    h.copied]

theorem PartAlike.array_eq (h : PartAlike s.types s'.types part part') (hg : s.types.WellFormed)
    (hg' : s'.types.WellFormed)
    (hbases : List.Forall₂ (fun service service' => (s.baseOf service).map (·.name) =
      (s'.baseOf service').map (·.name)) part.services part'.services) (kind : ArrayKind) :
    part.array s kind = part'.array s' kind := by
  cases kind with
  | enum => exact map_eq_map_of_forall₂ (h.enums.imp fun _ _ => EnumAlike.toJson)
  | typedef => exact map_eq_map_of_forall₂ (h.typedefs.imp fun _ _ ht => ht.toJson hg hg')
  | record kind =>
    have hrecords : List.Forall₂ (RecordAlike s.types s'.types)
        (part.records.filter (·.kind = kind)) (part'.records.filter (·.kind = kind)) := by
      refine List.rel_filter ?_ h.records
      intro record record' hr
      rw [hr.copied]
    exact map_eq_map_of_forall₂ (hrecords.imp fun _ _ => RecordAlike.toJson)
  | service =>
    refine map_eq_map_of_forall₂ ((forall₂_and h.services hbases).imp ?_)
    rintro service service' ⟨ha, hbase⟩
    exact ha.toJson hbase

end Linking

end ThriftIdl
