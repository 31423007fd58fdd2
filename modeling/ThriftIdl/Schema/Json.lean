import ThriftIdl.Json
import ThriftIdl.Schema
import ThriftIdl.TypeTree

namespace ThriftIdl

def TypeTree.toJson : TypeTree → Json
  | placeholder => .null
  | builtin type => .obj [("kind", .str "builtin"), ("name", .str type.name)]
  | list element => .obj [("element", element.toJson), ("kind", .str "list")]
  | set element => .obj [("element", element.toJson), ("kind", .str "set")]
  | map key value =>
      .obj [("key", key.toJson), ("kind", .str "map"), ("value", value.toJson)]
  | user name kind _ => .obj [("kind", .str kind.keyword), ("name", .str name)]
  | typedef name target _ =>
      .obj [("kind", .str "typedef"), ("name", .str name), ("target", target.toJson)]

def TypeGraph.typeJson (g : TypeGraph) (id : TypeId) : Json :=
  (g.tree id).toJson

def Requiredness.keyword : Requiredness → String
  | required => "required"
  | optional => "optional"
  | unstated => "default"

def namespacesJson (namespaces : Namespaces) : Json :=
  .obj (namespaces.map fun (scope, name) => (scope.spelling, .str name))

def EnumMember.toJson (m : EnumMember) : Json :=
  .obj [
    ("documentation", .str m.documentation),
    ("location", .ofLocation m.location),
    ("name", .str m.name),
    ("value", .int m.value)]

def EnumType.toJson (e : EnumType) : Json :=
  .obj [
    ("documentation", .str e.documentation),
    ("kind", .str "Enum"),
    ("location", .ofLocation e.location),
    ("members", .arr (e.members.map EnumMember.toJson)),
    ("name", .str e.name),
    ("namespaces", namespacesJson e.namespaces)]

def Typedef.toJson (g : TypeGraph) (t : Typedef) : Json :=
  .obj [
    ("documentation", .str t.documentation),
    ("kind", .str "Typedef"),
    ("location", .ofLocation t.location),
    ("name", .str t.name),
    ("namespaces", namespacesJson t.namespaces),
    ("old_type", g.typeJson t.target),
    ("true_type", g.typeJson (g.trueType t.typeId))]

/-- The two marks stand in the object only where they hold. -/
def Field.toJson (g : TypeGraph) (f : Field) : Json :=
  .obj (
    [("documentation", .str f.documentation),
      ("id", .int f.id),
      ("location", .ofLocation f.location),
      ("name", .str f.name)] ++
    (if f.isObfuscated then [("obfuscated", .bool true)] else []) ++
    (if f.isRedacted then [("redacted", .bool true)] else []) ++
    [("requiredness", .str f.requiredness.keyword),
      ("type", g.typeJson f.typeId)])

def Record.toJson (g : TypeGraph) (r : Record) : Json :=
  .obj [
    ("documentation", .str r.documentation),
    ("fields", .arr (r.fields.map (Field.toJson g))),
    ("kind", .str r.kind.keyword),
    ("location", .ofLocation r.location),
    ("name", .str r.name),
    ("namespaces", namespacesJson r.namespaces)]

def Method.toJson (g : TypeGraph) (m : Method) : Json :=
  .obj [
    ("documentation", .str m.documentation),
    ("exceptions", .arr (m.throws.map (Field.toJson g))),
    ("location", .ofLocation m.location),
    ("name", .str m.name),
    ("oneway", .bool m.oneway),
    ("params", .arr (m.params.map (Field.toJson g))),
    ("return_type", g.typeJson m.returnType)]

namespace Schema

def serviceJson (schema : Schema) (s : Service) : Json :=
  .obj [
    ("documentation", .str s.documentation),
    ("extends", .ofOption (fun base => .str base.name) (schema.baseOf s)),
    ("kind", .str "Service"),
    ("location", .ofLocation s.location),
    ("methods", .arr (s.methods.map (Method.toJson schema.types))),
    ("name", .str s.name),
    ("namespaces", namespacesJson s.namespaces)]

def formatVersion : String := "1.0"

def toJson (s : Schema) : Json :=
  .obj [
    ("enums", .arr (s.enums.map EnumType.toJson)),
    ("exceptions", .arr (s.exceptions.map (Record.toJson s.types))),
    ("format_version", .str formatVersion),
    ("kind", .str "Schema"),
    ("services", .arr (s.services.map s.serviceJson)),
    ("structs", .arr (s.structs.map (Record.toJson s.types))),
    ("typedefs", .arr (s.typedefs.map (Typedef.toJson s.types))),
    ("unions", .arr (s.unions.map (Record.toJson s.types)))]

end Schema

end ThriftIdl
