import ThriftIdl.Json

namespace ThriftIdl

namespace Json

mutual

/-- How deep arrays and objects are nested. -/
def depth : Json → Nat
  | .arr items => itemsDepth items + 1
  | .obj members => membersDepth members + 1
  | _ => 0

def itemsDepth : List Json → Nat
  | [] => 0
  | item :: items => max item.depth (itemsDepth items)

def membersDepth : List (String × Json) → Nat
  | [] => 0
  | (_, value) :: members => max value.depth (membersDepth members)

end

end Json

/-- The JSON values that are let through. -/
abbrev JsonSchema := Json → Bool

namespace JsonSchema

def words (allowed : List String) : JsonSchema
  | .str word => allowed.contains word
  | _ => false

def text (minLength : Nat) : JsonSchema
  | .str text => minLength ≤ text.length
  | _ => false

/-- Digits, a dot, and digits again. -/
def isVersion (text : List Char) : Bool :=
  match text.span Char.isDigit with
  | (major, '.' :: minor) => !major.isEmpty && !minor.isEmpty && minor.all Char.isDigit
  | _ => false

def version : JsonSchema
  | .str text => isVersion text.toList
  | _ => false

def integer (minimum maximum : Option Int) : JsonSchema
  | .int n => minimum.all (· ≤ n) && maximum.all (n ≤ ·)
  | _ => false

def boolean : JsonSchema
  | .bool _ => true
  | _ => false

def raised : JsonSchema
  | .bool raised => raised
  | _ => false

def orNull (schema : JsonSchema) : JsonSchema
  | .null => true
  | value => schema value

def array (items : JsonSchema) : JsonSchema
  | .arr values => values.all items
  | _ => false

/-- Objects with all of the required members, any of the optional ones, and no others. -/
def object (required optional : List (String × JsonSchema)) : JsonSchema
  | .obj members =>
      (members.map Prod.fst).Nodup ∧
        (∀ key ∈ required.map Prod.fst, key ∈ members.map Prod.fst) ∧
          members.all fun (key, value) => ((required ++ optional).lookup key).any (· value)
  | _ => false

/-- Objects with any members that have these keys. -/
def dictionary (keys : List String) (values : JsonSchema) : JsonSchema
  | .obj members =>
      (members.map Prod.fst).Nodup ∧
        members.all fun (key, value) => keys.contains key && values value
  | _ => false

def oneOf (alternatives : List JsonSchema) : JsonSchema := fun value =>
  alternatives.countP (· value) = 1

/-- A schema that refers to itself, for the parts of a value. -/
def recursive (body : JsonSchema → JsonSchema) (value : Json) : Bool :=
  body (fun part => if part.depth < value.depth then recursive body part else false) value
termination_by value.depth

def identifier : JsonSchema := text 1

def location : JsonSchema :=
  object [("column", integer (some 1) none), ("file", text 0), ("line", integer (some 1) none)] []

def scopes : List String :=
  ["*", "cpp", "java", "py", "py.twisted", "perl", "rb", "cocoa", "csharp", "php",
    "smalltalk.category", "smalltalk.prefix", "js", "go", "c_glib", "delphi", "haxe", "netstd",
    "lua", "rs", "swift"]

def namespaces : JsonSchema := dictionary scopes (text 0)

def typeAlternatives (type : JsonSchema) : List JsonSchema :=
  [object [("kind", words ["builtin"]), ("name", words ["bool", "byte", "i16", "i32", "i64",
      "double", "string", "binary", "void"])] [],
    object [("element", type), ("kind", words ["list", "set"])] [],
    object [("key", type), ("kind", words ["map"]), ("value", type)] [],
    object [("kind", words ["enum", "struct", "union", "exception"]), ("name", identifier)] [],
    object [("kind", words ["typedef"]), ("name", identifier), ("target", type)] []]

def type : JsonSchema := recursive fun type => oneOf (typeAlternatives type)

def field : JsonSchema :=
  object [("documentation", text 0), ("id", integer none none), ("location", location),
      ("name", identifier), ("requiredness", words ["required", "optional", "default"]),
      ("type", type)]
    [("redacted", raised), ("obfuscated", raised)]

def enumMember : JsonSchema :=
  object [("documentation", text 0), ("location", location), ("name", identifier),
    ("value", integer (some (-2147483648)) (some 2147483647))] []

def enum : JsonSchema :=
  object [("documentation", text 0), ("kind", words ["Enum"]), ("location", location),
    ("members", array enumMember), ("name", identifier), ("namespaces", namespaces)] []

def typedef : JsonSchema :=
  object [("documentation", text 0), ("kind", words ["Typedef"]), ("location", location),
    ("name", identifier), ("namespaces", namespaces), ("old_type", type), ("true_type", type)] []

def record : JsonSchema :=
  object [("documentation", text 0), ("fields", array field),
    ("kind", words ["struct", "union", "exception"]), ("location", location),
    ("name", identifier), ("namespaces", namespaces)] []

def method : JsonSchema :=
  object [("documentation", text 0), ("exceptions", array field), ("location", location),
    ("name", identifier), ("oneway", boolean), ("params", array field), ("return_type", type)] []

def service : JsonSchema :=
  object [("documentation", text 0), ("extends", orNull (text 0)), ("kind", words ["Service"]),
    ("location", location), ("methods", array method), ("name", identifier),
    ("namespaces", namespaces)] []

def schema : JsonSchema :=
  object [("enums", array enum), ("exceptions", array record), ("format_version", version),
    ("kind", words ["Schema"]), ("services", array service), ("structs", array record),
    ("typedefs", array typedef), ("unions", array record)] []

end JsonSchema

end ThriftIdl
