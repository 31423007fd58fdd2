import ThriftIdl.Program
import ThriftIdl.Text

namespace ThriftIdl

abbrev Namespaces := List (NamespaceScope × String)

structure EnumMember where
  name : String
  value : Int
  documentation : String
  location : Location
deriving DecidableEq, Repr

structure EnumType where
  name : String
  typeId : TypeId
  members : List EnumMember
  documentation : String
  location : Location
  namespaces : Namespaces
deriving DecidableEq, Repr

def EnumType.member? (e : EnumType) (name : String) : Option EnumMember :=
  e.members.find? (·.name = name)

structure Typedef where
  name : String
  target : TypeId
  typeId : TypeId
  documentation : String
  location : Location
  namespaces : Namespaces
deriving DecidableEq, Repr

structure Field where
  id : Int
  name : String
  requiredness : Requiredness
  typeId : TypeId
  documentation : String
  location : Location
deriving DecidableEq, Repr

namespace Field

def isRequired (f : Field) : Bool := f.requiredness = .required

def isOptional (f : Field) : Bool := f.requiredness = .optional

def isRedacted (f : Field) : Bool := Text.mentions "@redacted" f.documentation

def isObfuscated (f : Field) : Bool := Text.mentions "@obfuscated" f.documentation

end Field

structure Record where
  name : String
  kind : RecordKind
  typeId : TypeId
  fields : List Field
  documentation : String
  location : Location
  namespaces : Namespaces
deriving DecidableEq, Repr

def Record.field? (r : Record) (name : String) : Option Field :=
  r.fields.find? (·.name = name)

structure Method where
  name : String
  oneway : Bool
  returnType : TypeId
  params : List Field
  throws : List Field
  documentation : String
  location : Location
deriving DecidableEq, Repr

structure Service where
  id : ServiceId
  name : String
  base : Option ServiceId
  methods : List Method
  documentation : String
  location : Location
  namespaces : Namespaces
deriving DecidableEq, Repr

def Service.method? (s : Service) (name : String) : Option Method :=
  s.methods.find? (·.name = name)

/-- Everything that the loaded files declare. Included files come before the files that include
them, and each file keeps its order. -/
structure Schema where
  types : TypeGraph
  enums : List EnumType
  typedefs : List Typedef
  records : List Record
  services : List Service
deriving DecidableEq, Repr

structure SchemaPart where
  enums : List EnumType
  typedefs : List Typedef
  records : List Record
  services : List Service
deriving DecidableEq, Repr

namespace Schema

def ofParts (types : TypeGraph) (parts : List SchemaPart) : Schema :=
  ⟨types, parts.flatMap SchemaPart.enums, parts.flatMap SchemaPart.typedefs,
    parts.flatMap SchemaPart.records, parts.flatMap SchemaPart.services⟩

def recordsOf (kind : RecordKind) (s : Schema) : List Record :=
  s.records.filter (·.kind = kind)

def structs (s : Schema) : List Record := s.recordsOf .struct

def unions (s : Schema) : List Record := s.recordsOf .union

def exceptions (s : Schema) : List Record := s.recordsOf .exception

def enumMember? (s : Schema) (owner name : String) : Option EnumMember :=
  (s.enums.find? (·.name = owner)).bind (·.member? name)

def field? (s : Schema) (owner name : String) : Option Field :=
  ((s.structs ++ s.unions ++ s.exceptions).find? (·.name = owner)).bind (·.field? name)

def method? (s : Schema) (owner name : String) : Option Method :=
  (s.services.find? (·.name = owner)).bind (·.method? name)

def baseOf (s : Schema) (service : Service) : Option Service :=
  service.base.bind fun id => s.services[id]?

end Schema

end ThriftIdl
