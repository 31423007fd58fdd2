import ThriftIdl.Json
import ThriftIdl.SourceStore
import ThriftIdl.SyntaxError

namespace ThriftIdl

inductive LinkFault
  | includeNotFound (path : String)
  | circularInclude (files : List String)
  | redefinedBuiltin (name : String)
  | repeatedDeclaration (name : String) (firstLine : Nat)
  | misplacedVoid
  | unknownType (name : String)
  | circularTypedef (names : List String)
  | stuckTypedefs (name : String)
  | unknownBase (name : String)
  | circularInheritance (names : List String)
  | repeatedFunction (function service : String) (firstLine : Nat)
  | onewayResult (function : String)
  | onewayThrows (function : String)
  | notAnException (type function : String)
deriving DecidableEq, Repr

namespace LinkFault

def chain (names : List String) : String :=
  " -> ".intercalate names

def message : LinkFault → String
  | includeNotFound path => "cannot find included file '" ++ path ++ "'"
  | circularInclude files => "Circular include: " ++ chain files
  | redefinedBuiltin name => "cannot redefine built-in type '" ++ name ++ "'"
  | repeatedDeclaration name firstLine =>
      "duplicate declaration '" ++ name ++ "': first declared at line " ++ toString firstLine
  | misplacedVoid => "void is only valid as a function return type"
  | unknownType name => "unknown type '" ++ name ++ "'"
  | circularTypedef names => "circular typedef: " ++ chain names
  | stuckTypedefs name => "cannot resolve typedef '" ++ name ++ "'"
  | unknownBase name => "unknown base service '" ++ name ++ "'"
  | circularInheritance names => "circular service inheritance: " ++ chain names
  | repeatedFunction function service firstLine =>
      "duplicate function '" ++ function ++ "' in service '" ++ service ++
        "': first declared at line " ++ toString firstLine
  | onewayResult function => "oneway function '" ++ function ++ "' must return void"
  | onewayThrows function => "oneway function '" ++ function ++ "' cannot throw exceptions"
  | notAnException type function =>
      "'" ++ type ++ "' in the throws clause of '" ++ function ++ "' is not an exception type"

end LinkFault

inductive LoadError
  | malformed (location : Location) (fault : SyntaxFault)
  | unlinkable (location : Location) (fault : LinkFault)
  | unreadable (path : String) (fault : SourceFault)
deriving DecidableEq, Repr

namespace LoadError

def kind : LoadError → String
  | malformed _ _ => "syntax"
  | unlinkable _ _ => "link"
  | unreadable _ _ => "io"

def location? : LoadError → Option Location
  | malformed location _ => some location
  | unlinkable location _ => some location
  | unreadable _ _ => none

def message : LoadError → String
  | malformed _ fault => fault.message
  | unlinkable _ fault => fault.message
  | unreadable _ fault => fault.message

def render : LoadError → String
  | malformed location fault => "Syntax error in " ++ location.render ++ ": " ++ fault.message
  | unlinkable location fault => "Link error in " ++ location.render ++ ": " ++ fault.message
  | unreadable path fault => "cannot read " ++ path ++ ": " ++ fault.message

def file : LoadError → String
  | malformed location _ => location.file
  | unlinkable location _ => location.file
  | unreadable path _ => path

def toJson (e : LoadError) : Json :=
  .obj [
    ("column", .ofOption (fun l => .int l.column) e.location?),
    ("file", .str e.file),
    ("kind", .str e.kind),
    ("line", .ofOption (fun l => .int l.line) e.location?),
    ("message", .str e.message)]

def toTaggedJson (e : LoadError) : Json :=
  match e.location? with
  | some location =>
    .obj [("kind", .str e.kind), ("location", .ofLocation location), ("message", .str e.message)]
  | none => .obj [("kind", .str e.kind), ("path", .str e.file), ("message", .str e.message)]

end LoadError

end ThriftIdl
