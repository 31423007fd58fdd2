import ThriftIdl.NamespaceScope
import ThriftIdl.Position
import ThriftIdl.TypeExpr

namespace ThriftIdl

structure NamespaceDecl where
  position : Position
  scope : NamespaceScope
  name : String
deriving DecidableEq, Repr

/-- An include statement. A native include names a header for generated code and is never
followed. -/
structure IncludeDecl where
  position : Position
  path : String
  native : Bool
deriving DecidableEq, Repr

structure TypedefDecl where
  position : Position
  documentation : String
  target : TypeExpr
  name : String
deriving DecidableEq, Repr

structure EnumMemberDecl where
  position : Position
  documentation : String
  name : String
  written : Option Int
  value : Int
deriving DecidableEq, Repr

structure EnumDecl where
  position : Position
  documentation : String
  name : String
  members : List EnumMemberDecl
deriving DecidableEq, Repr

inductive Requiredness
  | required
  | optional
  | unstated
deriving DecidableEq, Repr

structure FieldDecl where
  position : Position
  documentation : String
  written : Option Int
  id : Int
  requiredness : Requiredness
  type : TypeExpr
  name : String
deriving DecidableEq, Repr

inductive RecordKind
  | struct
  | union
  | exception
deriving DecidableEq, Repr

def RecordKind.keyword : RecordKind → String
  | struct => "struct"
  | union => "union"
  | exception => "exception"

structure RecordDecl where
  position : Position
  documentation : String
  kind : RecordKind
  name : String
  fields : List FieldDecl
deriving DecidableEq, Repr

structure FunctionDecl where
  position : Position
  documentation : String
  oneway : Bool
  returns : TypeExpr
  name : String
  params : List FieldDecl
  throws : List FieldDecl
deriving DecidableEq, Repr

structure ServiceDecl where
  position : Position
  documentation : String
  name : String
  base : Option String
  functions : List FunctionDecl
deriving DecidableEq, Repr

inductive Declaration
  | scoping (decl : NamespaceDecl)
  | inclusion (decl : IncludeDecl)
  | typedef (decl : TypedefDecl)
  | enum (decl : EnumDecl)
  | record (decl : RecordDecl)
  | service (decl : ServiceDecl)
deriving DecidableEq, Repr

namespace Declaration

def isHeader : Declaration → Bool
  | scoping _ | inclusion _ => true
  | _ => false

def position : Declaration → Position
  | scoping decl => decl.position
  | inclusion decl => decl.position
  | typedef decl => decl.position
  | enum decl => decl.position
  | record decl => decl.position
  | service decl => decl.position

def name? : Declaration → Option String
  | scoping _ | inclusion _ => none
  | typedef decl => some decl.name
  | enum decl => some decl.name
  | record decl => some decl.name
  | service decl => some decl.name

end Declaration

structure Document where
  file : String
  declarations : List Declaration
deriving DecidableEq, Repr

namespace Document

def namespaces (d : Document) : List NamespaceDecl :=
  d.declarations.filterMap fun
    | .scoping decl => some decl
    | _ => none

def includes (d : Document) : List IncludeDecl :=
  d.declarations.filterMap fun
    | .inclusion decl => some decl
    | _ => none

def typedefs (d : Document) : List TypedefDecl :=
  d.declarations.filterMap fun
    | .typedef decl => some decl
    | _ => none

def enums (d : Document) : List EnumDecl :=
  d.declarations.filterMap fun
    | .enum decl => some decl
    | _ => none

def recordsOf (kind : RecordKind) (d : Document) : List RecordDecl :=
  d.declarations.filterMap fun
    | .record decl => if decl.kind = kind then some decl else none
    | _ => none

/-- Structs, then unions, then exceptions. -/
def records (d : Document) : List RecordDecl :=
  d.recordsOf .struct ++ d.recordsOf .union ++ d.recordsOf .exception

def services (d : Document) : List ServiceDecl :=
  d.declarations.filterMap fun
    | .service decl => some decl
    | _ => none

def declarationCount (d : Document) : Nat :=
  d.declarations.countP fun decl => !decl.isHeader

def locate (d : Document) (position : Position) : Location :=
  ⟨d.file, position⟩

end Document

end ThriftIdl
