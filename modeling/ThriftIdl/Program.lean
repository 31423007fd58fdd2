import ThriftIdl.Path
import ThriftIdl.TypeGraph

namespace ThriftIdl

abbrev ServiceId := Nat

structure Include where
  target : ProgramId
  position : Position
deriving DecidableEq, Repr

/-- A file that takes part in a load, with the symbols it defines. The includes lead to
different programs. -/
structure Program where
  path : Path
  document : Document
  includes : List Include
  types : List (String × TypeId)
  services : List (String × ServiceId)
deriving DecidableEq, Repr

namespace Program

def ofDocument (path : Path) (document : Document) : Program :=
  ⟨path, document, [], [], []⟩

def name (p : Program) : String := p.path.stem

def typeSymbol (p : Program) (name : String) : Option TypeId :=
  p.types.lookup name

def serviceSymbol (p : Program) (name : String) : Option ServiceId :=
  p.services.lookup name

def defineType (p : Program) (name : String) (id : TypeId) : Program :=
  { p with types := (name, id) :: p.types }

def defineService (p : Program) (name : String) (id : ServiceId) : Program :=
  { p with services := (name, id) :: p.services }

def unqualified? (p : Program) (name : String) : Option String :=
  let qualifier := p.name.toList ++ ['.']
  if qualifier.isPrefixOf name.toList then
    some (String.ofList (name.toList.drop qualifier.length))
  else
    none

/-- The namespaces of a program in scope order. Of several for one scope the last holds. -/
def namespaces (p : Program) : List (NamespaceScope × String) :=
  NamespaceScope.every.filterMap fun scope =>
    (p.document.namespaces.reverse.find? (·.scope = scope)).map fun decl => (scope, decl.name)

def locate (p : Program) (position : Position) : Location :=
  p.document.locate position

end Program

end ThriftIdl
