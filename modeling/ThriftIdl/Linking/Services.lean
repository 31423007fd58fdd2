import ThriftIdl.Linking.Fields
import ThriftIdl.Trail

namespace ThriftIdl.Linking

def linkReturnType (program : ProgramId) (location : Location) (type : TypeExpr) :
    Linking TypeId :=
  if type = .void then return Builtin.void.id else resolveKnown program location type

def onewayFault? (decl : FunctionDecl) (returnType : TypeId) : Option LinkFault :=
  if !decl.oneway then none
  else if returnType ≠ Builtin.void.id then some (.onewayResult decl.name)
  else if decl.throws ≠ [] then some (.onewayThrows decl.name)
  else none

def throwsFault? (types : TypeGraph) (function : String) (field : Field) : Option LinkFault :=
  if types.userKind field.typeId = some (.record .exception) then none
  else some (.notAnException (types.name field.typeId) function)

def checkThrown (function : String) (field : Field) : Linking Unit := do
  refuseIf field.location (throwsFault? (← get).types function field)

def linkMethod (program : ProgramId) (locate : Position → Location) (decl : FunctionDecl) :
    Linking Method := do
  let location := locate decl.position
  let returnType ← linkReturnType program location decl.returns
  refuseIf location (onewayFault? decl returnType)
  let params ← linkFields program locate decl.params
  let thrown ← linkFields program locate decl.throws
  thrown.forM (checkThrown decl.name)
  return ⟨decl.name, decl.oneway, returnType, params, thrown, decl.documentation, location⟩

def linkMethods (program : ProgramId) (locate : Position → Location) (service : String) :
    List FunctionDecl → List FunctionDecl → Linking (List Method)
  | _, [] => return []
  | earlier, decl :: later => do
    match earlier.find? (·.name = decl.name) with
    | some first =>
      refuse (locate decl.position)
        (.repeatedFunction decl.name service first.position.line)
    | none =>
      let method ← linkMethod program locate decl
      return method :: (← linkMethods program locate service (decl :: earlier) later)

def linkBase (program : ProgramId) (locate : Position → Location) (decl : ServiceDecl) :
    Linking (Option ServiceId) := do
  match decl.base with
  | none => return none
  | some name =>
    match (← get).lookupService program name with
    | some id => return some id
    | none => refuse (locate decl.position) (.unknownBase name)

/-- The first of a program's services from which inheritance leads back to itself, with the names
on the way. The services have the ids from `first` on, and only they can form a cycle. -/
def inheritanceFault? (first : ServiceId) (decls : List ServiceDecl)
    (bases : List (Option ServiceId)) : Option (Position × LinkFault) :=
  let next (i : Nat) : Option Nat := do
    let base ← (← bases[i]?)
    if first ≤ base then some (base - first) else none
  decls.zipIdx.findSome? fun (decl, i) =>
    let trail := Trail.start next decls.length i
    if trail.reentry = some i then
      let names := (trail.visited ++ [i]).filterMap fun j => decls[j]?.map (·.name)
      some (decl.position, .circularInheritance names)
    else
      none

def linkService (program : ProgramId) (p : Program) (id : ServiceId) (decl : ServiceDecl)
    (base : Option ServiceId) : Linking Service := do
  let methods ← linkMethods program p.locate decl.name [] decl.functions
  return ⟨id, decl.name, base, methods, decl.documentation, p.locate decl.position, p.namespaces⟩

/-- The services of a program, with ids from `first` on. All get their ids before any is linked,
so a service may extend a later one. -/
def linkServices (program : ProgramId) (p : Program) (first : ServiceId) :
    Linking (List Service) := do
  let decls := p.document.services
  modify fun st => decls.zipIdx.foldl
    (fun st (decl, i) => st.defineService program decl.name (first + i)) st
  let bases ← decls.mapM (linkBase program p.locate)
  match inheritanceFault? first decls bases with
  | some (position, fault) => refuse (p.locate position) fault
  | none =>
    (decls.zip bases).zipIdx.mapM fun ((decl, base), i) =>
      linkService program p (first + i) decl base

end ThriftIdl.Linking
