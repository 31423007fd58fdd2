import ThriftIdl.Linking.Basic

namespace ThriftIdl.Linking

def definitions (document : Document) : List (String × Position) :=
  document.declarations.filterMap fun decl => decl.name?.map fun name => (name, decl.position)

/-- The first fault among names, given the ones declared before them. -/
def nameFault? : List (String × Position) → List (String × Position) →
    Option (Position × LinkFault)
  | _, [] => none
  | earlier, (name, position) :: later =>
    if (Builtin.ofName? name).isSome then some (position, .redefinedBuiltin name)
    else
      match earlier.lookup name with
      | some first => some (position, .repeatedDeclaration name first.line)
      | none => nameFault? ((name, position) :: earlier) later

def userTypes (document : Document) : List (String × UserKind) :=
  document.enums.map (fun decl => (decl.name, .enum)) ++
    document.records.map fun decl => (decl.name, .record decl.kind)

def defineUserTypes (program : ProgramId) : Linking Unit := do
  match (← get).programs[program]? with
  | none => return ()
  | some p =>
    match nameFault? [] (definitions p.document) with
    | some (position, fault) => refuse (p.locate position) fault
    | none => modify fun st => (userTypes p.document).foldl (.defineUser program) st

end ThriftIdl.Linking
