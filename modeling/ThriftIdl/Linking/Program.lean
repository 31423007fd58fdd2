import ThriftIdl.Linking.Names
import ThriftIdl.Linking.Services
import ThriftIdl.Linking.Typedefs

namespace ThriftIdl.Linking

def declaredType (program : ProgramId) (name : String) : Linking TypeId :=
  return ((← get).lookupType program name).getD 0

def linkEnum (program : ProgramId) (p : Program) (decl : EnumDecl) : Linking EnumType := do
  let typeId ← declaredType program decl.name
  let members := decl.members.map fun m =>
    ⟨m.name, m.value, m.documentation, p.locate m.position⟩
  return ⟨decl.name, typeId, members, decl.documentation, p.locate decl.position, p.namespaces⟩

def linkTypedef (p : Program) (decl : TypedefDecl) (resolved : ResolvedTypedef) : Typedef :=
  ⟨decl.name, resolved.target, resolved.typeId, decl.documentation, p.locate decl.position,
    p.namespaces⟩

def linkRecord (program : ProgramId) (p : Program) (decl : RecordDecl) : Linking Record := do
  let typeId ← declaredType program decl.name
  let fields ← linkFields program p.locate decl.fields
  return ⟨decl.name, decl.kind, typeId, fields, decl.documentation, p.locate decl.position,
    p.namespaces⟩

/-- Links one program. The programs that it includes have been linked before, and its services get
ids from `first` on. -/
def linkPart (first : ServiceId) (program : ProgramId) : Linking SchemaPart := do
  match (← get).programs[program]? with
  | none => return ⟨[], [], [], []⟩
  | some p =>
    defineUserTypes program
    let resolved ← defineTypedefs program
    let enums ← p.document.enums.mapM (linkEnum program p)
    let typedefs := p.document.typedefs.zipWith (linkTypedef p) resolved
    let records ← p.document.records.mapM (linkRecord program p)
    let services ← linkServices program p first
    return ⟨enums, typedefs, records, services⟩

def linkParts : ServiceId → List ProgramId → Linking (List SchemaPart)
  | _, [] => return []
  | first, program :: order => do
    let part ← linkPart first program
    return part :: (← linkParts (first + part.services.length) order)

def linkAll (order : List ProgramId) : Linking Schema := do
  let parts ← linkParts 0 order
  return .ofParts (← get).types parts

end ThriftIdl.Linking
