import ThriftIdl.Linking.Basic
import ThriftIdl.Schema

namespace ThriftIdl.Linking

def linkField (program : ProgramId) (locate : Position → Location) (decl : FieldDecl) :
    Linking Field := do
  let location := locate decl.position
  let typeId ← resolveKnown program location decl.type
  return ⟨decl.id, decl.name, decl.requiredness, typeId, decl.documentation, location⟩

def linkFields (program : ProgramId) (locate : Position → Location) (decls : List FieldDecl) :
    Linking (List Field) :=
  decls.mapM (linkField program locate)

end ThriftIdl.Linking
