import ThriftIdl.Document
import ThriftIdl.Reader.Block

namespace ThriftIdl.Reader

/-- The value written for an enum member. Without one, the blanks are left for what follows. -/
def writtenValue : Reader (Option Int) := do
  let mark ← get
  if (← peek false) = '=' then
    advance
    return some (← integer)
  else
    set mark
    return none

def enumMember (doc : String) (numbering : Numbering) : Reader (EnumMemberDecl × Numbering) := do
  let start ← position
  let name ← identifier false
  let written ← writtenValue
  let following ← trailing true
  match numbering.assign written with
  | .ok (value, numbering) =>
    return (⟨start, joinDocumentation doc following, name, written, value⟩, numbering)
  | .error (.repeated value) => failAt start (.repeatedEnumValue value)
  | .error .outOfRange => failAt start .enumValueOutOfRange

def enumDecl (start : Position) (doc : String) : Reader EnumDecl := do
  let name ← identifier false
  expect '{' (.missingBrace "enum" name)
  let members ← itemsUntil '}' enumMember (.startingAt 0)
  return ⟨start, doc, name, members⟩

end ThriftIdl.Reader
