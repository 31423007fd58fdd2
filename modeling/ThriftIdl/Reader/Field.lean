import ThriftIdl.Document
import ThriftIdl.Reader.Block
import ThriftIdl.Reader.TypeExpr

namespace ThriftIdl.Reader

def beginsNumber (c : Char) : Bool :=
  c.isDigit || c == '-' || c == '+'

def fieldId (start : Position) : Reader Int := do
  let id ← integer
  if id < 1 then
    failAt start (.nonPositiveFieldId id)
  else
    expect ':' .missingIdSeparator
    return id

def writtenId (start : Position) : Reader (Option Int) := do
  if beginsNumber (← peek true) then
    return some (← fieldId start)
  else
    return none

def fieldType : Reader (Requiredness × TypeExpr) := do
  match ← typeExpr with
  | .named "required" => return (.required, ← typeExpr)
  | .named "optional" => return (.optional, ← typeExpr)
  | type => return (.unstated, type)

def noDefault : Reader Unit := do
  let mark ← get
  if (← peek false) = '=' then fail .defaultValue else set mark

def field (doc : String) (numbering : Numbering) : Reader (FieldDecl × Numbering) := do
  let start ← position
  let written ← writtenId start
  let (requiredness, type) ← fieldType
  let name ← identifier false
  noDefault
  let following ← trailing true
  match numbering.assign written with
  | .ok (id, numbering) =>
    return (⟨start, joinDocumentation doc following, written, id, requiredness, type, name⟩,
      numbering)
  | .error (.repeated id) => failAt start (.repeatedFieldId id)
  | .error .outOfRange => failAt start .fieldIdOutOfRange

def fields (close : Char) : Reader (List FieldDecl) :=
  itemsUntil close field (.startingAt 1)

def recordDecl (kind : RecordKind) (start : Position) (doc : String) : Reader RecordDecl := do
  let name ← identifier false
  expect '{' (.missingBrace kind.keyword name)
  return ⟨start, doc, kind, name, ← fields '}'⟩

end ThriftIdl.Reader
