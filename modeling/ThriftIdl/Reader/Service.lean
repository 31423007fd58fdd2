import ThriftIdl.Reader.Field

namespace ThriftIdl.Reader

def returnType : Reader (Bool × TypeExpr) := do
  match ← typeExpr with
  | .named "oneway" => return (true, ← typeExpr)
  | type => return (false, type)

def wordAfter (first : Char) (acrossComments : Bool) : Reader (Option String) := do
  if (← peek acrossComments) = first then
    return some (← word)
  else
    return none

/-- The exceptions of a function. Without the word `throws` there are none, and the blanks are
left for what follows. -/
def throwsClause : Reader (List FieldDecl) := do
  let mark ← get
  if (← wordAfter 't' false) = some "throws" then
    expect '(' .missingThrowsList
    fields ')'
  else
    set mark
    return []

def function (doc : String) (_ : Unit) : Reader (FunctionDecl × Unit) := do
  let start ← position
  let (oneway, returns) ← returnType
  let name ← identifier false
  expect '(' .invalidFunction
  let params ← fields ')'
  let exceptions ← throwsClause
  let following ← trailing true
  return (⟨start, joinDocumentation doc following, oneway, returns, name, params, exceptions⟩, ())

def baseService : Reader (Option String) := do
  match ← wordAfter 'e' true with
  | some "extends" => return some (← identifier false)
  | some keyword => fail (.unexpectedToken keyword)
  | none => return none

def serviceDecl (start : Position) (doc : String) : Reader ServiceDecl := do
  let name ← identifier false
  let base ← baseService
  expect '{' .missingServiceBrace
  return ⟨start, doc, name, base, ← itemsUntil '}' function ()⟩

end ThriftIdl.Reader
