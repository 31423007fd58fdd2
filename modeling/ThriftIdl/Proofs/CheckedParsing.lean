import ThriftIdl.Document.Parse
import ThriftIdl.Proofs.CheckedScanning

namespace ThriftIdl

namespace Scan

variable {α σ : Type}

def typeTurn (again : Unit → Scan TypeExpr) (_ : Unit) : Scan TypeExpr := do
  match ← word with
  | "list" =>
    expect '<' .missingTypeParameter
    let element ← again ()
    expect '>' .unclosedTypeParameters
    return .list element
  | "set" =>
    expect '<' .missingTypeParameter
    let element ← again ()
    expect '>' .unclosedTypeParameters
    return .set element
  | "map" =>
    expect '<' .missingTypeParameterList
    let key ← again ()
    expect ',' .invalidMapParameters
    let value ← again ()
    expect '>' .unclosedTypeParameters
    return .map key value
  | name => return .named name

def typeExpr : Scan TypeExpr :=
  loop typeTurn ()

def itemTurn (close : Char) (item : String → σ → Scan (α × σ))
    (again : List α × σ → Scan (List α)) : List α × σ → Scan (List α)
  | (items, s) => do
    let doc ← documentation
    if (← peek true) = close then
      move 1
      return items
    else
      let (value, s') ← item doc s
      again (items ++ [value], s')

def itemsUntil (close : Char) (item : String → σ → Scan (α × σ)) (s : σ) : Scan (List α) :=
  loop (itemTurn close item) ([], s)

/-- The value written for an enum member. To mark a place is to keep it. -/
def writtenValue : Scan (Option Int) := do
  let mark ← get
  if (← peek false) = '=' then
    move 1
    return some (← integer)
  else
    set mark
    return none

def enumMember (doc : String) (numbering : Numbering) : Scan (EnumMemberDecl × Numbering) := do
  let start ← position
  let name ← identifier false
  let written ← writtenValue
  let following ← trailing true
  match numbering.assign written with
  | .ok (value, numbering) =>
    let doc := Reader.joinDocumentation doc following
    return (⟨start, doc, name, written, value⟩, numbering)
  | .error (.repeated value) => refuseAt start (.repeatedEnumValue value)
  | .error .outOfRange => refuseAt start .enumValueOutOfRange

def enumDecl (start : Position) (doc : String) : Scan EnumDecl := do
  let name ← identifier false
  expect '{' (.missingBrace "enum" name)
  let members ← itemsUntil '}' enumMember (.startingAt 0)
  return ⟨start, doc, name, members⟩

def fieldId (start : Position) : Scan Int := do
  let id ← integer
  if id < 1 then
    refuseAt start (.nonPositiveFieldId id)
  else
    expect ':' .missingIdSeparator
    return id

def writtenId (start : Position) : Scan (Option Int) := do
  if Reader.beginsNumber (← peek true) then
    return some (← fieldId start)
  else
    return none

def fieldType : Scan (Requiredness × TypeExpr) := do
  match ← typeExpr with
  | .named "required" => return (.required, ← typeExpr)
  | .named "optional" => return (.optional, ← typeExpr)
  | type => return (.unstated, type)

def noDefault : Scan Unit := do
  let mark ← get
  if (← peek false) = '=' then refuse .defaultValue else set mark

def field (doc : String) (numbering : Numbering) : Scan (FieldDecl × Numbering) := do
  let start ← position
  let written ← writtenId start
  let (requiredness, type) ← fieldType
  let name ← identifier false
  noDefault
  let following ← trailing true
  match numbering.assign written with
  | .ok (id, numbering) =>
    let doc := Reader.joinDocumentation doc following
    return (⟨start, doc, written, id, requiredness, type, name⟩, numbering)
  | .error (.repeated id) => refuseAt start (.repeatedFieldId id)
  | .error .outOfRange => refuseAt start .fieldIdOutOfRange

def fields (close : Char) : Scan (List FieldDecl) :=
  itemsUntil close field (.startingAt 1)

def recordDecl (kind : RecordKind) (start : Position) (doc : String) : Scan RecordDecl := do
  let name ← identifier false
  expect '{' (.missingBrace kind.keyword name)
  return ⟨start, doc, kind, name, ← fields '}'⟩

def returnType : Scan (Bool × TypeExpr) := do
  match ← typeExpr with
  | .named "oneway" => return (true, ← typeExpr)
  | type => return (false, type)

def wordAfter (first : Char) (acrossComments : Bool) : Scan (Option String) := do
  if (← peek acrossComments) = first then
    return some (← word)
  else
    return none

def throwsClause : Scan (List FieldDecl) := do
  let mark ← get
  if (← wordAfter 't' false) = some "throws" then
    expect '(' .missingThrowsList
    fields ')'
  else
    set mark
    return []

def function (doc : String) (_ : Unit) : Scan (FunctionDecl × Unit) := do
  let start ← position
  let (oneway, returns) ← returnType
  let name ← identifier false
  expect '(' .invalidFunction
  let params ← fields ')'
  let exceptions ← throwsClause
  let following ← trailing true
  let doc := Reader.joinDocumentation doc following
  return (⟨start, doc, oneway, returns, name, params, exceptions⟩, ())

def baseService : Scan (Option String) := do
  match ← wordAfter 'e' true with
  | some "extends" => return some (← identifier false)
  | some keyword => refuse (.unexpectedToken keyword)
  | none => return none

def serviceDecl (start : Position) (doc : String) : Scan ServiceDecl := do
  let name ← identifier false
  let base ← baseService
  expect '{' .missingServiceBrace
  return ⟨start, doc, name, base, ← itemsUntil '}' function ()⟩

def namespaceDecl (start : Position) : Scan NamespaceDecl := do
  let name ← scopeName
  match NamespaceScope.ofSpelling? name with
  | none => refuse (.invalidScope name)
  | some .php => refuse .scopedPhpNamespace
  | some scope => return ⟨start, scope, ← identifier (scope = .smalltalkCategory)⟩

def typedefDecl (start : Position) (doc : String) : Scan TypedefDecl := do
  let target ← typeExpr
  return ⟨start, doc, target, ← identifier false⟩

def declaration (doc : String) : Scan Declaration := do
  let start ← position
  match ← word with
  | "namespace" => return .scoping (← namespaceDecl start)
  | "php_namespace" => return .scoping ⟨start, .php, ← literal⟩
  | "xsd_namespace" => refuse .xsdNamespace
  | "include" => return .inclusion ⟨start, ← literal, false⟩
  | "cpp_include" => return .inclusion ⟨start, ← literal, true⟩
  | "const" => refuse .constant
  | "typedef" => return .typedef (← typedefDecl start doc)
  | "enum" => return .enum (← enumDecl start doc)
  | "senum" => refuse .senum
  | "struct" => return .record (← recordDecl .struct start doc)
  | "union" => return .record (← recordDecl .union start doc)
  | "exception" => return .record (← recordDecl .exception start doc)
  | "service" => return .service (← serviceDecl start doc)
  | keyword => refuseAt start (.unexpectedElement keyword)

def declarationTurn (again : List Declaration → Scan (List Declaration))
    (found : List Declaration) : Scan (List Declaration) := do
  let doc ← documentation
  match ← peek? with
  | none => return found
  | some _ =>
    let decl ← declaration doc
    if decl.isHeader && found.any (!·.isHeader) then
      refuseAt decl.position .lateHeader
    else
      again (found ++ [decl])

def declarations : Scan (List Declaration) :=
  loop declarationTurn []

/-- A whole file, read by offsets. -/
def parse (file text : String) : Except ScanStop Document :=
  (declarations.outcome text.toList .start).1.map (⟨file, ·⟩)

end Scan

end ThriftIdl
