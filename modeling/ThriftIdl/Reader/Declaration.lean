import ThriftIdl.Reader.Enum
import ThriftIdl.Reader.Service

namespace ThriftIdl.Reader

/-- A namespace statement, after its keyword. Only the Smalltalk category may hold hyphens. -/
def namespaceDecl (start : Position) : Reader NamespaceDecl := do
  let name ← scopeName
  match NamespaceScope.ofSpelling? name with
  | none => fail (.invalidScope name)
  | some .php => fail .scopedPhpNamespace
  | some scope => return ⟨start, scope, ← identifier (scope = .smalltalkCategory)⟩

def typedefDecl (start : Position) (doc : String) : Reader TypedefDecl := do
  let target ← typeExpr
  return ⟨start, doc, target, ← identifier false⟩

def declaration (doc : String) : Reader Declaration := do
  let start ← position
  match ← word with
  | "namespace" => return .scoping (← namespaceDecl start)
  | "php_namespace" => return .scoping ⟨start, .php, ← literal⟩
  | "xsd_namespace" => fail .xsdNamespace
  | "include" => return .inclusion ⟨start, ← literal, false⟩
  | "cpp_include" => return .inclusion ⟨start, ← literal, true⟩
  | "const" => fail .constant
  | "typedef" => return .typedef (← typedefDecl start doc)
  | "enum" => return .enum (← enumDecl start doc)
  | "senum" => fail .senum
  | "struct" => return .record (← recordDecl .struct start doc)
  | "union" => return .record (← recordDecl .union start doc)
  | "exception" => return .record (← recordDecl .exception start doc)
  | "service" => return .service (← serviceDecl start doc)
  | keyword => failAt start (.unexpectedElement keyword)

/-- Declarations up to the end of the text. A header behind another declaration is refused, once
it has been read. -/
def declarations : Reader (List Declaration) :=
  fix (fun again found => do
    let doc ← documentation
    if (← rest) = [] then
      return found
    else
      let decl ← declaration doc
      if decl.isHeader && found.any (!·.isHeader) then
        failAt decl.position .lateHeader
      else
        again (found ++ [decl])) ([] : List Declaration)

end ThriftIdl.Reader
