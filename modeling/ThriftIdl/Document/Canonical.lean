import ThriftIdl.Document
import ThriftIdl.Text

namespace ThriftIdl

def quoted (text : String) : String :=
  String.ofList ('"' :: text.toList.flatMap
    (fun c => if c = '"' ∨ c = '\\' then ['\\', c] else [c]) ++ ['"'])

def NamespaceDecl.canonicalText (d : NamespaceDecl) : String :=
  if d.scope = .php then "php_namespace " ++ quoted d.name
  else "namespace " ++ d.scope.spelling ++ " " ++ d.name

def IncludeDecl.canonicalText (d : IncludeDecl) : String :=
  (if d.native then "cpp_include " else "include ") ++ quoted d.path

def TypedefDecl.canonicalText (d : TypedefDecl) : String :=
  "typedef " ++ d.target.render ++ " " ++ d.name

def EnumMemberDecl.canonicalText (d : EnumMemberDecl) : String :=
  match d.written with
  | some value => d.name ++ " = " ++ toString value ++ "; "
  | none => d.name ++ "; "

def EnumDecl.canonicalText (d : EnumDecl) : String :=
  "enum " ++ d.name ++ " \x7b " ++ String.join (d.members.map (·.canonicalText)) ++ "\x7d"

def Requiredness.modifier : Requiredness → String
  | required => "required "
  | optional => "optional "
  | unstated => ""

def FieldDecl.canonicalText (d : FieldDecl) : String :=
  (match d.written with
    | some id => toString id ++ ": "
    | none => "") ++
  d.requiredness.modifier ++ d.type.render ++ " " ++ d.name ++ "; "

def RecordDecl.canonicalText (d : RecordDecl) : String :=
  d.kind.keyword ++ " " ++ d.name ++ " \x7b " ++
    String.join (d.fields.map (·.canonicalText)) ++ "\x7d"

def FunctionDecl.canonicalText (d : FunctionDecl) : String :=
  (if d.oneway then "oneway " else "") ++ d.returns.render ++ " " ++ d.name ++ "(" ++
    String.join (d.params.map (·.canonicalText)) ++ ")" ++
    (if d.throws = [] then ""
      else " throws (" ++ String.join (d.throws.map (·.canonicalText)) ++ ")") ++
    "; "

def ServiceDecl.canonicalText (d : ServiceDecl) : String :=
  "service " ++ d.name ++
    (match d.base with
      | some base => " extends " ++ base
      | none => "") ++
    " \x7b " ++ String.join (d.functions.map (·.canonicalText)) ++ "\x7d"

/-- A document without its documentation and layout: a line for each declaration, with headers
first and then one kind after another. -/
def Document.canonicalText (d : Document) : String :=
  String.join ((d.namespaces.map (·.canonicalText) ++ d.includes.map (·.canonicalText) ++
    d.typedefs.map (·.canonicalText) ++ d.enums.map (·.canonicalText) ++
    d.records.map (·.canonicalText) ++ d.services.map (·.canonicalText)).map (· ++ "\n"))

end ThriftIdl
