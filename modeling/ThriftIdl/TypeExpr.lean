namespace ThriftIdl

inductive TypeExpr
  | named (name : String)
  | list (element : TypeExpr)
  | set (element : TypeExpr)
  | map (key value : TypeExpr)
deriving DecidableEq, Repr

namespace TypeExpr

def void : TypeExpr := named "void"

def render : TypeExpr → String
  | named name => name
  | list element => "list<" ++ element.render ++ ">"
  | set element => "set<" ++ element.render ++ ">"
  | map key value => "map<" ++ key.render ++ ", " ++ value.render ++ ">"

def names : TypeExpr → List String
  | named name => [name]
  | list element => element.names
  | set element => element.names
  | map key value => key.names ++ value.names

end TypeExpr

end ThriftIdl
