import ThriftIdl.Reader.Lexeme
import ThriftIdl.TypeExpr

namespace ThriftIdl.Reader

def typeExpr : Reader TypeExpr :=
  fix (fun again _ => do
    match ← word with
    | "list" => do
      expect '<' .missingTypeParameter
      let element ← again ()
      expect '>' .unclosedTypeParameters
      return .list element
    | "set" => do
      expect '<' .missingTypeParameter
      let element ← again ()
      expect '>' .unclosedTypeParameters
      return .set element
    | "map" => do
      expect '<' .missingTypeParameterList
      let key ← again ()
      expect ',' .invalidMapParameters
      let value ← again ()
      expect '>' .unclosedTypeParameters
      return .map key value
    | name => return .named name) ()

end ThriftIdl.Reader
