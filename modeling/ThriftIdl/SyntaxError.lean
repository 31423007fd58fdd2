import ThriftIdl.Position

namespace ThriftIdl

inductive SyntaxFault
  | unexpectedEndOfFile
  | unexpectedEndOfInput
  | strayCommentStart
  | unterminatedComment
  | slashWithoutComment
  | trailingCommentLeftOpen
  | textAfterTrailingComment
  | expectedLiteral
  | unterminatedLiteral
  | invalidEscape (escape : Char)
  | expectedWord
  | expectedIdentifier
  | expectedInteger
  | malformedInteger (text : String)
  | unexpectedElement (word : String)
  | lateHeader
  | invalidScope (name : String)
  | scopedPhpNamespace
  | xsdNamespace
  | constant
  | senum
  | missingTypeParameter
  | missingTypeParameterList
  | unclosedTypeParameters
  | invalidMapParameters
  | missingBrace (keyword name : String)
  | missingServiceBrace
  | unexpectedToken (word : String)
  | invalidFunction
  | missingThrowsList
  | repeatedEnumValue (value : Int)
  | enumValueOutOfRange
  | nonPositiveFieldId (id : Int)
  | missingIdSeparator
  | repeatedFieldId (id : Int)
  | fieldIdOutOfRange
  | defaultValue
  | reported (message : String)
  | stalled
deriving DecidableEq, Repr

namespace SyntaxFault

def message : SyntaxFault → String
  | unexpectedEndOfFile => "unexpected end of file"
  | unexpectedEndOfInput => "unexpected end of input"
  | strayCommentStart => "unexpected start of comment"
  | unterminatedComment => "unterminated comment"
  | slashWithoutComment => "expected '//' or '/*'"
  | trailingCommentLeftOpen => "trailing comment must be closed on the same line"
  | textAfterTrailingComment => "no syntax may follow trailing comment"
  | expectedLiteral => "expected a string literal"
  | unterminatedLiteral => "unterminated string"
  | invalidEscape escape => "invalid escape character: " ++ escape.toString
  | expectedWord => "expected a word"
  | expectedIdentifier => "expected an identifier"
  | expectedInteger => "expected an integer"
  | malformedInteger text => "expected an integer but was " ++ text
  | unexpectedElement word => "unexpected element: " ++ word
  | lateHeader => "namespace and include statements must precede all other declarations"
  | invalidScope name => "invalid namespace scope: " ++ name
  | scopedPhpNamespace => "scoped namespaces for PHP are not supported"
  | xsdNamespace => "xsd_namespace is not supported"
  | constant => "const is not yet implemented"
  | senum => "senum has been deprecated and is not supported"
  | missingTypeParameter => "missing type parameter"
  | missingTypeParameterList => "missing type parameter list"
  | unclosedTypeParameters => "missing closing '>' in parameter list"
  | invalidMapParameters => "invalid map-type parameter list"
  | missingBrace keyword name =>
      "expected an opening brace in " ++ keyword ++ " definition for: " ++ name
  | missingServiceBrace => "expected an opening brace in service definition"
  | unexpectedToken word => "unexpected token: " ++ word
  | invalidFunction => "invalid function definition"
  | missingThrowsList => "expected a list of exception types after 'throws'"
  | repeatedEnumValue value => "duplicate enum value: " ++ toString value
  | enumValueOutOfRange => "enum value out of range"
  | nonPositiveFieldId id => "field ID must be greater than zero, was: " ++ toString id
  | missingIdSeparator => "expected a ':' separator"
  | repeatedFieldId id => "duplicate field ID: " ++ toString id
  | fieldIdOutOfRange => "field ID out of range"
  | defaultValue => "const values are not yet implemented"
  | reported message => message
  | stalled => "no progress"

end SyntaxFault

structure SyntaxError where
  position : Position
  fault : SyntaxFault
deriving DecidableEq, Repr

end ThriftIdl
