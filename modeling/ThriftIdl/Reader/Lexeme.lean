import ThriftIdl.Numeral
import ThriftIdl.Reader.Comment

namespace ThriftIdl.Reader

def peek (acrossComments : Bool) : Reader Char := do
  skip acrossComments
  match ← next? with
  | some c => return c
  | none => fail .unexpectedEndOfFile

def read : Reader Char := do
  let c ← peek true
  advance
  return c

/-- Takes an expected character. Another one is reported where the reading began. -/
def expect (expected : Char) (fault : SyntaxFault) : Reader Unit := do
  let start ← position
  let found ← read
  if found = expected then return () else failAt start fault

def isWordChar (c : Char) : Bool :=
  c.isAlphanum || c == '_' || c == '-' || c == '+' || c == '.'

def word : Reader String := do
  skipGap
  let run ← takeWhile isWordChar
  if run = [] then fail .expectedWord else return String.ofList run

def isIdentifierStart (c : Char) : Bool :=
  c.isAlpha || c == '_'

def isIdentifierChar (hyphens : Bool) (c : Char) : Bool :=
  c.isAlphanum || c == '_' || c == '.' || (hyphens && c == '-')

def identifier (hyphens : Bool) : Reader String := do
  skipGap
  if (← next?).any isIdentifierStart then
    return String.ofList (← takeWhile (isIdentifierChar hyphens))
  else
    fail .expectedIdentifier

def unescape? (quote : Char) : Char → Option Char
  | 'a' => some '\x07'
  | 'b' => some '\x08'
  | 'f' => some '\x0c'
  | 'n' => some '\n'
  | 'r' => some '\r'
  | 't' => some '\t'
  | 'v' => some '\x0b'
  | '\\' => some '\\'
  | c => if c = quote then some quote else none

def escaped (quote : Char) : Reader Char := do
  match ← next? with
  | none => fail .unexpectedEndOfInput
  | some c =>
    advance
    match unescape? quote c with
    | some value => return value
    | none => fail (.invalidEscape c)

/-- The rest of a literal, after its opening quote and the characters found so far, the last one
first. -/
def literalTail (start : Position) (quote : Char) (found : List Char) : Reader String :=
  fix (fun again found => do
    match ← next? with
    | none => failAt start .unterminatedLiteral
    | some c =>
      if c = quote then
        advance
        return String.ofList found.reverse
      else if c = '\\' then
        advance
        let value ← escaped quote
        again (value :: found)
      else
        pass c
        again (c :: found)) found

def isQuote (c : Char) : Bool :=
  c == '"' || c == '\''

def literal : Reader String := do
  skipGap
  let start ← position
  match (← next?).filter isQuote with
  | some quote =>
    advance
    literalTail start quote []
  | none => fail .expectedLiteral

def isNumeralChar (c : Char) : Bool :=
  c.isAlphanum || c == '+' || c == '-' || c == '.'

/-- A 32-bit integer. Comments are not skipped in front of it. -/
def integer : Reader Int := do
  skipBlanks
  let start ← position
  let run ← takeWhile isNumeralChar
  if run = [] then
    fail .expectedInteger
  else
    match Numeral.int32? run with
    | some value => return value
    | none => failAt start (.malformedInteger (String.ofList run))

def scopeName : Reader String := do
  skipGap
  match ← next? with
  | none => fail .unexpectedEndOfInput
  | some '*' =>
    advance
    return "*"
  | some _ => word

end ThriftIdl.Reader
