import ThriftIdl.Reader.Lexeme

namespace ThriftIdl

inductive ScanStep
  | advance
  | mark
  | reset (mark : Nat)
  | skip (acrossComments : Bool)
  | peek (acrossComments : Bool)
  | read
  | expect (expected : Char) (message : String)
  | documentation
  | trailing (separator : Bool)
  | literal
  | word
  | identifier (hyphens : Bool)
  | scopeName
  | integer
  | report (message : String)
deriving DecidableEq, Repr

inductive ScanResult
  | nothing
  | mark (number : Nat)
  | char (c : Char)
  | text (text : String)
  | number (n : Int)
deriving DecidableEq, Repr

structure ScanSession where
  cursor : Cursor
  marks : List Cursor
deriving DecidableEq, Repr

namespace ScanSession

def start (text : String) : ScanSession := ⟨.ofText text, []⟩

def read {α : Type} (s : ScanSession) (reader : Reader α) (result : α → ScanResult) :
    Except SyntaxError (ScanResult × ScanSession) := do
  let (value, cursor) ← reader.run s.cursor
  return (result value, { s with cursor })

/-- One step. An unknown mark leaves the cursor where it is. -/
def step (s : ScanSession) : ScanStep → Except SyntaxError (ScanResult × ScanSession)
  | .advance => s.read Reader.advance fun _ => .nothing
  | .mark => .ok (.mark s.marks.length, { s with marks := s.marks ++ [s.cursor] })
  | .reset mark => .ok (.nothing, { s with cursor := s.marks[mark]?.getD s.cursor })
  | .skip acrossComments => s.read (Reader.skip acrossComments) fun _ => .nothing
  | .peek acrossComments => s.read (Reader.peek acrossComments) .char
  | .read => s.read Reader.read .char
  | .expect expected message => s.read (Reader.expect expected (.reported message)) fun _ => .nothing
  | .documentation => s.read Reader.documentation .text
  | .trailing separator => s.read (Reader.trailing separator) .text
  | .literal => s.read Reader.literal .text
  | .word => s.read Reader.word .text
  | .identifier hyphens => s.read (Reader.identifier hyphens) .text
  | .scopeName => s.read Reader.scopeName .text
  | .integer => s.read Reader.integer .number
  | .report message => s.read (Reader.fail (.reported message)) fun (_ : Unit) => .nothing

end ScanSession

end ThriftIdl
