import ThriftIdl.ScanSession

namespace ThriftIdl

/-- A place in a text by its offset, which may lie behind the end. `line` counts the line breaks
that have been counted so far, and the current line begins at `lineStart`. -/
structure Place where
  offset : Nat
  line : Nat
  lineStart : Nat
deriving DecidableEq, Repr

namespace Place

def start : Place := ⟨0, 0, 0⟩

def move (p : Place) (count : Nat) : Place := { p with offset := p.offset + count }

def newLine (p : Place) : Place := { p with line := p.line + 1, lineStart := p.offset }

def position (p : Place) : Position := ⟨p.line + 1, p.offset - p.lineStart + 1⟩

def InOrder (p : Place) : Prop := p.lineStart ≤ p.offset

instance (p : Place) : Decidable p.InOrder := inferInstanceAs (Decidable (_ ≤ _))

/-- What is left to read at a place. -/
def cursor (text : List Char) (p : Place) : Cursor :=
  ⟨text.drop p.offset, p.offset, p.line, p.lineStart⟩

end Place

/-- What must not happen in a scan: a character or a slice is taken that the text does not have, a
line begins behind the place that is on it, or the scan does not end. -/
inductive Overrun
  | index (offset : Nat)
  | slice (first last : Nat)
  | column (place : Place)
  | retreat (place : Place)
  | turns
deriving DecidableEq, Repr

inductive ScanStop
  | overrun (o : Overrun)
  | refused (e : SyntaxError)
deriving DecidableEq, Repr

/-- Reading of a text by offsets, with every access to the text checked. A scan that stops leaves
the place where it has stopped. -/
abbrev Scan := ReaderT (List Char) (ExceptT ScanStop (StateM Place))

namespace Scan

variable {α σ : Type}

def outcome (m : Scan α) (text : List Char) (p : Place) : Except ScanStop α × Place :=
  (m.run text).run p

def length : Scan Nat :=
  return (← read).length

def offset : Scan Nat :=
  return (← get).offset

def peek? : Scan (Option Char) :=
  return (← read)[(← offset)]?

def peekSecond? : Scan (Option Char) :=
  return (← read)[(← offset) + 1]?

def charAt (place : Nat) : Scan Char := do
  match (← read)[place]? with
  | some ch => return ch
  | none => throw (.overrun (.index place))

/-- The characters from one offset to another, both of which lie in the text and in order. -/
def slice (first last : Nat) : Scan (List Char) := do
  let text ← read
  if first ≤ last ∧ last ≤ text.length then
    return (text.take last).drop first
  else
    throw (.overrun (.slice first last))

def move (count : Nat) : Scan Unit :=
  modify (·.move count)

/-- Passes a character, and counts the line break if it is one. -/
def pass (ch : Char) : Scan Unit := do
  move 1
  if ch = '\n' then modify .newLine

/-- Goes back by one character of the line. -/
def retreat : Scan Unit := do
  let p ← get
  if p.lineStart < p.offset then
    set { p with offset := p.offset - 1 }
  else
    throw (.overrun (.retreat p))

def position : Scan Position := do
  let p ← get
  if p.lineStart ≤ p.offset then
    return p.position
  else
    throw (.overrun (.column p))

def refuseAt (position : Position) (fault : SyntaxFault) : Scan α :=
  throw (.refused ⟨position, fault⟩)

def refuse (fault : SyntaxFault) : Scan α := do
  refuseAt (← position) fault

/-- A scan that repeats itself for a number of turns at most. -/
def repeated (body : (σ → Scan α) → σ → Scan α) : Nat → σ → Scan α
  | 0 => fun _ => throw (.overrun .turns)
  | turns + 1 => body (repeated body turns)

/-- A scan that repeats itself. There is a turn for each character of the text, and one more. -/
def loop (body : (σ → Scan α) → σ → Scan α) (s : σ) : Scan α := do
  repeated body ((← length) + 1) s

/-- Passes characters for as long as each of them may stand at its offset. -/
def whileTurn (keep : Nat → Char → Bool) (again : Unit → Scan Unit) (_ : Unit) : Scan Unit := do
  let here ← offset
  if (← peek?).any (keep here) then
    move 1
    again ()
  else
    return ()

def passWhile (keep : Char → Bool) : Scan Unit :=
  loop (whileTurn fun _ => keep) ()

/-- A run of characters. An empty one is refused before anything is taken from the text, as the
place may lie behind its end. -/
def takeRun (keep : Char → Bool) (missing : SyntaxFault) : Scan (List Char) := do
  let first ← offset
  passWhile keep
  let last ← offset
  if first = last then refuse missing else slice first last

def endLine : Scan Unit := do
  if (← offset) < (← length) then pass '\n' else return ()

def restOfLine : Scan (List Char) := do
  let first ← offset
  passWhile (· != '\n')
  let last ← offset
  endLine
  slice first last

def passBlank : Scan Unit := do
  if (← peek?) = some ' ' then move 1 else return ()

def lineComment : Scan String := do
  passBlank
  return String.ofList (CommentText.ofLine (← restOfLine))

/-- What a character of a block comment adds to its text, whether only indentation has been seen
behind it, and how many characters are passed. -/
def marginStep (fresh : Bool) (ch next : Char) : List Char × Bool × Nat :=
  if ch = '\r' then ([], fresh, 1)
  else if !fresh then ([ch], false, 1)
  else if ch = '*' then ([], false, if next = ' ' then 2 else 1)
  else if Text.isWhiteSpace ch then ([], true, 1)
  else ([ch], false, 1)

/-- A block comment behind its opening mark, with what has been found of its text. A character is
looked at together with the one behind it, so that the last one of the text is never reached. -/
def blockTurn (start : Position) (again : List Char × Bool → Scan String) :
    List Char × Bool → Scan String
  | (found, fresh) => do
    let here ← offset
    if here + 1 < (← length) then
      let ch ← charAt here
      let next ← charAt (here + 1)
      if ch = '*' ∧ next = '/' then
        move 2
        return String.ofList (Text.trim Text.isWhiteSpace found)
      else if ch = '\n' then
        pass ch
        again (found ++ [ch], true)
      else
        let (added, fresh, count) := marginStep fresh ch next
        move count
        again (found ++ added, fresh)
    else
      refuseAt start .unterminatedComment

def blockTail (start : Position) : Scan String :=
  loop (blockTurn start) ([], true)

def comment : Scan String := do
  let start ← position
  match ← peek? with
  | some '#' =>
    move 1
    lineComment
  | some '/' =>
    move 1
    match ← peek? with
    | some '/' =>
      move 1
      lineComment
    | some '*' =>
      move 1
      blockTail start
    | _ => refuseAt start .strayCommentStart
  | _ => refuseAt start .strayCommentStart

def skip (acrossComments : Bool) : Scan Unit :=
  loop (fun again _ => do
    match ← peek? with
    | none => return ()
    | some ch =>
      if Reader.isBlank ch then
        pass ch
        again ()
      else if acrossComments ∧ (ch = '/' ∨ ch = '#') then
        let _ ← comment
        again ()
      else
        return ()) ()

def comments : Scan (List String) :=
  loop (fun again found => do
    skip false
    match ← peek? with
    | some '/' | some '#' =>
      let text ← comment
      again (found ++ [text])
    | _ => return found) []

def documentation : Scan String :=
  return Text.joinLines (← comments)

def separatorTurn (again : Bool → Scan Unit) (separator : Bool) : Scan Unit := do
  match ← peek? with
  | none => return ()
  | some ch =>
    if separator ∧ (ch = ',' ∨ ch = ';') then
      move 1
      again false
    else if Reader.isLineGap ch then
      move 1
      again separator
    else
      return ()

/-- Passes blanks, and one separator where it may stand. -/
def skipSeparator (separator : Bool) : Scan Unit :=
  loop separatorTurn separator

def closeTurn (again : Unit → Scan Nat) (_ : Unit) : Scan Nat := do
  match ← peek? with
  | none => refuse .trailingCommentLeftOpen
  | some ch =>
    if ch = '\n' then
      refuse .trailingCommentLeftOpen
    else if ch = '*' ∧ (← peekSecond?) = some '/' then
      let last ← offset
      move 2
      return last
    else
      move 1
      again ()

/-- Passes the end of a comment that is closed on its line, and gives the offset where that is. -/
def closeOnLine : Scan Nat :=
  loop closeTurn ()

def lineEndTurn (again : Unit → Scan Unit) (_ : Unit) : Scan Unit := do
  match ← peek? with
  | none => return ()
  | some ch =>
    if ch = '\n' then
      pass ch
    else if CommentText.isLineBlank ch then
      move 1
      again ()
    else
      refuse .textAfterTrailingComment

/-- Nothing but blanks may stand behind the comment. -/
def endOfLine : Scan Unit :=
  loop lineEndTurn ()

def trailingBlock : Scan String := do
  let first ← offset
  let last ← closeOnLine
  endOfLine
  return String.ofList (CommentText.ofTrailing (← slice first last))

def trailingLine : Scan String :=
  return String.ofList (CommentText.ofTrailing (← restOfLine))

def trailing (separator : Bool) : Scan String := do
  skipSeparator separator
  match ← peek? with
  | some '#' =>
    move 1
    trailingLine
  | some '/' =>
    move 1
    match ← peek? with
    | some '/' =>
      move 1
      trailingLine
    | some '*' =>
      move 1
      trailingBlock
    | _ =>
      retreat
      refuse .slashWithoutComment
  | _ => return ""

def peek (acrossComments : Bool) : Scan Char := do
  skip acrossComments
  match ← peek? with
  | some ch => return ch
  | none => refuse .unexpectedEndOfFile

def next : Scan Char := do
  let ch ← peek true
  move 1
  return ch

def expect (expected : Char) (fault : SyntaxFault) : Scan Unit := do
  let start ← position
  let found ← next
  if found = expected then return () else refuseAt start fault

def escaped (quote : Char) : Scan Char := do
  match ← peek? with
  | none => refuse .unexpectedEndOfInput
  | some ch =>
    move 1
    match Reader.unescape? quote ch with
    | some value => return value
    | none => refuse (.invalidEscape ch)

def literalTail (start : Position) (quote : Char) : Scan String :=
  loop (fun again found => do
    match ← peek? with
    | none => refuseAt start .unterminatedLiteral
    | some ch =>
      if ch = quote then
        move 1
        return String.ofList found.reverse
      else if ch = '\\' then
        move 1
        let value ← escaped quote
        again (value :: found)
      else
        pass ch
        again (ch :: found)) []

def literal : Scan String := do
  skip true
  let start ← position
  match (← peek?).filter Reader.isQuote with
  | some quote =>
    move 1
    literalTail start quote
  | none => refuse .expectedLiteral

def word : Scan String := do
  skip true
  return String.ofList (← takeRun Reader.isWordChar .expectedWord)

/-- What an identifier may begin with are fewer characters than it may go on with. -/
def identifierAt (hyphens : Bool) (first here : Nat) : Char → Bool :=
  if here = first then Reader.isIdentifierStart else Reader.isIdentifierChar hyphens

def identifier (hyphens : Bool) : Scan String := do
  skip true
  let first ← offset
  loop (whileTurn (identifierAt hyphens first)) ()
  let last ← offset
  if first = last then
    refuse .expectedIdentifier
  else
    return String.ofList (← slice first last)

def integer : Scan Int := do
  skip false
  let start ← position
  let run ← takeRun Reader.isNumeralChar .expectedInteger
  match Numeral.int32? run with
  | some value => return value
  | none => refuseAt start (.malformedInteger (String.ofList run))

def scopeName : Scan String := do
  skip true
  match ← peek? with
  | none => refuse .unexpectedEndOfInput
  | some '*' =>
    move 1
    return "*"
  | some _ => word

end Scan

/-- A scanner session by offsets, with the places that have been marked. -/
structure PlaceSession where
  place : Place
  marks : List Place
deriving DecidableEq, Repr

namespace PlaceSession

variable {α : Type}

def start : PlaceSession := ⟨.start, []⟩

def scan (text : List Char) (s : PlaceSession) (m : Scan α) (result : α → ScanResult) :
    Except ScanStop ScanResult × PlaceSession :=
  let (found, place) := m.outcome text s.place
  (found.map result, { s with place })

/-- One step, with the session behind it whether or not it has failed. -/
def step (text : List Char) (s : PlaceSession) :
    ScanStep → Except ScanStop ScanResult × PlaceSession
  | .advance => s.scan text (Scan.move 1) fun _ => .nothing
  | .mark => (.ok (.mark s.marks.length), { s with marks := s.marks ++ [s.place] })
  | .reset mark => (.ok .nothing, { s with place := s.marks[mark]?.getD s.place })
  | .skip acrossComments => s.scan text (Scan.skip acrossComments) fun _ => .nothing
  | .peek acrossComments => s.scan text (Scan.peek acrossComments) .char
  | .read => s.scan text Scan.next .char
  | .expect expected message =>
    s.scan text (Scan.expect expected (.reported message)) fun _ => .nothing
  | .documentation => s.scan text Scan.documentation .text
  | .trailing separator => s.scan text (Scan.trailing separator) .text
  | .literal => s.scan text Scan.literal .text
  | .word => s.scan text Scan.word .text
  | .identifier hyphens => s.scan text (Scan.identifier hyphens) .text
  | .scopeName => s.scan text Scan.scopeName .text
  | .integer => s.scan text Scan.integer .number
  | .report message => s.scan text (Scan.refuse (.reported message)) fun (_ : Unit) => .nothing

/-- What comes of some steps one after another, up to the first that fails. -/
def trace (text : List Char) (s : PlaceSession) :
    List ScanStep → List (Except ScanStop ScanResult × PlaceSession)
  | [] => []
  | next :: steps =>
    let out := s.step text next
    out :: match out.1 with
      | .ok _ => trace text out.2 steps
      | .error _ => []

end PlaceSession

namespace ScanSession

/-- What comes of some steps one after another, up to the first that fails. -/
def trace (s : ScanSession) : List ScanStep → List (Except SyntaxError (ScanResult × ScanSession))
  | [] => []
  | next :: steps =>
    s.step next :: match s.step next with
      | .ok (_, s') => s'.trace steps
      | .error _ => []

end ScanSession

end ThriftIdl
