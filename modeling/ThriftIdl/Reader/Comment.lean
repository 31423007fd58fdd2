import ThriftIdl.CommentText
import ThriftIdl.Reader.Basic

namespace ThriftIdl.Reader

def isBlank (c : Char) : Bool :=
  c == ' ' || c == '\t' || c == '\r' || c == '\n'

def skipBlanks : Reader Unit :=
  skipWhile isBlank

def restOfLine : Reader (List Char) := do
  let line ← takeWhile (· != '\n')
  passIf '\n'
  return line

def lineComment : Reader String := do
  passIf ' '
  return String.ofList (CommentText.ofLine (← restOfLine))

def comment : Reader String := do
  match ← rest with
  | '#' :: _ =>
    pass '#'
    lineComment
  | '/' :: '/' :: _ =>
    passAll ['/', '/']
    lineComment
  | '/' :: '*' :: text =>
    match CommentText.beforeClose text with
    | some body =>
      passAll (['/', '*'] ++ body ++ ['*', '/'])
      return String.ofList (CommentText.ofBlock body)
    | none => fail .unterminatedComment
  | _ => fail .strayCommentStart

def comments : Reader (List String) :=
  fix (fun again found => do
    skipBlanks
    match ← next? with
    | some '/' | some '#' =>
      let text ← comment
      again (found ++ [text])
    | _ => return found) []

def documentation : Reader String :=
  return Text.joinLines (← comments)

def skipGap : Reader Unit := do
  discard comments

def skip (comments : Bool) : Reader Unit :=
  if comments then skipGap else skipBlanks

def isLineGap (c : Char) : Bool :=
  c == ' ' || c == '\t'

def skipSeparator (separator : Bool) : Reader Unit := do
  skipWhile isLineGap
  match separator, ← next? with
  | true, some ',' | true, some ';' =>
    advance
    skipWhile isLineGap
  | _, _ => return ()

def trailingLine : Reader String :=
  return String.ofList (CommentText.ofTrailing (← restOfLine))

/-- The documentation in a block comment behind a declaration, after its opening mark. The comment
must be closed on its line, and nothing else may follow it there. -/
def trailingBlock : Reader String := do
  let line := (← rest).takeWhile (· != '\n')
  match CommentText.beforeClose line with
  | some body =>
    passAll (body ++ ['*', '/'])
    skipWhile CommentText.isLineBlank
    match ← next? with
    | none => return String.ofList (CommentText.ofTrailing body)
    | some '\n' =>
      pass '\n'
      return String.ofList (CommentText.ofTrailing body)
    | some _ => fail .textAfterTrailingComment
  | none =>
    passAll line
    fail .trailingCommentLeftOpen

/-- The documentation behind a declaration, which stays on its line and may follow one
separator. -/
def trailing (separator : Bool) : Reader String := do
  skipSeparator separator
  match ← rest with
  | '#' :: _ =>
    pass '#'
    trailingLine
  | '/' :: '/' :: _ =>
    passAll ['/', '/']
    trailingLine
  | '/' :: '*' :: _ =>
    passAll ['/', '*']
    trailingBlock
  | '/' :: _ => fail .slashWithoutComment
  | _ => return ""

end ThriftIdl.Reader
