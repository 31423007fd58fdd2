import ThriftIdl.Position

namespace ThriftIdl

/-- A point in a text: what is left to read, and where that begins. `line` counts the line breaks
passed so far and `lineStart` is the offset at which the current line begins. -/
structure Cursor where
  rest : List Char
  offset : Nat
  line : Nat
  lineStart : Nat
deriving DecidableEq, Repr

namespace Cursor

def ofList (text : List Char) : Cursor := ⟨text, 0, 0, 0⟩

def ofText (text : String) : Cursor := ofList text.toList

def position (c : Cursor) : Position := ⟨c.line + 1, c.offset - c.lineStart + 1⟩

def atEnd (c : Cursor) : Bool := c.rest.isEmpty

def advance (c : Cursor) : Cursor :=
  { c with rest := c.rest.tail, offset := c.offset + 1 }

def beginLine (c : Cursor) : Cursor :=
  { c with line := c.line + 1, lineStart := c.offset }

def pass (c : Cursor) (ch : Char) : Cursor :=
  if ch = '\n' then c.advance.beginLine else c.advance

def passAll (c : Cursor) (text : List Char) : Cursor :=
  text.foldl pass c

theorem rest_pass (c : Cursor) (ch : Char) : (c.pass ch).rest = c.rest.tail := by
  unfold pass
  split <;> rfl

theorem offset_pass (c : Cursor) (ch : Char) : (c.pass ch).offset = c.offset + 1 := by
  unfold pass
  split <;> rfl

theorem passAll_append (c : Cursor) (s t : List Char) :
    c.passAll (s ++ t) = (c.passAll s).passAll t := by
  simp [passAll]

theorem rest_passAll (c : Cursor) (text : List Char) :
    (c.passAll text).rest = c.rest.drop text.length := by
  induction text generalizing c with
  | nil => rfl
  | cons ch text ih =>
    have step : (c.passAll (ch :: text)).rest = ((c.pass ch).passAll text).rest := rfl
    rw [step, ih, rest_pass, List.length_cons, List.drop_tail]

theorem offset_passAll (c : Cursor) (text : List Char) :
    (c.passAll text).offset = c.offset + text.length := by
  induction text generalizing c with
  | nil => rfl
  | cons ch text ih =>
    have step : (c.passAll (ch :: text)).offset = ((c.pass ch).passAll text).offset := rfl
    rw [step, ih, offset_pass, List.length_cons]
    omega

end Cursor

end ThriftIdl
