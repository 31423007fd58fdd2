import ThriftIdl.Cursor
import ThriftIdl.SyntaxError

namespace ThriftIdl

abbrev Reader := StateT Cursor (Except SyntaxError)

namespace Reader

variable {α σ : Type}

def failAt (position : Position) (fault : SyntaxFault) : Reader α :=
  throw ⟨position, fault⟩

def position : Reader Position :=
  return (← get).position

def fail (fault : SyntaxFault) : Reader α := do
  failAt (← position) fault

def rest : Reader (List Char) :=
  return (← get).rest

def next? : Reader (Option Char) :=
  return (← rest).head?

def advance : Reader Unit :=
  modify Cursor.advance

def pass (ch : Char) : Reader Unit :=
  modify (·.pass ch)

def passAll (text : List Char) : Reader Unit :=
  modify (·.passAll text)

def passIf (ch : Char) : Reader Unit := do
  if (← next?) = some ch then pass ch else return ()

def takeWhile (p : Char → Bool) : Reader (List Char) := do
  let run := (← rest).takeWhile p
  passAll run
  return run

def skipWhile (p : Char → Bool) : Reader Unit := do
  passAll ((← rest).takeWhile p)

/-- Reading that repeats itself further on. Every repetition has to begin at a later point than
the one before it. -/
def fix (body : (σ → Reader α) → σ → Reader α) (s : σ) (c : Cursor) :
    Except SyntaxError (α × Cursor) :=
  body (fun s' c' => if c'.rest.length < c.rest.length then fix body s' c' else fail .stalled c')
    s c
termination_by c.rest.length

theorem takeWhile_run (p : Char → Bool) (c : Cursor) :
    (takeWhile p).run c = .ok (c.rest.takeWhile p, c.passAll (c.rest.takeWhile p)) := rfl

theorem skipWhile_run (p : Char → Bool) (c : Cursor) :
    (skipWhile p).run c = .ok ((), c.passAll (c.rest.takeWhile p)) := rfl

theorem rest_passAll_takeWhile (p : Char → Bool) (c : Cursor) :
    (c.passAll (c.rest.takeWhile p)).rest = c.rest.dropWhile p := by
  rw [Cursor.rest_passAll]
  induction c.rest with
  | nil => rfl
  | cons ch text ih =>
    cases h : p ch with
    | true => simpa [h] using ih
    | false => simp [h]

end Reader

end ThriftIdl
