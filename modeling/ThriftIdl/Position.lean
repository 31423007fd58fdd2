namespace ThriftIdl

/-- A place in a text. Lines and columns count from one, and columns count characters. -/
structure Position where
  line : Nat
  column : Nat
deriving DecidableEq, Repr

def Position.start : Position := ⟨1, 1⟩

structure Location where
  file : String
  position : Position
deriving DecidableEq, Repr

namespace Location

def line (l : Location) : Nat := l.position.line

def column (l : Location) : Nat := l.position.column

def render (l : Location) : String :=
  l.file ++ ":" ++ toString l.line ++ ":" ++ toString l.column

end Location

end ThriftIdl
