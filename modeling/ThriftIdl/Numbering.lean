import ThriftIdl.Numeral

namespace ThriftIdl

structure Numbering where
  next : Int
  used : List Int
deriving DecidableEq, Repr

namespace Numbering

inductive Fault
  | repeated (number : Int)
  | outOfRange
deriving DecidableEq, Repr

def startingAt (first : Int) : Numbering := ⟨first, []⟩

/-- Gives out a number. Later unwritten ones go past it. -/
def give (n : Numbering) (number : Int) : Except Fault (Int × Numbering) :=
  if Numeral.maxInt32 < number then .error .outOfRange
  else if number ∈ n.used then .error (.repeated number)
  else .ok (number, ⟨max n.next (number + 1), number :: n.used⟩)

def assign (n : Numbering) (written : Option Int) : Except Fault (Int × Numbering) :=
  n.give (written.getD n.next)

end Numbering

end ThriftIdl
