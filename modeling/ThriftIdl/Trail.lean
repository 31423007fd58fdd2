namespace ThriftIdl

/-- The places met by going from one place to the next, and the one of them at which the way
comes back, if it does. -/
structure Trail where
  visited : List Nat
  reentry : Option Nat
deriving DecidableEq, Repr

namespace Trail

def extend (next : Nat → Option Nat) : Nat → List Nat → Nat → Trail
  | 0, visited, _ => ⟨visited, none⟩
  | steps + 1, visited, current =>
    match next current with
    | none => ⟨visited, none⟩
    | some place =>
      if place ∈ visited then ⟨visited, some place⟩
      else extend next steps (visited ++ [place]) place

def start (next : Nat → Option Nat) (places : Nat) (first : Nat) : Trail :=
  extend next places [first] first

/-- The part of a trail that comes back to where it began, with that place at both ends. -/
def cycle? (t : Trail) : Option (List Nat) :=
  t.reentry.map fun place => t.visited.dropWhile (· ≠ place) ++ [place]

end Trail

end ThriftIdl
