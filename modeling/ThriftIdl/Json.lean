import ThriftIdl.Position

namespace ThriftIdl

/-- A JSON value whose numbers are integers. -/
inductive Json
  | null
  | bool (value : Bool)
  | int (value : Int)
  | str (value : String)
  | arr (items : List Json)
  | obj (members : List (String × Json))
deriving Repr

namespace Json

def ofOption {α : Type} (f : α → Json) : Option α → Json
  | some a => f a
  | none => null

def ofLocation (l : Location) : Json :=
  obj [("column", int l.column), ("file", str l.file), ("line", int l.line)]

end Json

end ThriftIdl
