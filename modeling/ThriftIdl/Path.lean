namespace ThriftIdl

/-- A path without detours: the names from the root, or from wherever it is used. -/
structure Path where
  rooted : Bool
  names : List String
deriving DecidableEq, Repr

inductive PathStep
  | up
  | down (name : String)
deriving DecidableEq, Repr

structure PathExpr where
  rooted : Bool
  steps : List PathStep
deriving DecidableEq, Repr

namespace PathExpr

def parts : List Char → List (List Char)
  | [] => [[]]
  | '/' :: cs => [] :: parts cs
  | c :: cs =>
    match parts cs with
    | [] => [[c]]
    | first :: others => (c :: first) :: others

/-- Empty parts and single dots are not steps, and two dots go up. -/
def stepOf (part : List Char) : Option PathStep :=
  if part = [] ∨ part = ['.'] then none
  else if part = ['.', '.'] then some .up
  else some (.down (String.ofList part))

def ofString (text : String) : PathExpr :=
  ⟨text.toList.head? = some '/', (parts text.toList).filterMap stepOf⟩

def join (base path : PathExpr) : PathExpr :=
  if path.rooted then path else ⟨base.rooted, base.steps ++ path.steps⟩

end PathExpr

namespace Path

def here : Path := ⟨false, []⟩

/-- One step. Going up leaves the last name, and above the topmost name it leaves the root. -/
def follow (p : Path) : PathStep → Path
  | .down name => ⟨p.rooted, p.names ++ [name]⟩
  | .up => if p.names = [] then here else ⟨p.rooted, p.names.dropLast⟩

def expr (p : Path) : PathExpr :=
  ⟨p.rooted, p.names.map .down⟩

def render (p : Path) : String :=
  (if p.rooted then "/" else "") ++ "/".intercalate p.names

def directory (p : Path) : Path :=
  if p.names = [] then here else ⟨p.rooted, p.names.dropLast⟩

def fileName (p : Path) : String :=
  p.names.getLast?.getD ""

/-- The text before the last dot, unless nothing stands there or there is no dot. -/
def stemOf (name : List Char) : List Char :=
  let before := ((name.reverse.dropWhile (· != '.')).drop 1).reverse
  if before = [] then name else before

def stem (p : Path) : String :=
  String.ofList (stemOf p.fileName.toList)

end Path

def PathExpr.normalize (p : PathExpr) : Path :=
  p.steps.foldl Path.follow ⟨p.rooted, []⟩

namespace Path

theorem foldl_follow_down (p : Path) (names : List String) :
    (names.map .down).foldl follow p = ⟨p.rooted, p.names ++ names⟩ := by
  induction names generalizing p with
  | nil => simp
  | cons name names ih => simp [follow, ih]

theorem normalize_expr (p : Path) : p.expr.normalize = p := by
  simp [PathExpr.normalize, expr, foldl_follow_down]

end Path

end ThriftIdl
