import ThriftIdl.LoadError
import ThriftIdl.Program

namespace ThriftIdl.LinkOrder

/-- The complaint about an include that leads back to a program being visited. The stack holds
these programs, the oldest first. -/
def circular (programs : List Program) (stack : List ProgramId) (source : Program)
    (inc : Include) : LoadError :=
  let cycle := stack.dropWhile (· ≠ inc.target) ++ [inc.target]
  .unlinkable (source.locate inc.position)
    (.circularInclude (cycle.map fun id =>
      (programs[id]?.map fun p => p.path.fileName).getD ""))

/-- Adds a program behind everything it includes, unless it is among those already done. The
depth bounds how many programs are visited at once. -/
def visit (programs : List Program) :
    Nat → List ProgramId → List ProgramId → ProgramId → Except LoadError (List ProgramId)
  | 0, _, done, _ => return done
  | depth + 1, stack, done, id =>
    match programs[id]? with
    | none => return done
    | some p =>
      if id ∈ done then
        return done
      else do
        let stack := stack ++ [id]
        let done ← p.includes.foldlM (fun done inc =>
          if inc.target ∈ stack then throw (circular programs stack p inc)
          else visit programs depth stack done inc.target) done
        return done ++ [id]

def ofRoots (programs : List Program) (roots : List ProgramId) :
    Except LoadError (List ProgramId) :=
  roots.foldlM (visit programs programs.length []) []

end ThriftIdl.LinkOrder
