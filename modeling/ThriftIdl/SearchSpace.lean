import ThriftIdl.SourceStore

namespace ThriftIdl

structure SearchSpace where
  store : SourceStore
  directories : List PathExpr
deriving DecidableEq, Repr

namespace SearchSpace

/-- The file that an include names: next to the including file, or else in the first directory
that has it. -/
def find? (space : SearchSpace) (directory : Path) (included : String) : Option Path :=
  (directory.expr :: space.directories).findSome? fun base =>
    let path := SourceStore.resolveInclude base (.ofString included)
    (space.store.canonicalize path.expr).toOption

end SearchSpace

end ThriftIdl
