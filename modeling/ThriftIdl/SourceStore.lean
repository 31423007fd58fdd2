import ThriftIdl.Path

namespace ThriftIdl

inductive SourceFault
  | notFound (path : Path)
  | permissionDenied
deriving DecidableEq, Repr

def SourceFault.message : SourceFault → String
  | notFound path => "file not found in memory: " ++ path.render
  | permissionDenied => "permission denied"

/-- Texts by path, each path once. The locked ones exist but cannot be read. -/
structure SourceStore where
  files : List (Path × String)
  locked : List Path
deriving DecidableEq, Repr

namespace SourceStore

def empty : SourceStore := ⟨[], []⟩

def insert (store : SourceStore) (path : PathExpr) (text : String) : SourceStore :=
  let path := path.normalize
  { store with files := store.files.filter (·.1 ≠ path) ++ [(path, text)] }

def ofFiles (files : List (PathExpr × String)) : SourceStore :=
  files.foldl (fun store file => store.insert file.1 file.2) empty

def lock (store : SourceStore) (path : Path) : SourceStore :=
  { store with locked := path :: store.locked }

def canonicalize (store : SourceStore) (path : PathExpr) : Except SourceFault Path :=
  let path := path.normalize
  if (store.files.lookup path).isSome then .ok path else .error (.notFound path)

def read (store : SourceStore) (path : PathExpr) : Except SourceFault String :=
  let path := path.normalize
  if path ∈ store.locked then .error .permissionDenied
  else
    match store.files.lookup path with
    | some text => .ok text
    | none => .error (.notFound path)

def resolveInclude (base included : PathExpr) : Path :=
  (base.join included).normalize

end SourceStore

end ThriftIdl
