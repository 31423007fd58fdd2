import ThriftIdl.Document.Parse
import ThriftIdl.LoadError
import ThriftIdl.Program
import ThriftIdl.SearchSpace

namespace ThriftIdl.Discovery

def register (store : SourceStore) (programs : List Program) (path : Path) :
    Except LoadError (ProgramId × List Program) := do
  match programs.findIdx? (·.path = path) with
  | some id => return (id, programs)
  | none =>
    let file := path.render
    let text ← (store.read path.expr).mapError (.unreadable file ·)
    let document ← (Document.parse file text).mapError fun e =>
      .malformed ⟨file, e.position⟩ e.fault
    return (programs.length, programs ++ [.ofDocument path document])

def followInclude (space : SearchSpace) (id : ProgramId) (p : Program) (programs : List Program)
    (decl : IncludeDecl) : Except LoadError (List Program) := do
  match space.find? p.path.directory decl.path with
  | none => throw (.unlinkable (p.locate decl.position) (.includeNotFound decl.path))
  | some path =>
    let (target, programs) ← register space.store programs path
    return programs.modify id fun p =>
      if p.includes.any (·.target = target) then p
      else { p with includes := p.includes ++ [⟨target, decl.position⟩] }

def followIncludes (space : SearchSpace) (programs : List Program) (id : ProgramId) :
    Except LoadError (List Program) :=
  match programs[id]? with
  | none => return programs
  | some p => (p.document.includes.filter (!·.native)).foldlM (followInclude space id p) programs

def registerRoots (store : SourceStore) (roots : List String) :
    Except LoadError (List ProgramId × List Program) :=
  roots.foldlM (fun (ids, programs) root => do
    let path ← (store.canonicalize (.ofString root)).mapError (.unreadable root ·)
    let (id, programs) ← register store programs path
    return (if id ∈ ids then ids else ids ++ [id], programs)) ([], [])

/-- The roots, and all programs reached from them, breadth first. There are no more programs than
files in the store. -/
def discover (space : SearchSpace) (roots : List String) :
    Except LoadError (List ProgramId × List Program) := do
  let (ids, programs) ← registerRoots space.store roots
  let programs ← (List.range space.store.files.length).foldlM (followIncludes space) programs
  return (ids, programs)

end ThriftIdl.Discovery
