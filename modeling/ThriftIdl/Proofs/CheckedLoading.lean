import ThriftIdl.Load
import ThriftIdl.Proofs.CheckedParsing

namespace ThriftIdl

/-- What must not happen in a load: a scan leaves its text, something is looked for where it is not,
or the work does not end in the steps there are for it. -/
inductive Breach
  | scan (o : Overrun)
  | program (id : ProgramId)
  | includes (id : ProgramId)
  | mark (id : ProgramId)
  | stack (id : ProgramId)
  | queue
  | depth
deriving DecidableEq, Repr

inductive Stop
  | breach (b : Breach)
  | refused (e : LoadError)
deriving DecidableEq, Repr

/-- Reading of files and ordering of programs by tables, with every access to a text or to a table
checked. -/
abbrev Checked := Except Stop

namespace Checked

def get {α : Type} (table : List α) (place : Nat) (b : Breach) : Checked α :=
  match table[place]? with
  | some entry => .ok entry
  | none => .error (.breach b)

def refusing {α : Type} (result : Except LoadError α) : Checked α :=
  result.mapError .refused

def stopOf (file : String) : ScanStop → Stop
  | .overrun o => .breach (.scan o)
  | .refused e => .refused (.malformed ⟨file, e.position⟩ e.fault)

def parse (file text : String) : Checked Document :=
  (Scan.parse file text).mapError (stopOf file)

end Checked

/-- The programs, the number of each by its path, those whose includes are still to be followed, and
the includes that have been found. A program gets its row of includes when the first include after
it is followed. -/
structure LoadTables where
  programs : List Program
  byPath : List (Path × ProgramId)
  queue : List ProgramId
  includes : List (List Include)
deriving DecidableEq, Repr

namespace LoadTables

def empty : LoadTables := ⟨[], [], [], []⟩

def add (t : LoadTables) (path : Path) (document : Document) : LoadTables :=
  let id := t.programs.length
  { t with
    programs := t.programs ++ [.ofDocument path document]
    byPath := t.byPath ++ [(path, id)]
    queue := t.queue ++ [id] }

def register (store : SourceStore) (t : LoadTables) (path : Path) :
    Checked (ProgramId × LoadTables) := do
  match t.byPath.lookup path with
  | some id => return (id, t)
  | none =>
    let file := path.render
    let text ← .refusing ((store.read path.expr).mapError (.unreadable file ·))
    let document ← .parse file text
    return (t.programs.length, t.add path document)

def registerRoots (store : SourceStore) (roots : List String) :
    Checked (List ProgramId × LoadTables) :=
  roots.foldlM (fun (ids, t) root => do
    let path ← .refusing ((store.canonicalize (.ofString root)).mapError (.unreadable root ·))
    let (id, t) ← t.register store path
    return (if id ∈ ids then ids else ids ++ [id], t)) ([], empty)

def widen (t : LoadTables) : LoadTables :=
  { t with includes := t.includes ++ .replicate (t.programs.length - t.includes.length) [] }

def addInclude (t : LoadTables) (id : ProgramId) (inc : Include) : Checked LoadTables := do
  let p ← .get t.programs id (.program id)
  if p.includes.any (·.target = inc.target) then
    return t
  else
    let row ← .get t.includes id (.includes id)
    let programs := t.programs.set id { p with includes := p.includes ++ [inc] }
    return { t with programs, includes := t.includes.set id (row ++ [inc]) }

def followInclude (space : SearchSpace) (id : ProgramId) (p : Program) (t : LoadTables)
    (decl : IncludeDecl) : Checked LoadTables := do
  match space.find? p.path.directory decl.path with
  | none => .refusing (throw (.unlinkable (p.locate decl.position) (.includeNotFound decl.path)))
  | some path =>
    let (target, t) ← t.register space.store path
    t.widen.addInclude id ⟨target, decl.position⟩

/-- Follows the includes of the programs in the queue until it is empty. -/
def drain (space : SearchSpace) : Nat → LoadTables → Checked LoadTables
  | 0, t => if t.queue = [] then return t else throw (.breach .queue)
  | steps + 1, t =>
    match t.queue with
    | [] => return t
    | id :: queue => do
      let p ← .get t.programs id (.program id)
      let decls := p.document.includes.filter (!·.native)
      drain space steps (← decls.foldlM (followInclude space id p) { t with queue })

/-- The roots, and the tables of everything that is reached from them. No more programs are
followed than there are files. -/
def discover (space : SearchSpace) (roots : List String) :
    Checked (List ProgramId × LoadTables) := do
  let (ids, t) ← registerRoots space.store roots
  let t ← t.drain space space.store.files.length
  return (ids, t.widen)

end LoadTables

inductive Mark
  | unvisited
  | inProgress
  | done
deriving DecidableEq, Repr

structure Tour where
  marks : List Mark
  stack : List ProgramId
  order : List ProgramId
deriving DecidableEq, Repr

namespace Tour

def start (count : Nat) : Tour := ⟨.replicate count .unvisited, [], []⟩

def setMark (w : Tour) (id : ProgramId) (mark : Mark) : Checked Tour := do
  let _ ← .get w.marks id (.mark id)
  return { w with marks := w.marks.set id mark }

def enter (w : Tour) (id : ProgramId) : Checked Tour := do
  let w ← w.setMark id .inProgress
  return { w with stack := w.stack ++ [id] }

def leave (w : Tour) (id : ProgramId) : Checked Tour := do
  let w ← w.setMark id .done
  return { w with stack := w.stack.dropLast, order := w.order ++ [id] }

end Tour

namespace LoadTables

def fileName (t : LoadTables) (id : ProgramId) : Checked String := do
  let p ← .get t.programs id (.program id)
  return p.path.fileName

/-- Refuses an include that leads back to a program that stands on the stack. -/
def refuseCircle {α : Type} (t : LoadTables) (w : Tour) (p : Program) (inc : Include) :
    Checked α := do
  match w.stack.findIdx? (· = inc.target) with
  | none => throw (.breach (.stack inc.target))
  | some start =>
    let names ← (w.stack.drop start ++ [inc.target]).mapM t.fileName
    .refusing (throw (.unlinkable (p.locate inc.position) (.circularInclude names)))

def visitInclude (t : LoadTables) (visit : Tour → ProgramId → Checked Tour) (p : Program)
    (w : Tour) (inc : Include) : Checked Tour := do
  match ← .get w.marks inc.target (.mark inc.target) with
  | .done => return w
  | .inProgress => t.refuseCircle w p inc
  | .unvisited => visit w inc.target

def visit (t : LoadTables) : Nat → Tour → ProgramId → Checked Tour
  | 0, _, _ => throw (.breach .depth)
  | depth + 1, w, id => do
    match ← .get w.marks id (.mark id) with
    | .done => return w
    | _ =>
      let p ← .get t.programs id (.program id)
      let row ← .get t.includes id (.includes id)
      let w ← w.enter id
      let w ← row.foldlM (t.visitInclude (visit t depth) p) w
      w.leave id

/-- No more programs are visited at once than there are. -/
def visitRoots (t : LoadTables) (roots : List ProgramId) : Checked Tour :=
  roots.foldlM (t.visit t.programs.length) (.start t.programs.length)

end LoadTables

def Checked.loadPrograms (space : SearchSpace) (roots : List String) : Checked LoadedPrograms := do
  let (ids, t) ← LoadTables.discover space roots
  let w ← t.visitRoots ids
  return ⟨t.programs, w.order⟩

end ThriftIdl
