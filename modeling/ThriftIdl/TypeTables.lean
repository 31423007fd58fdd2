import ThriftIdl.TypeGraph

namespace ThriftIdl

/-- A graph of types in three tables that are kept in step: the nodes, the name of each, and the
handle of each node. -/
structure TypeTables where
  nodes : List TypeNode
  names : List String
  interned : List (TypeNode × TypeId)
deriving DecidableEq, Repr

namespace TypeTables

def empty : TypeTables := ⟨[], [], []⟩

def name (t : TypeTables) (id : TypeId) : String :=
  t.names[id]?.getD ""

def nameOf (t : TypeTables) : TypeNode → String
  | .placeholder => "<placeholder>"
  | .builtin type => type.name
  | .list element => "list<" ++ t.name element ++ ">"
  | .set element => "set<" ++ t.name element ++ ">"
  | .map key value => "map<" ++ t.name key ++ ", " ++ t.name value ++ ">"
  | .user name _ _ => name
  | .typedef name _ _ => name

def intern (t : TypeTables) (node : TypeNode) : TypeId × TypeTables :=
  match t.interned.lookup node with
  | some id => (id, t)
  | none =>
    let id := t.nodes.length
    (id, ⟨t.nodes ++ [node], t.names ++ [t.nameOf node], (node, id) :: t.interned⟩)

def internAll (t : TypeTables) (nodes : List TypeNode) : TypeTables :=
  nodes.foldl (fun t node => (t.intern node).2) t

def new : TypeTables :=
  empty.internAll (.placeholder :: Builtin.every.map .builtin)

def list (t : TypeTables) (element : TypeId) : TypeId × TypeTables :=
  t.intern (.list element)

def set (t : TypeTables) (element : TypeId) : TypeId × TypeTables :=
  t.intern (.set element)

def map (t : TypeTables) (key value : TypeId) : TypeId × TypeTables :=
  t.intern (.map key value)

def user (t : TypeTables) (name : String) (kind : UserKind) (program : ProgramId) :
    TypeId × TypeTables :=
  t.intern (.user name kind program)

def typedef (t : TypeTables) (name : String) (target : TypeId) (program : ProgramId) :
    TypeId × TypeTables :=
  t.intern (.typedef name target program)

/-- The graph that the tables stand for. -/
def graph (t : TypeTables) : TypeGraph :=
  ⟨List.zipWith TypeEntry.mk t.nodes t.names⟩

end TypeTables

end ThriftIdl
