import ThriftIdl.Builtin
import ThriftIdl.Document

namespace ThriftIdl

abbrev ProgramId := Nat

inductive UserKind
  | record (kind : RecordKind)
  | enum
deriving DecidableEq, Repr

def UserKind.keyword : UserKind → String
  | record kind => kind.keyword
  | enum => "enum"

inductive TypeNode
  | placeholder
  | builtin (type : Builtin)
  | list (element : TypeId)
  | set (element : TypeId)
  | map (key value : TypeId)
  | user (name : String) (kind : UserKind) (program : ProgramId)
  | typedef (name : String) (target : TypeId) (program : ProgramId)
deriving DecidableEq, Repr

structure TypeEntry where
  node : TypeNode
  name : String
deriving DecidableEq, Repr

/-- All types of one load, each once. The handle of a type is its place. -/
structure TypeGraph where
  entries : List TypeEntry
deriving DecidableEq, Repr

namespace TypeGraph

def size (g : TypeGraph) : Nat := g.entries.length

def node (g : TypeGraph) (id : TypeId) : TypeNode :=
  (g.entries[id]?.map TypeEntry.node).getD .placeholder

def name (g : TypeGraph) (id : TypeId) : String :=
  (g.entries[id]?.map TypeEntry.name).getD ""

def nameOf (g : TypeGraph) : TypeNode → String
  | .placeholder => "<placeholder>"
  | .builtin type => type.name
  | .list element => "list<" ++ g.name element ++ ">"
  | .set element => "set<" ++ g.name element ++ ">"
  | .map key value => "map<" ++ g.name key ++ ", " ++ g.name value ++ ">"
  | .user name _ _ => name
  | .typedef name _ _ => name

/-- The handle of a node, which is added at the end if the graph does not hold it yet. -/
def intern (g : TypeGraph) (node : TypeNode) : TypeId × TypeGraph :=
  match g.entries.findIdx? (·.node = node) with
  | some id => (id, g)
  | none => (g.size, ⟨g.entries ++ [⟨node, g.nameOf node⟩]⟩)

theorem intern_entries (g : TypeGraph) (node : TypeNode) :
    ∃ added, (g.intern node).2.entries = g.entries ++ added := by
  unfold intern
  split
  · exact ⟨[], by simp⟩
  · exact ⟨_, rfl⟩

theorem node_eq_of_getElem? {g : TypeGraph} {id : TypeId} {entry : TypeEntry}
    (h : g.entries[id]? = some entry) : g.node id = entry.node := by
  simp [TypeGraph.node, h]

theorem node_intern (g : TypeGraph) (node : TypeNode) :
    (g.intern node).2.node (g.intern node).1 = node := by
  unfold intern
  split
  case h_1 id found =>
    obtain ⟨h, hnode, _⟩ := List.findIdx?_eq_some_iff_getElem.1 found
    rw [node_eq_of_getElem? (List.getElem?_eq_getElem h)]
    simpa using hnode
  case h_2 => simp [TypeGraph.node, size]

def initial : TypeGraph :=
  ⟨⟨.placeholder, "<placeholder>"⟩ ::
    Builtin.every.map fun type => ⟨.builtin type, type.name⟩⟩

/-- The type at the end of a chain of typedefs. Typedefs point to older types. -/
def trueType (g : TypeGraph) (id : TypeId) : TypeId :=
  match g.node id with
  | .typedef _ target _ => if target < id then g.trueType target else id
  | _ => id
termination_by id

def isPlaceholder (g : TypeGraph) (id : TypeId) : Bool :=
  g.node id matches .placeholder

def isBuiltin (g : TypeGraph) (id : TypeId) : Bool :=
  g.node id matches .builtin _

def isTypedef (g : TypeGraph) (id : TypeId) : Bool :=
  g.node id matches .typedef ..

def isEnum (g : TypeGraph) (id : TypeId) : Bool :=
  g.node id matches .user _ .enum _

def isList (g : TypeGraph) (id : TypeId) : Bool :=
  g.node (g.trueType id) matches .list _

def isSet (g : TypeGraph) (id : TypeId) : Bool :=
  g.node (g.trueType id) matches .set _

def isMap (g : TypeGraph) (id : TypeId) : Bool :=
  g.node (g.trueType id) matches .map ..

def userKind (g : TypeGraph) (id : TypeId) : Option UserKind :=
  match g.node (g.trueType id) with
  | .user _ kind _ => some kind
  | _ => none

end TypeGraph

end ThriftIdl
