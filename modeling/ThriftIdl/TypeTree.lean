import ThriftIdl.TypeGraph

namespace ThriftIdl

inductive TypeTree
  | placeholder
  | builtin (type : Builtin)
  | list (element : TypeTree)
  | set (element : TypeTree)
  | map (key value : TypeTree)
  | user (name : String) (kind : UserKind) (program : ProgramId)
  | typedef (name : String) (target : TypeTree) (program : ProgramId)
deriving DecidableEq, Repr

/-- The type behind a handle. Types are made of older types. -/
def TypeGraph.tree (g : TypeGraph) (id : TypeId) : TypeTree :=
  match g.node id with
  | .placeholder => .placeholder
  | .builtin type => .builtin type
  | .list element => .list (if element < id then g.tree element else .placeholder)
  | .set element => .set (if element < id then g.tree element else .placeholder)
  | .map key value =>
      .map (if key < id then g.tree key else .placeholder)
        (if value < id then g.tree value else .placeholder)
  | .user name kind program => .user name kind program
  | .typedef name target program =>
      .typedef name (if target < id then g.tree target else .placeholder) program
termination_by id

end ThriftIdl
