import ThriftIdl.Visibility

namespace ThriftIdl

structure LinkState where
  programs : List Program
  types : TypeGraph
deriving DecidableEq, Repr

namespace LinkState

def ofPrograms (programs : List Program) : LinkState :=
  ⟨programs, .initial⟩

def lookupType (st : LinkState) (program : ProgramId) (name : String) : Option TypeId :=
  ThriftIdl.lookupType st.programs program name

def lookupService (st : LinkState) (program : ProgramId) (name : String) : Option ServiceId :=
  ThriftIdl.lookupService st.programs program name

def defineType (st : LinkState) (program : ProgramId) (name : String) (id : TypeId) : LinkState :=
  { st with programs := st.programs.modify program (·.defineType name id) }

def defineUser (program : ProgramId) (st : LinkState) (user : String × UserKind) : LinkState :=
  let (id, types) := st.types.intern (.user user.1 user.2 program)
  { st with types }.defineType program user.1 id

def defineService (st : LinkState) (program : ProgramId) (name : String) (id : ServiceId) :
    LinkState :=
  { st with programs := st.programs.modify program (·.defineService name id) }

end LinkState

/-- Connects declarations. The state is kept when a fault is found. -/
abbrev Linking := ExceptT LoadError (StateM LinkState)

namespace Linking

def refuse {α : Type} (location : Location) (fault : LinkFault) : Linking α :=
  throw (.unlinkable location fault)

def refuseIf (location : Location) : Option LinkFault → Linking Unit
  | some fault => refuse location fault
  | none => return ()

def resolving {α : Type} (location : Location) (r : Resolving α) : Linking α :=
  fun st =>
    match r.run st.types with
    | (.ok value, types) => (.ok value, { st with types })
    | (.error fault, types) => (.error (.unlinkable location fault), { st with types })

def intern (node : TypeNode) : Linking TypeId :=
  modifyGet fun st =>
    let (id, types) := st.types.intern node
    (id, { st with types })

def resolve (program : ProgramId) (location : Location) (type : TypeExpr) :
    Linking (Option TypeId) := do
  let st ← get
  resolving location (type.resolve (st.lookupType program))

def resolveKnown (program : ProgramId) (location : Location) (type : TypeExpr) :
    Linking TypeId := do
  match ← resolve program location type with
  | some id => return id
  | none =>
    let st ← get
    let missing := type.firstUnresolved (st.lookupType program)
    refuse location (.unknownType (missing.getD ""))

end Linking

end ThriftIdl
