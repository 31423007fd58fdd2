import ThriftIdl.LoadError
import ThriftIdl.Program

namespace ThriftIdl

/-- The symbol of the first include that defines a name, plain or qualified. -/
def includedSymbol {α : Type} (symbol : Program → String → Option α) (programs : List Program)
    (p : Program) (name : String) : Option α :=
  p.includes.findSome? fun inc =>
    programs[inc.target]?.bind fun q =>
      symbol q name <|> (q.unqualified? name).bind (symbol q)

def visibleSymbol {α : Type} (symbol : Program → String → Option α) (programs : List Program)
    (id : ProgramId) (name : String) : Option α :=
  match programs[id]? with
  | none => none
  | some p => symbol p name <|> includedSymbol symbol programs p name

def lookupType : List Program → ProgramId → String → Option TypeId :=
  visibleSymbol Program.typeSymbol

def lookupService : List Program → ProgramId → String → Option ServiceId :=
  visibleSymbol Program.serviceSymbol

def TypeExpr.firstUnresolved (lookup : String → Option TypeId) : TypeExpr → Option String
  | .named name =>
    if (Builtin.ofName? name).isSome || (lookup name).isSome then none else some name
  | .list element => element.firstUnresolved lookup
  | .set element => element.firstUnresolved lookup
  | .map key value => key.firstUnresolved lookup <|> value.firstUnresolved lookup

/-- Looks up types, and adds containers to a graph. The graph keeps what was added before a
fault. -/
abbrev Resolving := ExceptT LinkFault (StateM TypeGraph)

def Resolving.intern (node : TypeNode) : Resolving TypeId :=
  modifyGet fun g => g.intern node

/-- The handle of a written type, or nothing if some name in it is unknown. -/
def TypeExpr.resolve (lookup : String → Option TypeId) : TypeExpr → Resolving (Option TypeId)
  | .named name =>
    match Builtin.ofName? name with
    | some .void => throw .misplacedVoid
    | some type => return some type.id
    | none => return lookup name
  | .list element => do
    match ← element.resolve lookup with
    | some element => return some (← Resolving.intern (.list element))
    | none => return none
  | .set element => do
    match ← element.resolve lookup with
    | some element => return some (← Resolving.intern (.set element))
    | none => return none
  | .map key value => do
    let key ← key.resolve lookup
    let value ← value.resolve lookup
    match key, value with
    | some key, some value => return some (← Resolving.intern (.map key value))
    | _, _ => return none

end ThriftIdl
