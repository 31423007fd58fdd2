import ThriftIdl.Linking.Basic
import ThriftIdl.Trail

namespace ThriftIdl

structure ResolvedTypedef where
  target : TypeId
  typeId : TypeId
deriving DecidableEq, Repr

namespace Linking

abbrev TypedefEntry := TypedefDecl × Option ResolvedTypedef

def tryTypedef (program : ProgramId) (locate : Position → Location) :
    TypedefEntry → Linking TypedefEntry
  | (decl, some resolved) => return (decl, some resolved)
  | (decl, none) => do
    match ← resolve program (locate decl.position) decl.target with
    | none => return (decl, none)
    | some target =>
      let typeId ← intern (.typedef decl.name target program)
      modify (·.defineType program decl.name typeId)
      return (decl, some ⟨target, typeId⟩)

def pending (entries : List TypedefEntry) : List TypedefDecl :=
  entries.filterMap fun (decl, resolved) => if resolved.isNone then some decl else none

/-- Why none of the pending typedefs can be resolved: an unknown name, or else a cycle among
them. -/
def stuckFault (lookup : String → Option TypeId) (pending : List TypedefDecl) :
    Position × LinkFault :=
  let missing (decl : TypedefDecl) : String := (decl.target.firstUnresolved lookup).getD ""
  let provider (decl : TypedefDecl) : Option Nat := pending.findIdx? (·.name = missing decl)
  match pending.find? fun decl => (provider decl).isNone with
  | some decl => (decl.position, .unknownType (missing decl))
  | none =>
    let trail := Trail.start (fun i => pending[i]?.bind provider) pending.length 0
    match trail.cycle?.map fun places => places.filterMap fun i => pending[i]? with
    | some (first :: others) =>
      (first.position, .circularTypedef ((first :: others).map (·.name)))
    | _ =>
      match pending with
      | decl :: _ => (decl.position, .stuckTypedefs decl.name)
      | [] => (.start, .stuckTypedefs "")

/-- Goes over the typedefs again and again, until all are known or nothing new is. -/
def typedefRounds (program : ProgramId) (locate : Position → Location)
    (entries : List TypedefEntry) : Linking (List TypedefEntry) := do
  if pending entries = [] then
    return entries
  else
    let entries' ← entries.mapM (tryTypedef program locate)
    if (pending entries').length < (pending entries).length then
      typedefRounds program locate entries'
    else
      let (position, fault) := stuckFault ((← get).lookupType program) (pending entries')
      refuse (locate position) fault
termination_by (pending entries).length

def defineTypedefs (program : ProgramId) : Linking (List ResolvedTypedef) := do
  match (← get).programs[program]? with
  | none => return []
  | some p =>
    let entries ← typedefRounds program p.locate (p.document.typedefs.map (·, none))
    return entries.filterMap (·.2)

end Linking

end ThriftIdl
