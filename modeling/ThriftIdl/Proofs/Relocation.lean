import ThriftIdl.Document

namespace ThriftIdl

variable (move : Position → Position)

def EnumMemberDecl.relocate (d : EnumMemberDecl) : EnumMemberDecl :=
  { d with position := move d.position }

def EnumDecl.relocate (d : EnumDecl) : EnumDecl :=
  { d with position := move d.position, members := d.members.map (·.relocate move) }

def FieldDecl.relocate (d : FieldDecl) : FieldDecl :=
  { d with position := move d.position }

def RecordDecl.relocate (d : RecordDecl) : RecordDecl :=
  { d with position := move d.position, fields := d.fields.map (·.relocate move) }

def FunctionDecl.relocate (d : FunctionDecl) : FunctionDecl :=
  { d with
    position := move d.position
    params := d.params.map (·.relocate move)
    throws := d.throws.map (·.relocate move) }

def ServiceDecl.relocate (d : ServiceDecl) : ServiceDecl :=
  { d with position := move d.position, functions := d.functions.map (·.relocate move) }

def NamespaceDecl.relocate (d : NamespaceDecl) : NamespaceDecl :=
  { d with position := move d.position }

def IncludeDecl.relocate (d : IncludeDecl) : IncludeDecl :=
  { d with position := move d.position }

def TypedefDecl.relocate (d : TypedefDecl) : TypedefDecl :=
  { d with position := move d.position }

def Declaration.relocate : Declaration → Declaration
  | scoping d => scoping (d.relocate move)
  | inclusion d => inclusion (d.relocate move)
  | typedef d => typedef (d.relocate move)
  | enum d => enum (d.relocate move)
  | record d => record (d.relocate move)
  | service d => service (d.relocate move)

/-- A document with all its places moved. -/
def Document.relocate (d : Document) : Document :=
  { d with declarations := d.declarations.map (·.relocate move) }

@[simp] theorem Declaration.isHeader_relocate (d : Declaration) :
    (d.relocate move).isHeader = d.isHeader := by
  cases d <;> rfl

section Identity

theorem map_relocate_id (fields : List FieldDecl) :
    fields.map (FieldDecl.relocate id) = fields := List.map_id fields

theorem FunctionDecl.relocate_id (d : FunctionDecl) : d.relocate id = d := by
  simp [relocate, map_relocate_id]

theorem Declaration.relocate_id (d : Declaration) : d.relocate id = d := by
  cases d with
  | scoping | inclusion | typedef => rfl
  | enum d =>
    have hmembers : d.members.map (EnumMemberDecl.relocate id) = d.members := List.map_id _
    simp [relocate, EnumDecl.relocate, hmembers]
  | record d => simp [relocate, RecordDecl.relocate, map_relocate_id]
  | service d =>
    have hfunctions : d.functions.map (FunctionDecl.relocate id) = d.functions :=
      (List.map_congr_left fun f _ => f.relocate_id).trans (List.map_id _)
    simp [relocate, ServiceDecl.relocate, hfunctions]

end Identity

/-- Nothing is left of where something stands. -/
def anywhere (_ : Position) : Position := .start

end ThriftIdl
