import Mathlib.Data.List.Induction
import ThriftIdl.Schema

namespace ThriftIdl

/-- Records in one list for each kind, in the order in which they are filed. -/
structure RecordLists (α : Type) where
  structs : List α
  unions : List α
  exceptions : List α
deriving DecidableEq, Repr

namespace RecordLists

variable {α : Type}

def empty : RecordLists α := ⟨[], [], []⟩

def push (lists : RecordLists α) (kind : RecordKind) (a : α) : RecordLists α :=
  match kind with
  | .struct => { lists with structs := lists.structs ++ [a] }
  | .union => { lists with unions := lists.unions ++ [a] }
  | .exception => { lists with exceptions := lists.exceptions ++ [a] }

def all (lists : RecordLists α) : List α := lists.structs ++ lists.unions ++ lists.exceptions

end RecordLists

/-- The declarations of a document in one list for each kind. -/
structure DocumentLists where
  namespaces : List NamespaceDecl
  includes : List IncludeDecl
  typedefs : List TypedefDecl
  enums : List EnumDecl
  records : RecordLists RecordDecl
  services : List ServiceDecl
deriving DecidableEq, Repr

namespace DocumentLists

def empty : DocumentLists := ⟨[], [], [], [], .empty, []⟩

def push (lists : DocumentLists) : Declaration → DocumentLists
  | .scoping decl => { lists with namespaces := lists.namespaces ++ [decl] }
  | .inclusion decl => { lists with includes := lists.includes ++ [decl] }
  | .typedef decl => { lists with typedefs := lists.typedefs ++ [decl] }
  | .enum decl => { lists with enums := lists.enums ++ [decl] }
  | .record decl => { lists with records := lists.records.push decl.kind decl }
  | .service decl => { lists with services := lists.services ++ [decl] }

def ofDeclarations (declarations : List Declaration) : DocumentLists :=
  declarations.foldl push empty

/-- Declarations that are filed one after another lie in the list of their kind in the order of the
text. -/
theorem ofDeclarations_eq (d : Document) : ofDeclarations d.declarations =
    ⟨d.namespaces, d.includes, d.typedefs, d.enums,
      ⟨d.recordsOf .struct, d.recordsOf .union, d.recordsOf .exception⟩, d.services⟩ := by
  obtain ⟨file, declarations⟩ := d
  unfold ofDeclarations Document.namespaces Document.includes Document.typedefs Document.enums
    Document.recordsOf Document.services
  dsimp only
  induction declarations using List.reverseRecOn with
  | nil => rfl
  | append_singleton declarations decl ih =>
    rw [List.foldl_append, List.foldl_cons, List.foldl_nil, ih]
    simp only [List.filterMap_append, List.filterMap_cons, List.filterMap_nil]
    cases decl with
    | scoping decl | inclusion decl | typedef decl | enum decl | service decl => simp [push]
    | record decl => cases hkind : decl.kind <;> simp [push, RecordLists.push, hkind]

theorem all_ofDeclarations (d : Document) : (ofDeclarations d.declarations).records.all = d.records := by
  rw [ofDeclarations_eq]
  rfl

end DocumentLists

/-- The records of a schema, filed one after another. -/
def Schema.recordLists (s : Schema) : RecordLists Record :=
  s.records.foldl (fun lists record => lists.push record.kind record) .empty

theorem Schema.recordLists_eq (s : Schema) : s.recordLists = ⟨s.structs, s.unions, s.exceptions⟩ := by
  unfold recordLists structs unions exceptions recordsOf
  induction s.records using List.reverseRecOn with
  | nil => rfl
  | append_singleton records record ih =>
    rw [List.foldl_append, List.foldl_cons, List.foldl_nil, ih]
    cases hkind : record.kind <;> simp [RecordLists.push, List.filter_append, hkind]

namespace Document

variable {d : Document}

theorem mem_recordsOf {kind : RecordKind} {decl : RecordDecl} :
    decl ∈ d.recordsOf kind ↔ decl ∈ d.records ∧ decl.kind = kind := by
  have hm (kind : RecordKind) : decl ∈ d.recordsOf kind ↔
      .record decl ∈ d.declarations ∧ decl.kind = kind := by
    unfold recordsOf
    rw [List.mem_filterMap]
    constructor
    · rintro ⟨outer, ho, he⟩
      cases outer <;> simp only [reduceCtorEq, Option.ite_none_right_eq_some,
        Option.some.injEq] at he
      obtain ⟨hk, rfl⟩ := he
      exact ⟨ho, hk⟩
    · rintro ⟨ho, hk⟩
      exact ⟨_, ho, by simp [hk]⟩
  unfold records
  simp only [List.mem_append, hm]
  cases decl.kind <;> simp

theorem declared_of_filterMap {α : Type} {kind : Declaration → Option α}
    {wrap : α → Declaration} {a : α} (h : ∀ decl, kind decl = some a → decl = wrap a)
    (hm : a ∈ d.declarations.filterMap kind) : wrap a ∈ d.declarations := by
  obtain ⟨decl, hdecl, he⟩ := List.mem_filterMap.1 hm
  exact h decl he ▸ hdecl

theorem declared_typedef {decl : TypedefDecl} (hm : decl ∈ d.typedefs) :
    .typedef decl ∈ d.declarations :=
  declared_of_filterMap (fun outer he => by cases outer <;> simp_all) hm

theorem declared_enum {decl : EnumDecl} (hm : decl ∈ d.enums) :
    .enum decl ∈ d.declarations :=
  declared_of_filterMap (fun outer he => by cases outer <;> simp_all) hm

theorem declared_record {decl : RecordDecl} (hm : decl ∈ d.records) :
    .record decl ∈ d.declarations := by
  have hkind : decl ∈ d.recordsOf decl.kind := mem_recordsOf.2 ⟨hm, rfl⟩
  exact declared_of_filterMap (fun outer he => by cases outer <;> simp_all) hkind

theorem declared_service {decl : ServiceDecl} (hm : decl ∈ d.services) :
    .service decl ∈ d.declarations :=
  declared_of_filterMap (fun outer he => by cases outer <;> simp_all) hm

theorem declarationCount_eq (d : Document) : d.declarationCount =
    d.typedefs.length + d.enums.length + (d.recordsOf .struct).length +
      (d.recordsOf .union).length + (d.recordsOf .exception).length + d.services.length := by
  obtain ⟨file, declarations⟩ := d
  unfold declarationCount typedefs enums recordsOf services
  dsimp only
  induction declarations with
  | nil => rfl
  | cons decl declarations ih =>
    cases decl with
    | scoping decl => simpa [Declaration.isHeader] using ih
    | inclusion decl => simpa [Declaration.isHeader] using ih
    | typedef decl =>
      simp [Declaration.isHeader] at ih ⊢
      omega
    | enum decl =>
      simp [Declaration.isHeader] at ih ⊢
      omega
    | record decl =>
      cases hkind : decl.kind <;> simp [Declaration.isHeader, hkind] at ih ⊢ <;>
        omega
    | service decl =>
      simp [Declaration.isHeader] at ih ⊢
      omega

end Document

end ThriftIdl
