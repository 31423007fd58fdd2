import ThriftIdl.Proofs.ReadableDocuments

namespace ThriftIdl

def EnumMemberDecl.plain (d : EnumMemberDecl) : EnumMemberDecl :=
  { d with position := .start, documentation := "" }

def EnumDecl.plain (d : EnumDecl) : EnumDecl :=
  { d with position := .start, documentation := "", members := d.members.map (·.plain) }

def FieldDecl.plain (d : FieldDecl) : FieldDecl :=
  { d with position := .start, documentation := "" }

def RecordDecl.plain (d : RecordDecl) : RecordDecl :=
  { d with position := .start, documentation := "", fields := d.fields.map (·.plain) }

def FunctionDecl.plain (d : FunctionDecl) : FunctionDecl :=
  { d with
    position := .start
    documentation := ""
    params := d.params.map (·.plain)
    throws := d.throws.map (·.plain) }

def ServiceDecl.plain (d : ServiceDecl) : ServiceDecl :=
  { d with position := .start, documentation := "", functions := d.functions.map (·.plain) }

def NamespaceDecl.plain (d : NamespaceDecl) : NamespaceDecl :=
  { d with position := .start }

def IncludeDecl.plain (d : IncludeDecl) : IncludeDecl :=
  { d with position := .start }

def TypedefDecl.plain (d : TypedefDecl) : TypedefDecl :=
  { d with position := .start, documentation := "" }

/-- A declaration without its documentation and the places it was found at. -/
def Declaration.plain : Declaration → Declaration
  | scoping d => scoping d.plain
  | inclusion d => inclusion d.plain
  | typedef d => typedef d.plain
  | enum d => enum d.plain
  | record d => record d.plain
  | service d => service d.plain

def Declaration.canonicalText : Declaration → String
  | scoping d => d.canonicalText
  | inclusion d => d.canonicalText
  | typedef d => d.canonicalText
  | enum d => d.canonicalText
  | record d => d.canonicalText
  | service d => d.canonicalText

section Texts

variable {x : List Char}

/-- A blank behind something that may be left out. -/
def gapAfter {α : Type} (part : Option α) : List Char := if part.isSome then [' '] else []

theorem isBlank_gapAfter {α : Type} (part : Option α) :
    ∀ c ∈ gapAfter part, Reader.isBlank c = true := by
  cases part with
  | none => exact Reader.blank_nil
  | some _ => exact Reader.blank_space

/-- Items with a closing character behind them, in front of some other text. -/
def blockText {α : Type} (text : α → String) (items : List α) (close : Char) (x : List Char) :
    List Char :=
  items.flatMap (fun a => (text a).toList) ++ close :: x

theorem blockText_cons {α : Type} (text : α → String) (a : α) (items : List α) (close : Char)
    (x : List Char) :
    blockText text (a :: items) close x = (text a).toList ++ blockText text items close x := by
  simp [blockText]

def valueText : Option Int → List Char
  | some value => ' ' :: '=' :: ' ' :: (toString value).toList
  | none => []

theorem EnumMemberDecl.canonicalText_append (d : EnumMemberDecl) (x : List Char) :
    d.canonicalText.toList ++ x = d.name.toList ++ (valueText d.written ++ ';' :: ' ' :: x) := by
  cases hd : d.written <;> simp [canonicalText, valueText, hd]

theorem EnumDecl.canonicalText_append (d : EnumDecl) (x : List Char) :
    d.canonicalText.toList ++ x =
      "enum".toList ++ ' ' :: (d.name.toList ++ ' ' :: '{' :: ' ' ::
        blockText EnumMemberDecl.canonicalText d.members '}' x) := by
  simp [canonicalText, blockText, List.flatMap_map]

def idText : Option Int → List Char
  | some id => (toString id).toList ++ [':']
  | none => []

theorem FieldDecl.canonicalText_append (d : FieldDecl) (x : List Char) :
    d.canonicalText.toList ++ x =
      idText d.written ++ (gapAfter d.written ++ (d.requiredness.modifier.toList ++
        (d.type.render.toList ++ ' ' :: (d.name.toList ++ ';' :: ' ' :: x)))) := by
  cases hd : d.written <;> simp [canonicalText, idText, gapAfter, hd]

theorem RecordDecl.canonicalText_append (d : RecordDecl) (x : List Char) :
    d.canonicalText.toList ++ x =
      d.kind.keyword.toList ++ ' ' :: (d.name.toList ++ ' ' :: '{' :: ' ' ::
        blockText FieldDecl.canonicalText d.fields '}' x) := by
  simp [canonicalText, blockText, List.flatMap_map]

def onewayText (oneway : Bool) : List Char := if oneway then "oneway ".toList else []

def throwsText (throws : List FieldDecl) (x : List Char) : List Char :=
  if throws = [] then x
  else ' ' :: ("throws".toList ++ ' ' :: '(' :: blockText FieldDecl.canonicalText throws ')' x)

theorem FunctionDecl.canonicalText_append (d : FunctionDecl) (x : List Char) :
    d.canonicalText.toList ++ x =
      onewayText d.oneway ++ (d.returns.render.toList ++ ' ' :: (d.name.toList ++ '(' ::
        blockText FieldDecl.canonicalText d.params ')' (throwsText d.throws (';' :: ' ' :: x)))) := by
  have htexts := List.flatMap_map (f := FieldDecl.canonicalText) (g := String.toList)
  by_cases ht : d.throws = []
  · cases ho : d.oneway <;> simp [canonicalText, onewayText, throwsText, blockText, htexts, ht, ho]
  · cases ho : d.oneway <;> simp [canonicalText, onewayText, throwsText, blockText, htexts, ht, ho]

def baseText : Option String → List Char
  | some base => ' ' :: ("extends".toList ++ ' ' :: base.toList)
  | none => []

theorem ServiceDecl.canonicalText_append (d : ServiceDecl) (x : List Char) :
    d.canonicalText.toList ++ x =
      "service".toList ++ ' ' :: (d.name.toList ++ (baseText d.base ++ ' ' :: '{' :: ' ' ::
        blockText FunctionDecl.canonicalText d.functions '}' x)) := by
  cases hd : d.base <;> simp [canonicalText, baseText, blockText, List.flatMap_map, hd]

theorem NamespaceDecl.canonicalText_append (d : NamespaceDecl) (x : List Char) :
    d.canonicalText.toList ++ x =
      if d.scope = .php then "php_namespace".toList ++ ' ' :: ((quoted d.name).toList ++ x)
      else "namespace".toList ++ ' ' ::
        (d.scope.spelling.toList ++ ' ' :: (d.name.toList ++ x)) := by
  by_cases h : d.scope = .php <;> simp [canonicalText, h]

theorem IncludeDecl.canonicalText_append (d : IncludeDecl) (x : List Char) :
    d.canonicalText.toList ++ x =
      (if d.native then "cpp_include".toList else "include".toList) ++
        ' ' :: ((quoted d.path).toList ++ x) := by
  cases h : d.native <;> simp [canonicalText, h]

theorem TypedefDecl.canonicalText_append (d : TypedefDecl) (x : List Char) :
    d.canonicalText.toList ++ x =
      "typedef".toList ++ ' ' :: (d.target.render.toList ++ ' ' :: (d.name.toList ++ x)) := by
  simp [canonicalText]

end Texts

section Begins

open Reader

theorem TypeExpr.Readable.begins {t : TypeExpr} (h : t.Readable) : BeginsWord t.render.toList := by
  cases t with
  | named name => exact h.1.begins
  | list element => exact ⟨'l', by simp [render], by decide⟩
  | set element => exact ⟨'s', by simp [render], by decide⟩
  | map key value => exact ⟨'m', by simp [render], by decide⟩

theorem EnumMemberDecl.Readable.begins {n n' : Numbering} {d : EnumMemberDecl}
    (h : d.Readable n n') : BeginsWord d.canonicalText.toList := by
  rw [← List.append_nil d.canonicalText.toList, d.canonicalText_append]
  exact h.name.begins.append

theorem FieldDecl.Readable.begins_type {n n' : Numbering} {d : FieldDecl} (h : d.Readable n n')
    (x : List Char) :
    BeginsWord (d.requiredness.modifier.toList ++ (d.type.render.toList ++ x)) := by
  cases d.requiredness with
  | required => exact ⟨'r', by simp [Requiredness.modifier], by decide⟩
  | optional => exact ⟨'o', by simp [Requiredness.modifier], by decide⟩
  | unstated => simpa [Requiredness.modifier] using h.type.begins.append

theorem FieldDecl.Readable.unnumbered_type {n n' : Numbering} {d : FieldDecl}
    (h : d.Readable n n') (hnone : d.written = none) (x : List Char) :
    Stops beginsNumber (d.requiredness.modifier.toList ++ (d.type.render.toList ++ x)) := by
  cases hd : d.requiredness with
  | required =>
    simpa [Requiredness.modifier] using stops_cons (p := beginsNumber) (by decide)
  | optional =>
    simpa [Requiredness.modifier] using stops_cons (p := beginsNumber) (by decide)
  | unstated =>
    have hne : d.type.render.toList ≠ [] := List.length_pos_iff.1 h.type.begins.length_pos
    simpa [Requiredness.modifier] using (h.unnumbered hnone hd).append hne x

theorem FieldDecl.Readable.begins {n n' : Numbering} {d : FieldDecl} (h : d.Readable n n') :
    BeginsWord d.canonicalText.toList := by
  rw [← List.append_nil d.canonicalText.toList, d.canonicalText_append]
  cases d.written with
  | some id => exact (beginsWord_toString id).append.append
  | none => exact h.begins_type _

theorem FunctionDecl.Readable.begins {d : FunctionDecl} (h : d.Readable) :
    BeginsWord d.canonicalText.toList := by
  rw [← List.append_nil d.canonicalText.toList, d.canonicalText_append]
  cases d.oneway with
  | true => exact ⟨'o', by simp [onewayText], by decide⟩
  | false => exact h.returns.begins.append

theorem Declaration.begins_canonicalText (d : Declaration) :
    BeginsWord d.canonicalText.toList := by
  cases d with
  | scoping d =>
    by_cases h : d.scope = .php
    · exact ⟨'p', by simp [canonicalText, NamespaceDecl.canonicalText, h], by decide⟩
    · exact ⟨'n', by simp [canonicalText, NamespaceDecl.canonicalText, h], by decide⟩
  | inclusion d =>
    cases h : d.native with
    | true => exact ⟨'c', by simp [canonicalText, IncludeDecl.canonicalText, h], by decide⟩
    | false => exact ⟨'i', by simp [canonicalText, IncludeDecl.canonicalText, h], by decide⟩
  | typedef d => exact ⟨'t', by simp [canonicalText, TypedefDecl.canonicalText], by decide⟩
  | enum d => exact ⟨'e', by simp [canonicalText, EnumDecl.canonicalText], by decide⟩
  | record d =>
    rw [canonicalText, ← List.append_nil d.canonicalText.toList, d.canonicalText_append]
    cases d.kind with
    | struct => exact ⟨'s', by simp [RecordKind.keyword], by decide⟩
    | union => exact ⟨'u', by simp [RecordKind.keyword], by decide⟩
    | exception => exact ⟨'e', by simp [RecordKind.keyword], by decide⟩
  | service d => exact ⟨'s', by simp [canonicalText, ServiceDecl.canonicalText], by decide⟩

end Begins

namespace NamespaceScope

theorem spelling_cases (scope : NamespaceScope) :
    scope.spelling = "*" ∨ Reader.IsWord scope.spelling := by
  cases scope <;> first | exact .inl rfl | exact .inr (by decide)

theorem ofSpelling?_spelling (scope : NamespaceScope) :
    ofSpelling? scope.spelling = some scope := by
  cases scope <;> rfl

end NamespaceScope

end ThriftIdl
