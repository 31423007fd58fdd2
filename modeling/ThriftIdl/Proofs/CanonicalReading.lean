import ThriftIdl.Proofs.CanonicalText
import ThriftIdl.Proofs.SpelledTypes

namespace ThriftIdl

namespace Reader

variable {α σ : Type} {x gap : List Char}

theorem reads_itemsUntil {close : Char} {item : String → σ → Reader (α × σ)}
    {R : σ → α → σ → Prop} (text : α → String) (plain : α → α)
    (hclose : beginsGap close = false ∧ isWordChar close = false)
    (hbegins : ∀ s a s', R s a s' → BeginsWord (text a).toList)
    (hitem : ∀ doc s a s' x, R s a s' → Stops beginsGap x →
      Reads (item doc s) ((text a).toList ++ x) x fun out => plain out.1 = plain a ∧ out.2 = s')
    {s : σ} {items : List α} (hitems : Threaded R s items) (hgap : ∀ c ∈ gap, isBlank c = true) :
    Reads (itemsUntil close item s) (gap ++ blockText text items close x) x
      fun found => found.map plain = items.map plain := by
  refine reads_fix (g := items) (s := ([], s))
    (T := fun items state left => Threaded R state.2 items ∧
      ∃ gap, (∀ c ∈ gap, isBlank c = true) ∧ left = gap ++ blockText text items close x)
    (P := fun items state (found : List α) => found.map plain = (state.1 ++ items).map plain)
    ?_ ⟨hitems, gap, hgap, rfl⟩
  rintro again items ⟨before, s⟩ _ hagain ⟨hitems, gap, hgap, rfl⟩
  cases hitems with
  | nil =>
    have hstops : Stops beginsGap (close :: x) := stops_cons hclose.1
    refine (reads_documentation hgap hstops).then ((reads_peek blank_nil true hstops rfl).then ?_)
    rw [if_pos rfl]
    exact (reads_advance close).bind fun _ _ => reads_pure (by simp)
  | @cons _ s' a items head tail =>
    have hnext : Stops beginsGap (blockText text items close x) := by
      cases tail with
      | nil => exact stops_cons hclose.1
      | cons head _ =>
        rw [blockText_cons]
        exact (hbegins _ _ _ head).append.stops
    have hfirst : BeginsWord ((text a).toList ++ blockText text items close x) :=
      (hbegins _ _ _ head).append
    have hstops := hfirst.stops
    obtain ⟨ch, hch, hword⟩ := hfirst
    have hpos := (hbegins _ _ _ head).length_pos
    rw [blockText_cons] at hagain ⊢
    refine (reads_documentation hgap hstops).then ((reads_peek blank_nil true hstops hch).then ?_)
    rw [if_neg fun h => by simp [h, hclose.2] at hword]
    refine (hitem _ _ _ _ _ head hnext).bind fun out hout => ?_
    -- An item takes the blank behind it, so that only the first one has a gap in front.
    have hrest := hagain items (before ++ [out.1], out.2) (blockText text items close x)
      (by simp only [List.length_append]; omega) ⟨hout.2 ▸ tail, [], blank_nil, rfl⟩
    refine hrest.imp fun found hfound => ?_
    simpa [hout.1] using hfound

theorem reads_typeExpr {t : TypeExpr} (ht : t.Readable) (hgap : ∀ c ∈ gap, isBlank c = true)
    (hx : Stops isWordChar x) :
    Reads typeExpr (gap ++ (t.render.toList ++ x)) x (· = t) := by
  rw [← List.append_assoc]
  exact reads_spaced ht (t.spaced_render hgap) fun _ => hx

theorem reads_wordType {w : String} (hw : (TypeExpr.named w).Readable)
    (hgap : ∀ c ∈ gap, isBlank c = true) :
    Reads typeExpr (gap ++ (w.toList ++ ' ' :: x)) (' ' :: x) (· = .named w) := by
  have hx : Stops isWordChar (' ' :: x) := stops_cons (by decide)
  have h := reads_typeExpr hw hgap hx
  rwa [TypeExpr.render] at h

section Enums

theorem reads_writtenValue {written : Option Int}
    (h : ∀ value ∈ written, Numeral.fitsInt32 value = true) :
    Reads writtenValue (valueText written ++ ';' :: x) (';' :: x) (· = written) := by
  refine reads_get fun mark hmark => ?_
  cases written with
  | some value =>
    refine (reads_peek blank_space false (stops_cons (by decide)) rfl).then ?_
    rw [if_pos rfl]
    refine (reads_advance '=').bind fun _ _ => ?_
    exact (reads_integer blank_space (h value rfl) (stops_cons (by decide))).then (reads_pure rfl)
  | none =>
    refine (reads_peek blank_nil false (stops_cons (by decide)) rfl).then ?_
    rw [if_neg (by decide)]
    exact (reads_set hmark).bind fun _ _ => reads_pure rfl

theorem reads_enumMember {n n' : Numbering} {d : EnumMemberDecl} (doc : String)
    (h : d.Readable n n') (hx : Stops beginsGap x) :
    Reads (enumMember doc n) (d.canonicalText.toList ++ x) x
      fun out => out.1.plain = d.plain ∧ out.2 = n' := by
  have hstops : Stops (isIdentifierChar false) (valueText d.written ++ ';' :: ' ' :: x) := by
    cases d.written <;> exact stops_cons (by decide)
  rw [d.canonicalText_append]
  refine reads_position.bind fun start _ => (reads_identifier gap_nil h.name hstops).then ?_
  refine (reads_writtenValue h.written).then ((reads_trailing hx).then ?_)
  rw [h.assigned]
  exact reads_pure ⟨rfl, rfl⟩

theorem reads_enumDecl {d : EnumDecl} (start : Position) (doc : String) (h : d.Readable) :
    Reads (enumDecl start doc)
      (' ' :: (d.name.toList ++ ' ' :: '{' :: ' ' ::
        blockText EnumMemberDecl.canonicalText d.members '}' x)) x
      fun e => e.plain = d.plain := by
  have hmembers : Reads (itemsUntil '}' enumMember (.startingAt 0))
      ([' '] ++ blockText EnumMemberDecl.canonicalText d.members '}' x) x
      fun found => found.map (·.plain) = d.members.map (·.plain) :=
    reads_itemsUntil (R := EnumMemberDecl.Readable) EnumMemberDecl.canonicalText
      EnumMemberDecl.plain (by decide) (fun _ _ _ h => h.begins)
      (fun doc _ _ _ _ h hx => reads_enumMember doc h hx) h.members blank_space
  refine (reads_identifier gap_space h.name (stops_cons (by decide))).then ?_
  refine (reads_expect gap_space _ (by decide)).bind fun _ _ => ?_
  refine hmembers.bind fun members hmembers => reads_pure ?_
  simp [EnumDecl.plain, hmembers]

end Enums

section Fields

theorem reads_writtenId {written : Option Int} (start : Position)
    (h : ∀ id ∈ written, 1 ≤ id ∧ Numeral.fitsInt32 id = true) (hx : BeginsWord x)
    (hnumber : written = none → Stops beginsNumber x) :
    Reads (writtenId start) (idText written ++ (gapAfter written ++ x)) (gapAfter written ++ x)
      (· = written) := by
  cases written with
  | some id =>
    obtain ⟨hpos, hfits⟩ := h id rfl
    have htext : idText (some id) ++ (gapAfter (some id) ++ x) =
        (toString id).toList ++ ':' :: ' ' :: x := by simp [idText, gapAfter]
    have hbegins : BeginsWord ((toString id).toList ++ ':' :: ' ' :: x) :=
      (beginsWord_toString id).append
    have hstops := hbegins.stops
    obtain ⟨ch, hch, -⟩ := hbegins
    have hmem : ch ∈ (toString id).toList := by
      have hne := Numeral.toList_toString_ne_nil id
      rw [List.head?_append_of_ne_nil _ hne] at hch
      exact List.mem_of_mem_head? hch
    have hbegin : beginsNumber ch = true := by
      rcases Numeral.isDigit_or_of_mem_toString hmem with hdigit | rfl
      · simp [beginsNumber, hdigit]
      · decide
    rw [htext]
    refine (reads_peek blank_nil true hstops hch).then ?_
    rw [if_pos hbegin]
    have hid : Reads (fieldId start) ((toString id).toList ++ ':' :: ' ' :: x) (' ' :: x)
        (· = id) := by
      refine (reads_integer blank_nil hfits (stops_cons (by decide))).then ?_
      rw [if_neg (by omega)]
      exact (reads_expect gap_nil _ (by decide)).bind fun _ _ => reads_pure rfl
    exact hid.then (reads_pure rfl)
  | none =>
    have hstops := hx.stops
    obtain ⟨ch, hch, -⟩ := hx
    refine (reads_peek blank_nil true hstops hch).then ?_
    rw [if_neg (Bool.eq_false_iff.1 (hnumber rfl ch hch))]
    exact reads_pure rfl

theorem reads_fieldType {requiredness : Requiredness} {type : TypeExpr} (ht : type.Readable)
    (hunstated : requiredness = .unstated → type ≠ .named "required" ∧ type ≠ .named "optional")
    (hgap : ∀ c ∈ gap, isBlank c = true) (hx : Stops isWordChar x) :
    Reads fieldType (gap ++ (requiredness.modifier.toList ++ (type.render.toList ++ x))) x
      (· = (requiredness, type)) := by
  cases requiredness with
  | required =>
    have htext : Requiredness.required.modifier.toList ++ (type.render.toList ++ x) =
        "required".toList ++ ' ' :: (type.render.toList ++ x) := by simp [Requiredness.modifier]
    rw [htext]
    refine (reads_wordType ⟨by decide, by decide⟩ hgap).then ?_
    exact (reads_typeExpr ht blank_space hx).then (reads_pure rfl)
  | optional =>
    have htext : Requiredness.optional.modifier.toList ++ (type.render.toList ++ x) =
        "optional".toList ++ ' ' :: (type.render.toList ++ x) := by simp [Requiredness.modifier]
    rw [htext]
    refine (reads_wordType ⟨by decide, by decide⟩ hgap).then ?_
    exact (reads_typeExpr ht blank_space hx).then (reads_pure rfl)
  | unstated =>
    refine (reads_typeExpr ht hgap hx).then ?_
    split
    · exact absurd rfl (hunstated rfl).1
    · exact absurd rfl (hunstated rfl).2
    · exact reads_pure rfl

theorem reads_noDefault : Reads noDefault (';' :: x) (';' :: x) fun _ => True := by
  refine reads_get fun mark hmark => ?_
  refine (reads_peek blank_nil false (stops_cons (by decide)) rfl).then ?_
  rw [if_neg (by decide)]
  exact reads_set hmark

theorem reads_field {n n' : Numbering} {d : FieldDecl} (doc : String) (h : d.Readable n n')
    (hx : Stops beginsGap x) :
    Reads (field doc n) (d.canonicalText.toList ++ x) x
      fun out => out.1.plain = d.plain ∧ out.2 = n' := by
  rw [d.canonicalText_append]
  refine reads_position.bind fun start _ =>
    (reads_writtenId start h.written (h.begins_type _) fun hnone =>
      h.unnumbered_type hnone _).then ?_
  refine (reads_fieldType h.type h.unstated (isBlank_gapAfter _) (stops_cons (by decide))).then ?_
  refine (reads_identifier gap_space h.name (stops_cons (by decide))).then ?_
  refine reads_noDefault.bind fun _ _ => (reads_trailing hx).then ?_
  rw [h.assigned]
  exact reads_pure ⟨rfl, rfl⟩

theorem reads_fields {close : Char} {fs : List FieldDecl}
    (hclose : beginsGap close = false ∧ isWordChar close = false) (h : ReadableFields fs)
    (hgap : ∀ c ∈ gap, isBlank c = true) :
    Reads (fields close) (gap ++ blockText FieldDecl.canonicalText fs close x) x
      fun found => found.map (·.plain) = fs.map (·.plain) :=
  reads_itemsUntil (R := FieldDecl.Readable) FieldDecl.canonicalText FieldDecl.plain hclose
    (fun _ _ _ h => h.begins) (fun doc _ _ _ _ h hx => reads_field doc h hx) h hgap

theorem reads_recordDecl {d : RecordDecl} (start : Position) (doc : String) (h : d.Readable) :
    Reads (recordDecl d.kind start doc)
      (' ' :: (d.name.toList ++ ' ' :: '{' :: ' ' ::
        blockText FieldDecl.canonicalText d.fields '}' x)) x
      fun e => e.plain = d.plain := by
  refine (reads_identifier gap_space h.name (stops_cons (by decide))).then ?_
  refine (reads_expect gap_space _ (by decide)).bind fun _ _ => ?_
  refine (reads_fields (by decide) h.fields blank_space).bind fun found hfound => reads_pure ?_
  simp [RecordDecl.plain, hfound]

end Fields

section Services

theorem reads_returnType {oneway : Bool} {returns : TypeExpr} (ht : returns.Readable)
    (hawaited : oneway = false → returns ≠ .named "oneway") (hx : Stops isWordChar x) :
    Reads returnType (onewayText oneway ++ (returns.render.toList ++ x)) x
      (· = (oneway, returns)) := by
  cases oneway with
  | true =>
    have htext : onewayText true ++ (returns.render.toList ++ x) =
        "oneway".toList ++ ' ' :: (returns.render.toList ++ x) := by simp [onewayText]
    rw [htext]
    refine (reads_wordType (w := "oneway") ⟨by decide, by decide⟩ blank_nil).then ?_
    exact (reads_typeExpr ht blank_space hx).then (reads_pure rfl)
  | false =>
    refine (reads_typeExpr ht blank_nil hx).then ?_
    split
    · exact absurd rfl (hawaited rfl)
    · exact reads_pure rfl

theorem reads_wordAfter {w : String} {first : Char} (acrossComments : Bool) (hw : IsWord w)
    (hfirst : w.toList.head? = some first) (hgap : ∀ c ∈ gap, isBlank c = true)
    (hx : Stops isWordChar x) :
    Reads (wordAfter first acrossComments) (gap ++ (w.toList ++ x)) x (· = some w) := by
  have hhead : (w.toList ++ x).head? = some first := by
    rw [List.head?_append_of_ne_nil _ hw.nonempty, hfirst]
  refine (reads_peek hgap acrossComments hw.begins.append.stops hhead).then ?_
  rw [if_pos rfl]
  exact (reads_word gap_nil hw hx).then (reads_pure rfl)

theorem reads_wordAfter_none {first ch : Char} (acrossComments : Bool) (hne : ch ≠ first)
    (hch : beginsGap ch = false) (hgap : ∀ c ∈ gap, isBlank c = true) :
    Reads (wordAfter first acrossComments) (gap ++ ch :: x) (ch :: x) (· = none) := by
  refine (reads_peek hgap acrossComments (stops_cons hch) rfl).then ?_
  rw [if_neg hne]
  exact reads_pure rfl

theorem reads_throwsClause {throws : List FieldDecl} (h : ReadableFields throws) :
    Reads throwsClause (throwsText throws (';' :: x)) (';' :: x)
      fun found => found.map (·.plain) = throws.map (·.plain) := by
  refine reads_get fun mark hmark => ?_
  by_cases ht : throws = []
  · subst ht
    refine (reads_wordAfter_none false (by decide) (by decide) blank_nil).then ?_
    rw [if_neg (by decide)]
    exact (reads_set hmark).bind fun _ _ => reads_pure rfl
  · rw [throwsText, if_neg ht]
    refine (reads_wordAfter (w := "throws") false (by decide) (by decide) blank_space
      (stops_cons (by decide))).then ?_
    rw [if_pos rfl]
    refine (reads_expect gap_space _ (by decide)).bind fun _ _ => ?_
    exact reads_fields (by decide) h blank_nil

theorem reads_function {d : FunctionDecl} (doc : String) (state : Unit) (h : d.Readable)
    (hx : Stops beginsGap x) :
    Reads (function doc state) (d.canonicalText.toList ++ x) x
      fun out => out.1.plain = d.plain ∧ out.2 = () := by
  rw [d.canonicalText_append]
  refine reads_position.bind fun start _ =>
    (reads_returnType h.returns h.awaited (stops_cons (by decide))).then ?_
  refine (reads_identifier gap_space h.name (stops_cons (by decide))).then ?_
  refine (reads_expect gap_nil _ (by decide)).bind fun _ _ => ?_
  refine (reads_fields (by decide) h.params blank_nil).bind fun params hparams => ?_
  refine (reads_throwsClause h.throws).bind fun throws hthrows => (reads_trailing hx).then ?_
  refine reads_pure ⟨?_, rfl⟩
  simp [FunctionDecl.plain, hparams, hthrows]

theorem reads_baseService {base : Option String} (h : ∀ name ∈ base, IsIdentifier false name) :
    Reads baseService (baseText base ++ ' ' :: '{' :: x) (gapAfter base ++ '{' :: x)
      (· = base) := by
  cases base with
  | some name =>
    have htext : baseText (some name) ++ ' ' :: '{' :: x =
        ' ' :: ("extends".toList ++ ' ' :: (name.toList ++ ' ' :: '{' :: x)) := by
      simp [baseText]
    rw [htext]
    refine (reads_wordAfter (w := "extends") true (by decide) (by decide) blank_space
      (stops_cons (by decide))).then ?_
    exact (reads_identifier gap_space (h name rfl) (stops_cons (by decide))).then
      (reads_pure rfl)
  | none =>
    exact (reads_wordAfter_none true (by decide) (by decide) blank_space).then (reads_pure rfl)

theorem reads_serviceDecl {d : ServiceDecl} (start : Position) (doc : String) (h : d.Readable) :
    Reads (serviceDecl start doc)
      (' ' :: (d.name.toList ++ (baseText d.base ++ ' ' :: '{' :: ' ' ::
        blockText FunctionDecl.canonicalText d.functions '}' x))) x
      fun e => e.plain = d.plain := by
  have hstops : Stops (isIdentifierChar false) (baseText d.base ++ ' ' :: '{' :: ' ' ::
      blockText FunctionDecl.canonicalText d.functions '}' x) := by
    cases d.base <;> exact stops_cons (by decide)
  have hfunctions : Reads (itemsUntil '}' function ())
      ([' '] ++ blockText FunctionDecl.canonicalText d.functions '}' x) x
      fun found => found.map (·.plain) = d.functions.map (·.plain) :=
    reads_itemsUntil (R := fun _ d _ => FunctionDecl.Readable d) FunctionDecl.canonicalText
      FunctionDecl.plain (by decide) (fun _ _ _ h => h.begins)
      (fun doc s _ _ _ h hx => reads_function doc s h hx) h.functions blank_space
  refine (reads_identifier gap_space h.name hstops).then ((reads_baseService h.base).then ?_)
  refine (reads_expect (.blanks (isBlank_gapAfter _)) _ (by decide)).bind fun _ _ => ?_
  refine hfunctions.bind fun functions hfunctions => reads_pure ?_
  simp [ServiceDecl.plain, hfunctions]

end Services

section Declarations

theorem reads_scopeName (scope : NamespaceScope) (hx : Stops isWordChar x) :
    Reads scopeName (' ' :: (scope.spelling.toList ++ x)) x (· = scope.spelling) := by
  rcases scope.spelling_cases with hstar | hword
  · rw [hstar]
    refine (reads_skipGap gap_space (stops_cons (by decide))).bind fun _ _ => reads_next?.then ?_
    exact (reads_advance '*').bind fun _ _ => reads_pure rfl
  · refine (reads_skipGap gap_space hword.begins.append.stops).bind fun _ _ => reads_next?.then ?_
    obtain ⟨ch, hch, hchar⟩ := hword.begins.append (y := x)
    split
    · next h => simp [h] at hch
    · next h =>
      obtain rfl : ch = '*' := Option.some.inj (hch.symm.trans h)
      exact absurd hchar (by decide)
    · exact reads_word gap_nil hword hx

theorem reads_namespaceDecl {d : NamespaceDecl} (start : Position) (hscope : d.scope ≠ .php)
    (h : IsIdentifier (d.scope = .smalltalkCategory) d.name) :
    Reads (namespaceDecl start)
      (' ' :: (d.scope.spelling.toList ++ ' ' :: (d.name.toList ++ '\n' :: x))) ('\n' :: x)
      fun e => e.plain = d.plain := by
  have hstops : Stops (isIdentifierChar (d.scope = .smalltalkCategory)) ('\n' :: x) :=
    stops_cons (by simp [isIdentifierChar])
  refine (reads_scopeName d.scope (stops_cons (by decide))).then ?_
  rw [NamespaceScope.ofSpelling?_spelling]
  split
  · next h => simp at h
  · next h => exact absurd (Option.some.inj h) hscope
  · next scope _ hfound =>
    obtain rfl : d.scope = scope := Option.some.inj hfound
    exact (reads_identifier gap_space h hstops).then (reads_pure rfl)

theorem reads_typedefDecl {d : TypedefDecl} (start : Position) (doc : String) (h : d.Readable) :
    Reads (typedefDecl start doc)
      (' ' :: (d.target.render.toList ++ ' ' :: (d.name.toList ++ '\n' :: x))) ('\n' :: x)
      fun e => e.plain = d.plain := by
  refine (reads_typeExpr h.target blank_space (stops_cons (by decide))).then ?_
  exact (reads_identifier gap_space h.name (stops_cons (by decide))).then (reads_pure rfl)

theorem reads_keyword (w : String) (hw : IsWord w) :
    Reads word (w.toList ++ ' ' :: x) (' ' :: x) (· = w) :=
  reads_word gap_nil hw (stops_cons (by decide))

theorem reads_spacedLiteral (text : String) :
    Reads literal (' ' :: ((quoted text).toList ++ x)) x (· = text) := by
  have h := reads_literal (x := x) gap_space text
  rwa [List.singleton_append] at h

theorem reads_scoping {d : NamespaceDecl} (doc : String) (h : (Declaration.scoping d).Readable) :
    Reads (declaration doc) (d.canonicalText.toList ++ '\n' :: x) ('\n' :: x)
      fun e => e.plain = .scoping d.plain := by
  rw [d.canonicalText_append]
  refine reads_position.bind fun start _ => ?_
  split
  · next hscope =>
    refine (reads_keyword "php_namespace" (by decide)).then ?_
    change Reads (do return Declaration.scoping ⟨start, .php, ← literal⟩) _ _ _
    refine (reads_spacedLiteral d.name).then (reads_pure ?_)
    simp [Declaration.plain, NamespaceDecl.plain, hscope]
  · next hscope =>
    refine (reads_keyword "namespace" (by decide)).then ?_
    change Reads (do return Declaration.scoping (← namespaceDecl start)) _ _ _
    exact (reads_namespaceDecl start hscope (h hscope)).bind fun _ he =>
      reads_pure (congrArg Declaration.scoping he)

theorem reads_inclusion (d : IncludeDecl) (doc : String) :
    Reads (declaration doc) (d.canonicalText.toList ++ '\n' :: x) ('\n' :: x)
      fun e => e.plain = .inclusion d.plain := by
  rw [d.canonicalText_append]
  refine reads_position.bind fun start _ => ?_
  split
  · next hnative =>
    refine (reads_keyword "cpp_include" (by decide)).then ?_
    change Reads (do return Declaration.inclusion ⟨start, ← literal, true⟩) _ _ _
    refine (reads_spacedLiteral d.path).then (reads_pure ?_)
    simp [Declaration.plain, IncludeDecl.plain, hnative]
  · next hnative =>
    refine (reads_keyword "include" (by decide)).then ?_
    change Reads (do return Declaration.inclusion ⟨start, ← literal, false⟩) _ _ _
    refine (reads_spacedLiteral d.path).then (reads_pure ?_)
    simp [Declaration.plain, IncludeDecl.plain, hnative]

theorem reads_typedef {d : TypedefDecl} (doc : String) (h : d.Readable) :
    Reads (declaration doc) (d.canonicalText.toList ++ '\n' :: x) ('\n' :: x)
      fun e => e.plain = .typedef d.plain := by
  rw [d.canonicalText_append]
  refine reads_position.bind fun start _ =>
    (reads_keyword "typedef" (by decide)).then ?_
  change Reads (do return Declaration.typedef (← typedefDecl start doc)) _ _ _
  exact (reads_typedefDecl start doc h).bind fun _ he =>
    reads_pure (congrArg Declaration.typedef he)

theorem reads_enum {d : EnumDecl} (doc : String) (h : d.Readable) :
    Reads (declaration doc) (d.canonicalText.toList ++ '\n' :: x) ('\n' :: x)
      fun e => e.plain = .enum d.plain := by
  rw [d.canonicalText_append]
  refine reads_position.bind fun start _ => (reads_keyword "enum" (by decide)).then ?_
  change Reads (do return Declaration.enum (← enumDecl start doc)) _ _ _
  exact (reads_enumDecl start doc h).bind fun _ he => reads_pure (congrArg Declaration.enum he)

theorem reads_record {d : RecordDecl} (doc : String) (h : d.Readable) :
    Reads (declaration doc) (d.canonicalText.toList ++ '\n' :: x) ('\n' :: x)
      fun e => e.plain = .record d.plain := by
  rw [d.canonicalText_append]
  refine reads_position.bind fun start _ => ?_
  have hrecord : Reads (do return Declaration.record (← recordDecl d.kind start doc))
      (' ' :: (d.name.toList ++ ' ' :: '{' :: ' ' ::
        blockText FieldDecl.canonicalText d.fields '}' ('\n' :: x))) ('\n' :: x)
      fun e => e.plain = .record d.plain :=
    (reads_recordDecl start doc h).bind fun _ he => reads_pure (congrArg Declaration.record he)
  cases hkind : d.kind with
  | struct =>
    refine (reads_keyword "struct" (by decide)).then ?_
    change Reads (do return Declaration.record (← recordDecl .struct start doc)) _ _ _
    exact hkind ▸ hrecord
  | union =>
    refine (reads_keyword "union" (by decide)).then ?_
    change Reads (do return Declaration.record (← recordDecl .union start doc)) _ _ _
    exact hkind ▸ hrecord
  | exception =>
    refine (reads_keyword "exception" (by decide)).then ?_
    change Reads (do return Declaration.record (← recordDecl .exception start doc)) _ _ _
    exact hkind ▸ hrecord

theorem reads_service {d : ServiceDecl} (doc : String) (h : d.Readable) :
    Reads (declaration doc) (d.canonicalText.toList ++ '\n' :: x) ('\n' :: x)
      fun e => e.plain = .service d.plain := by
  rw [d.canonicalText_append]
  refine reads_position.bind fun start _ =>
    (reads_keyword "service" (by decide)).then ?_
  change Reads (do return Declaration.service (← serviceDecl start doc)) _ _ _
  exact (reads_serviceDecl start doc h).bind fun _ he =>
    reads_pure (congrArg Declaration.service he)

theorem reads_declaration {d : Declaration} (doc : String) (h : d.Readable) :
    Reads (declaration doc) (d.canonicalText.toList ++ '\n' :: x) ('\n' :: x)
      fun e => e.plain = d.plain := by
  cases d with
  | scoping d => exact reads_scoping doc h
  | inclusion d => exact reads_inclusion d doc
  | typedef d => exact reads_typedef doc h
  | enum d => exact reads_enum doc h
  | record d => exact reads_record doc h
  | service d => exact reads_service doc h

end Declarations

end Reader

end ThriftIdl
