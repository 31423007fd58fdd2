import Mathlib
import ThriftIdl.Proofs.CanonicalReading
import ThriftIdl.Proofs.DocumentLists

namespace ThriftIdl

@[simp] theorem Declaration.isHeader_plain (d : Declaration) : d.plain.isHeader = d.isHeader := by
  cases d <;> rfl

theorem Declaration.isHeader_of_plain_eq {d e : Declaration} (h : e.plain = d.plain) :
    e.isHeader = d.isHeader := by
  rw [← isHeader_plain e, h, isHeader_plain]

/-- A line of the canonical text for each declaration. -/
def linesText (declarations : List Declaration) : List Char :=
  declarations.flatMap fun d => d.canonicalText.toList ++ ['\n']

theorem linesText_cons (d : Declaration) (declarations : List Declaration) :
    linesText (d :: declarations) = d.canonicalText.toList ++ '\n' :: linesText declarations := by
  simp [linesText]

/-- A flag stays down once it is down. -/
def Falling (flags : List Bool) : Prop := flags.Pairwise fun a b => b = true → a = true

theorem Falling.before {early late : List Bool} (h : Falling (early ++ true :: late)) :
    ∀ a ∈ early, a = true :=
  fun a ha => (List.pairwise_append.1 h).2.2 a ha true List.mem_cons_self rfl

theorem falling_append {early late : List Bool} (hearly : ∀ a ∈ early, a = true)
    (hlate : ∀ a ∈ late, a = false) : Falling (early ++ late) := by
  refine List.pairwise_append.2 ⟨?_, ?_, fun a ha _ _ _ => hearly a ha⟩
  · exact List.pairwise_of_forall_mem_list fun a ha _ _ _ => hearly a ha
  · exact List.pairwise_of_forall_mem_list fun _ _ b hb h => by simp [hlate b hb] at h

namespace Reader

theorem reads_declarations {todo : List Declaration} (hreadable : ∀ d ∈ todo, d.Readable)
    (horder : Falling (todo.map (·.isHeader))) :
    Reads declarations (linesText todo) [] fun found => found.map (·.plain) = todo.map (·.plain) := by
  refine reads_fix (g := todo) (s := [])
    (T := fun (todo before : List Declaration) left => (∀ d ∈ todo, d.Readable) ∧
      Falling ((before ++ todo).map (·.isHeader)) ∧
        ∃ gap, (∀ c ∈ gap, isBlank c = true) ∧ left = gap ++ linesText todo)
    (P := fun (todo before found : List Declaration) =>
      found.map (·.plain) = (before ++ todo).map (·.plain))
    ?_ ⟨hreadable, horder, [], blank_nil, rfl⟩
  rintro again todo before _ hagain ⟨hreadable, horder, gap, hgap, rfl⟩
  cases todo with
  | nil =>
    refine (reads_documentation hgap (stops_nil _)).then (reads_rest.then ?_)
    rw [if_pos rfl]
    exact reads_pure (by simp)
  | cons d todo =>
    have hd : d.Readable := hreadable d List.mem_cons_self
    have hbegins := d.begins_canonicalText.append (y := '\n' :: linesText todo)
    have hpos := d.begins_canonicalText.length_pos
    rw [linesText_cons] at hagain ⊢
    refine (reads_documentation hgap hbegins.stops).then (reads_rest.then ?_)
    rw [if_neg (List.length_pos_iff.1 hbegins.length_pos)]
    refine (reads_declaration _ hd).bind fun e he => ?_
    have hheader := Declaration.isHeader_of_plain_eq he
    -- Headers come first, so that nothing else has been found when one of them is read.
    have hearly : (e.isHeader && before.any (!·.isHeader)) = false := by
      cases hd : d.isHeader with
      | true =>
        rw [List.map_append, List.map_cons, hd] at horder
        simpa using fun _ => horder.before
      | false => simp [hheader, hd]
    rw [if_neg (Bool.eq_false_iff.1 hearly)]
    have hrest := hagain todo (before ++ [e]) ('\n' :: linesText todo)
      (by simp only [List.length_append]; omega)
      ⟨fun d hd => hreadable d (List.mem_cons_of_mem _ hd), by simpa [hheader] using horder,
        ['\n'], by simp [isBlank], rfl⟩
    refine hrest.imp fun found hfound => ?_
    simpa [he] using hfound

end Reader

namespace Document

/-- The declarations as they stand in the canonical text. -/
def ordered (d : Document) : List Declaration :=
  (d.namespaces.map .scoping ++ d.includes.map .inclusion) ++
    (d.typedefs.map .typedef ++ d.enums.map .enum ++ d.records.map .record ++
      d.services.map .service)

/-- The same contents, but for the order among declarations of different kinds, documentation and
layout. -/
structure Agree (d d' : Document) : Prop where
  file : d'.file = d.file
  namespaces : d'.namespaces.map (·.plain) = d.namespaces.map (·.plain)
  includes : d'.includes.map (·.plain) = d.includes.map (·.plain)
  typedefs : d'.typedefs.map (·.plain) = d.typedefs.map (·.plain)
  enums : d'.enums.map (·.plain) = d.enums.map (·.plain)
  records : ∀ kind, (d'.recordsOf kind).map (·.plain) = (d.recordsOf kind).map (·.plain)
  services : d'.services.map (·.plain) = d.services.map (·.plain)
  declarationCount : d'.declarationCount = d.declarationCount

variable (d : Document)

theorem toList_canonicalText :
    d.canonicalText.toList = linesText d.ordered := by
  simp [canonicalText, linesText, ordered, List.flatMap_map, Declaration.canonicalText]

theorem countP_ordered_cons (file : String) (decl : Declaration) (rest : List Declaration)
    (p : Declaration → Bool) :
    (⟨file, decl :: rest⟩ : Document).ordered.countP p =
      (⟨file, rest⟩ : Document).ordered.countP p + if p decl then 1 else 0 := by
  cases decl with
  | record decl =>
    cases hkind : decl.kind <;>
      simp [ordered, records, recordsOf, namespaces, includes, typedefs, enums, services,
        List.countP_cons, List.countP_append, hkind] <;> omega
  | _ =>
    simp [ordered, records, recordsOf, namespaces, includes, typedefs, enums, services,
      List.countP_cons, List.countP_append] <;> omega

theorem countP_ordered (p : Declaration → Bool) :
    d.ordered.countP p = d.declarations.countP p := by
  obtain ⟨file, declarations⟩ := d
  induction declarations with
  | nil => rfl
  | cons decl rest ih => rw [countP_ordered_cons, ih, List.countP_cons]

theorem ordered_perm : d.ordered.Perm d.declarations :=
  List.perm_iff_count.2 fun a => d.countP_ordered (· == a)

theorem falling_ordered : Falling (d.ordered.map (·.isHeader)) := by
  rw [ordered, List.map_append]
  refine falling_append ?_ ?_
  · simp [or_imp, Declaration.isHeader]
  · simp [or_imp, Declaration.isHeader]

theorem filterMap_recordsOf (kind kind' : RecordKind) :
    (d.recordsOf kind').filterMap (fun decl => if decl.kind = kind then some decl else none) =
      if kind' = kind then d.recordsOf kind else [] := by
  split
  · next h =>
    subst h
    refine (List.filterMap_congr fun decl hdecl => ?_).trans (List.filterMap_some)
    exact if_pos (mem_recordsOf.1 hdecl).2
  · next h =>
    refine List.filterMap_eq_nil_iff.2 fun decl hdecl => if_neg ?_
    rwa [(mem_recordsOf.1 hdecl).2]

theorem recordsOf_ordered (kind : RecordKind) :
    (⟨d.file, d.ordered⟩ : Document).recordsOf kind = d.recordsOf kind := by
  have hparts : (⟨d.file, d.ordered⟩ : Document).recordsOf kind =
      d.records.filterMap fun decl => if decl.kind = kind then some decl else none := by
    simp [recordsOf, ordered, List.filterMap_append]
  rw [hparts, records, List.filterMap_append, List.filterMap_append]
  simp only [filterMap_recordsOf]
  cases kind <;> simp

variable {d} {d' : Document}

theorem map_plain_of_part {β : Type} {part : Declaration → Option β} {plain : β → β}
    {parts : List β} (hpart : ∀ decl, part decl.plain = (part decl).map plain)
    (hparts : d.ordered.filterMap part = parts)
    (h : d'.declarations.map (·.plain) = d.ordered.map (·.plain)) :
    (d'.declarations.filterMap part).map plain = parts.map plain := by
  have hcommute : ∀ declarations : List Declaration, (declarations.filterMap part).map plain =
      (declarations.map (·.plain)).filterMap part := by
    intro declarations
    rw [List.filterMap_map, List.map_filterMap]
    congr 1
    funext decl
    exact (hpart decl).symm
  rw [hcommute, h, ← hcommute, hparts]

theorem agree_of_plain (hfile : d'.file = d.file)
    (h : d'.declarations.map (·.plain) = d.ordered.map (·.plain)) : d.Agree d' where
  file := hfile
  namespaces := map_plain_of_part (by rintro (_ | _) <;> rfl)
    (by simp [ordered, List.filterMap_append]) h
  includes := map_plain_of_part (by rintro (_ | _) <;> rfl)
    (by simp [ordered, List.filterMap_append]) h
  typedefs := map_plain_of_part (by rintro (_ | _) <;> rfl)
    (by simp [ordered, List.filterMap_append]) h
  enums := map_plain_of_part (by rintro (_ | _) <;> rfl)
    (by simp [ordered, List.filterMap_append]) h
  records kind := by
    refine map_plain_of_part ?_ (d.recordsOf_ordered kind) h
    intro decl
    cases decl with
    | record decl =>
      change (if decl.kind = kind then some decl.plain else none) =
        (if decl.kind = kind then some decl else none).map RecordDecl.plain
      split <;> rfl
    | _ => rfl
  services := map_plain_of_part (by rintro (_ | _) <;> rfl)
    (by simp [ordered, List.filterMap_append]) h
  declarationCount := by
    have hcount : ∀ declarations : List Declaration, declarations.countP (!·.isHeader) =
        (declarations.map (·.plain)).countP (!·.isHeader) := by
      simp [List.countP_map, Function.comp_def]
    unfold declarationCount
    rw [hcount, h, ← hcount, countP_ordered]

end Document

theorem Document.parse_canonicalText (file text : String) (d : Document)
    (h : Document.parse file text = .ok d) :
    ∃ d', Document.parse file d.canonicalText = .ok d' ∧ d.Agree d' := by
  obtain ⟨hfile, hreadable⟩ := Document.readable_of_parse h
  have hordered : ∀ decl ∈ d.ordered, decl.Readable :=
    fun decl hdecl => hreadable decl (d.ordered_perm.mem_iff.1 hdecl)
  have hread := Reader.reads_declarations hordered d.falling_ordered
  rw [← d.toList_canonicalText] at hread
  have hparse : Gives (Document.parse file d.canonicalText) _ fun _ => False :=
    Document.gives_parse ((hread (Cursor.ofText d.canonicalText) rfl).imp
      (fun found _ hfound => hfound.2) fun _ he => he)
  cases hd' : Document.parse file d.canonicalText with
  | error e => exact (hparse.of_error hd').elim
  | ok d' =>
    obtain ⟨hfile', hplain⟩ := hparse.of_ok hd'
    exact ⟨d', rfl, Document.agree_of_plain (hfile'.trans hfile.symm) hplain⟩

/-- Words that mean something elsewhere, as names and as types. -/
def contextualWords : String :=
  "struct required \x7b 2: required optional a, throws b // c\n\x7d enum E \x7b A = -0x1 B \x7d"

theorem contextualWords_roundTrip : ∃ d d',
    Document.parse "a.thrift" contextualWords = .ok d ∧
      d.canonicalText = "enum E \x7b A = -1; B; \x7d\n" ++
        "struct required \x7b 2: required optional a; throws b; \x7d\n" ∧
      Document.parse "a.thrift" d.canonicalText = .ok d' ∧ d.Agree d' := by
  have htext : (Document.parse "a.thrift" contextualWords).map (·.canonicalText) =
      .ok ("enum E \x7b A = -1; B; \x7d\n" ++
        "struct required \x7b 2: required optional a; throws b; \x7d\n") := by cbv
  cases h : Document.parse "a.thrift" contextualWords with
  | error e =>
    rw [h] at htext
    cases htext
  | ok d =>
    rw [h] at htext
    obtain ⟨d', hparse, hagree⟩ := Document.parse_canonicalText _ _ d h
    exact ⟨d, d', rfl, Except.ok.inj htext, hparse, hagree⟩

end ThriftIdl
