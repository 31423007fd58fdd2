import ThriftIdl.Proofs.DeclarationRuns
import ThriftIdl.Proofs.RewrittenReading

namespace ThriftIdl

open Text (widen)

namespace Reader

variable {w : Rewriting} {c c' d e : Cursor} {gap x : List Char} {doc : String}
  {decl decl' : Declaration} {found : List Declaration}

theorem withLiteral_self {text : String} (h : decl.literal? = some text) :
    decl.withLiteral text = decl := by
  cases decl with
  | scoping d =>
    rw [Declaration.literal?, Option.ite_none_right_eq_some] at h
    rw [← Option.some.inj h.2]
    rfl
  | inclusion d =>
    rw [← Option.some.inj h]
    rfl
  | typedef | enum | record | service => rfl

/-- With its line breaks as they were, a declaration is only moved. -/
theorem Rewords.relocated (hbreaks : w.returns = 0) (h : Rewords w c decl decl') :
    decl' = decl.relocate w.move := by
  unfold Rewords at h
  split at h
  · exact h
  · next text htext =>
    obtain ⟨quote, body, text', -, hspells, hspells', rfl⟩ := h
    rw [hbreaks, Text.widen_zero] at hspells'
    obtain rfl : text' = text := String.toList_inj.1 (hspells.unique hspells')
    refine withLiteral_self ?_
    cases decl with
    | scoping d => exact htext
    | inclusion d => exact htext
    | typedef | enum | record | service => cases htext

/-- Declarations are read as before wherever they stand, and whatever follows the last one. -/
theorem declares_moved (hbreaks : w.returns = 0) (h : c.Declares found d) (hc : w.Carries c c') :
    ∃ d', c'.Declares (found.map (·.relocate w.move)) d' ∧ w.Carries d d' := by
  induction h generalizing c' with
  | nil c => exact ⟨c', .nil c', hc⟩
  | cons hdoc hdecl _ ih =>
    have hdoc' := (alike_documentation hc).of_ok hdoc
    obtain ⟨-, hend⟩ | ⟨doc', b', hdoc', rfl, hb⟩ := hdoc'
    · exact absurd hend (declaration_run_begins hdecl hdoc)
    · obtain ⟨decl', e', hdecl', hwords, he⟩ :=
        (alike_declaration _ hb.toCarries).of_ok_nowhere hdecl
      obtain ⟨d', hmore, hd⟩ := ih he
      rw [hwords.relocated hbreaks] at hdecl'
      exact ⟨d', .cons hdoc' hdecl' hmore, hd⟩

/-- What comes in front of the first comment makes no difference. -/
theorem comments_run_congr (hskip : skipBlanks.run c = skipBlanks.run d) :
    comments.run c = comments.run d := by
  have hc := skipWhile_run isBlank c
  have hd := skipWhile_run isBlank d
  have hce := (Cursor.Onward.passAll (List.takeWhile_prefix (l := c.rest) isBlank)).length_le
  have hde := (Cursor.Onward.passAll (List.takeWhile_prefix (l := d.rest) isBlank)).length_le
  obtain ⟨-, he⟩ := Prod.mk.inj (Except.ok.inj (hc.symm.trans (hskip.trans hd)))
  rw [he] at hc hce
  generalize d.passAll (d.rest.takeWhile isBlank) = e at *
  -- The first turn comes to one point, behind which only the bounds of the repetition differ.
  rw [comments, fix_run, fix_run]
  refine (bind_run_of_ok hc).trans (Eq.trans ?_ (bind_run_of_ok hd).symm)
  refine (bind_run_of_ok (a := e.rest.head?) (d := e) rfl).trans
    (Eq.trans ?_ (bind_run_of_ok (a := e.rest.head?) (d := e) rfl).symm)
  have hcomment (r : List String → Reader (List String)) :
      (do
        let text ← comment
        guarded c.rest.length (r [text])).run e = (do
        let text ← comment
        guarded d.rest.length (r [text])).run e := by
    cases hrun : comment.run e with
    | error fault => rw [bind_run_of_error hrun, bind_run_of_error hrun]
    | ok out =>
      have hpast := (Ends.of_ok (walks_comment (.refl e)) hrun).2.shorter
      rw [bind_run_of_ok hrun, bind_run_of_ok hrun, guarded_run_of_lt (by omega),
        guarded_run_of_lt (by omega)]
  split
  · exact hcomment _
  · exact hcomment _
  · rfl

/-- Blanks in front are no part of the documentation. -/
theorem documentation_run_blanks (hgap : ∀ ch ∈ gap, isBlank ch = true) (hx : c.rest = gap ++ x) :
    documentation.run c = documentation.run (c.passAll gap) := by
  have hrest : (c.passAll gap).rest = x := by
    rw [Cursor.rest_passAll, hx, List.drop_left]
  have hskip : skipBlanks.run c = skipBlanks.run (c.passAll gap) := by
    rw [skipBlanks, skipWhile_run, skipWhile_run, hrest, hx, List.takeWhile_append_of_pos hgap,
      Cursor.passAll_append]
  unfold documentation
  rw [StateT.run_bind, StateT.run_bind, comments_run_congr hskip]

end Reader

/-- Where a place of a text is in a text that has another one above it. -/
def Position.below (text : String) (p : Position) : Position :=
  ⟨p.line + (text.toList.count '\n' + 1), p.column⟩

namespace Document

/-- Only blanks follow the last declaration of a text. -/
def NothingBehind (d : Document) (text : String) : Prop :=
  ∃ e, (Cursor.ofText text).Declares d.declarations e ∧ ∀ ch ∈ e.rest, Reader.isBlank ch = true

/-- Each list of a document is that of one document followed by that of another one. -/
structure Joins (d d₁ d₂ : Document) : Prop where
  declarations : d.declarations = d₁.declarations ++ d₂.declarations
  namespaces : d.namespaces = d₁.namespaces ++ d₂.namespaces
  includes : d.includes = d₁.includes ++ d₂.includes
  typedefs : d.typedefs = d₁.typedefs ++ d₂.typedefs
  enums : d.enums = d₁.enums ++ d₂.enums
  records : ∀ kind, d.recordsOf kind = d₁.recordsOf kind ++ d₂.recordsOf kind
  services : d.services = d₁.services ++ d₂.services
  count : d.declarationCount = d₁.declarationCount + d₂.declarationCount

theorem joins_of_append {d d₁ d₂ : Document}
    (h : d.declarations = d₁.declarations ++ d₂.declarations) : d.Joins d₁ d₂ where
  declarations := h
  namespaces := by rw [Document.namespaces, h, List.filterMap_append]; rfl
  includes := by rw [Document.includes, h, List.filterMap_append]; rfl
  typedefs := by rw [Document.typedefs, h, List.filterMap_append]; rfl
  enums := by rw [Document.enums, h, List.filterMap_append]; rfl
  records kind := by rw [Document.recordsOf, h, List.filterMap_append]; rfl
  services := by rw [Document.services, h, List.filterMap_append]; rfl
  count := by rw [declarationCount, h, List.countP_append]; rfl

theorem parse_of_error {file text : String} {e : SyntaxError}
    (h : Reader.declarations.run (.ofText text) = .error e) : parse file text = .error e := by
  unfold parse
  rw [StateT.run'_eq, h]
  rfl

end Document

namespace Reader

open Cursor (At ofList)

section Joined

variable {text text' before : List Char} {c e : Cursor}

/-- The second text begins a line of its own. -/
theorem carries_below (text text' : List Char) :
    Rewriting.Carries ⟨0, text.count '\n' + 1, none⟩ (ofList text')
      ((ofList (text ++ '\n' :: text')).passAll (text ++ ['\n'])) := by
  obtain ⟨hline, hstart⟩ := Cursor.passAll_counts (text ++ '\n' :: text') (text ++ ['\n'])
  refine ⟨?_, ?_, ?_⟩
  · rw [Cursor.rest_passAll]
    change ((text ++ '\n' :: text').drop (text ++ ['\n']).length) = _
    rw [Text.widen_zero, List.append_cons text '\n' text', List.drop_left]
    simp [Rewriting.tail, ofList]
  · rw [hline, List.count_append]
    simp [ofList]
  · rw [Cursor.offset_passAll]
    simp only [List.reverse_append, List.reverse_cons, List.reverse_nil, List.nil_append,
      List.cons_append] at hstart
    simp [ofList] at hstart ⊢
    omega

/-- Behind the declarations of the first text only blanks are left in front of the second one. -/
theorem declares_joined {found : List Declaration} (text' : List Char)
    (h : (ofList text).Declares found e) (hblank : ∀ ch ∈ e.rest, isBlank ch = true) :
    ∃ e', (ofList (text ++ '\n' :: text')).Declares found e' ∧ documentation.run e' =
      documentation.run ((ofList (text ++ '\n' :: text')).passAll (text ++ ['\n'])) := by
  have hcarries : Rewriting.Carries ⟨0, 0, some text'⟩ (ofList text)
      (ofList (text ++ '\n' :: text')) := by
    refine ⟨?_, rfl, rfl⟩
    rw [Text.widen_zero]
    rfl
  have hmove : Rewriting.move ⟨0, 0, some text'⟩ = id := rfl
  obtain ⟨e', h', he⟩ := declares_moved rfl h hcarries
  rw [hmove, List.map_congr_left fun decl _ => decl.relocate_id, List.map_id'] at h'
  refine ⟨e', h', ?_⟩
  have hrest : e'.rest = (e.rest ++ ['\n']) ++ text' := by
    rw [he.rest, Text.widen_zero]
    simp [Rewriting.tail]
  have hgap : ∀ ch ∈ e.rest ++ ['\n'], isBlank ch = true := by
    intro ch hch
    rcases List.mem_append.1 hch with hch | hch
    · exact hblank ch hch
    · rw [List.mem_singleton.1 hch]
      rfl
  rw [documentation_run_blanks hgap hrest]
  obtain ⟨before, hat, -⟩ := (Cursor.at_start _).onward h'.onward
  -- What was passed and the blanks left over make up the first text and its line break.
  have hall : before ++ (e.rest ++ ['\n']) ++ text' = text ++ ['\n'] ++ text' := by
    have hjoined := hat.text_eq
    rw [hrest] at hjoined
    simpa using hjoined.symm
  rw [← List.append_cancel_right hall, hat.passed, List.nil_append,
    Cursor.passAll_append _ before]

/-- Behind the declarations of the first text those of the second one follow, or its first one is
refused. -/
theorem run_joined {found later : List Declaration} {f : Cursor}
    (h : (ofList text).Declares found e) (hblank : ∀ ch ∈ e.rest, isBlank ch = true)
    (h' : declarations.run (ofList text') = .ok (later, f)) (move : Position → Position)
    (hmove : move = Rewriting.move ⟨0, text.count '\n' + 1, none⟩) :
    ∃ e' g, (ofList (text ++ '\n' :: text')).Declares found e' ∧
      (Falling ((found ++ later.map (·.relocate move)).map (·.isHeader)) →
        (declarationsAfter found).run e' = .ok (found ++ later.map (·.relocate move), g)) ∧
      ∀ decl more, later.map (·.relocate move) = decl :: more → decl.isHeader = true →
        found.any (!·.isHeader) = true →
          (declarationsAfter found).run e' = .error ⟨decl.position, .lateHeader⟩ := by
  subst hmove
  obtain ⟨e', hfound, hdoc⟩ := declares_joined text' h hblank
  obtain ⟨more, b, doc, hlater, hmore, hlast, hend⟩ := (declares_of_run [] _).of_ok h'
  obtain rfl : later = more := hlater
  obtain ⟨b', hmoved, hb⟩ := declares_moved rfl hmore (carries_below text text')
  obtain ⟨doc', g, hlast', -, hg⟩ := ((alike_documentation hb).of_ok hlast).resolve_left
    fun hcut => hcut.1 rfl
  have hend' := hg.rest_nil rfl hend
  refine ⟨e', g, hfound, ?_⟩
  generalize later.map (·.relocate (Rewriting.move ⟨0, text.count '\n' + 1, none⟩)) = moved at *
  cases hmoved with
  | nil =>
    refine ⟨fun _ => ?_, fun _ _ hnil => by cases hnil⟩
    rw [declarationsAfter_run_end (hdoc.trans hlast') hend', List.append_nil]
  | cons hdoc' hdecl hrest =>
    refine ⟨fun hfalling => ?_, ?_⟩
    · rw [run_of_declares (.cons (hdoc.trans hdoc') hdecl hrest) found hfalling,
        declarationsAfter_run_end hlast' hend']
    · rintro _ _ hcons hheader hlate
      obtain ⟨rfl, rfl⟩ := List.cons.inj hcons
      exact declarationsAfter_run_late (hdoc.trans hdoc') hdecl hheader hlate

end Joined

end Reader

theorem falling_joined {first second : List Declaration} (move : Position → Position)
    (hfirst : Falling (first.map (·.isHeader))) (hsecond : Falling (second.map (·.isHeader)))
    (h : (∀ decl ∈ first, decl.isHeader = true) ∨ ∀ decl ∈ second, decl.isHeader = false) :
    Falling ((first ++ second.map (·.relocate move)).map (·.isHeader)) := by
  have hmoved : (second.map (·.relocate move)).map (·.isHeader) = second.map (·.isHeader) := by
    simp [Function.comp_def]
  rw [List.map_append, hmoved]
  refine List.pairwise_append.2 ⟨hfirst, hsecond, ?_⟩
  simp only [List.mem_map]
  rintro _ ⟨x, hx, rfl⟩ _ ⟨y, hy, rfl⟩ hheader
  rcases h with h | h
  · exact h x hx
  · rw [h y hy] at hheader
    cases hheader

/-- A document with a header begins with one. -/
theorem header_first {later : List Declaration} {decl : Declaration}
    (hfalling : Falling (later.map (·.isHeader))) (hdecl : decl ∈ later)
    (hheader : decl.isHeader = true) :
    ∃ first more, later = first :: more ∧ first.isHeader = true := by
  cases later with
  | nil => cases hdecl
  | cons first more =>
    refine ⟨first, more, rfl, ?_⟩
    rcases List.mem_cons.1 hdecl with rfl | hdecl
    · exact hheader
    · exact (List.pairwise_cons.1 hfalling).1 _ (List.mem_map_of_mem hdecl) hheader

namespace Document

variable {file text text' : String} {d d' : Document}

/-- The second text is read where the first one ends. -/
theorem parse_below (h : parse file text = .ok d) (h' : parse file text' = .ok d')
    (hend : d.NothingBehind text) :
    let moved := (d'.relocate (.below text)).declarations
    (Falling ((d.declarations ++ moved).map (·.isHeader)) →
      parse file (text ++ "\n" ++ text') = .ok ⟨file, d.declarations ++ moved⟩) ∧
    ∀ decl more, moved = decl :: more → decl.isHeader = true →
      d.declarations.any (!·.isHeader) = true →
        parse file (text ++ "\n" ++ text') = .error ⟨decl.position, .lateHeader⟩ := by
  intro moved
  obtain ⟨-, -, hfirst⟩ := (gives_parse_walked file text).of_ok h
  obtain ⟨-, f, hrun'⟩ := parse_eq_ok_iff.1 h'
  obtain ⟨e, hdeclares, hblank⟩ := hend
  obtain ⟨e', g, hfound, hok, herror⟩ :=
    Reader.run_joined hdeclares hblank hrun' (.below text) rfl
  have hjoined : Cursor.ofText (text ++ "\n" ++ text') =
      .ofList (text.toList ++ '\n' :: text'.toList) := by
    simp [Cursor.ofText]
  have hbegin := Reader.run_of_declares hfound [] hfirst
  rw [← Reader.declarations_eq, ← hjoined, List.nil_append] at hbegin
  refine ⟨fun hfalling => ?_, fun decl more hmoved hheader hlate => ?_⟩
  · exact parse_eq_ok_iff.2 ⟨rfl, g, hbegin.trans (hok hfalling)⟩
  · exact parse_of_error (hbegin.trans (herror decl more hmoved hheader hlate))

theorem parse_below_late (h : parse file text = .ok d) (h' : parse file text' = .ok d')
    (hend : d.NothingBehind text) (hother : ¬ ∀ decl ∈ d.declarations, decl.isHeader = true)
    (hheader : ¬ ∀ decl ∈ d'.declarations, decl.isHeader = false) :
    ∃ decl, (d'.relocate (.below text)).declarations.find? (·.isHeader) = some decl ∧
      parse file (text ++ "\n" ++ text') = .error ⟨decl.position, .lateHeader⟩ := by
  obtain ⟨x, hx, hxplain⟩ : ∃ x ∈ d.declarations, ¬ x.isHeader = true := by
    simpa using hother
  obtain ⟨y, hy, hyheader⟩ : ∃ y ∈ d'.declarations, y.isHeader = true := by
    simpa using hheader
  obtain ⟨-, -, hsecond⟩ := (gives_parse_walked file text').of_ok h'
  obtain ⟨first, more, hlater, hfirst⟩ := header_first hsecond hy hyheader
  have hmoved : (d'.relocate (.below text)).declarations =
      first.relocate (.below text) :: more.map (·.relocate (.below text)) := by
    change d'.declarations.map _ = _
    rw [hlater]
    rfl
  have hmovedHeader : (first.relocate (.below text)).isHeader = true := by
    rw [Declaration.isHeader_relocate, hfirst]
  have hlate : d.declarations.any (!·.isHeader) = true :=
    List.any_eq_true.2 ⟨x, hx, by simpa using hxplain⟩
  refine ⟨first.relocate (.below text), ?_, (parse_below h h' hend).2 _ _ hmoved hmovedHeader hlate⟩
  rw [hmoved, List.find?_cons_of_pos hmovedHeader]

end Document

/-- Texts one below the other are read as they are alone, unless a header comes too late. -/
theorem Document.parse_joined (file text text' : String) (d d' : Document)
    (h : parse file text = .ok d) (h' : parse file text' = .ok d') (hend : d.NothingBehind text) :
    let moved := d'.relocate (.below text)
    ((∃ j, parse file (text ++ "\n" ++ text') = .ok j) ↔
      (∀ decl ∈ d.declarations, decl.isHeader = true) ∨
        ∀ decl ∈ d'.declarations, decl.isHeader = false) ∧
    (∀ j, parse file (text ++ "\n" ++ text') = .ok j → j.file = file ∧ j.Joins d moved) ∧
    ∀ e, parse file (text ++ "\n" ++ text') = .error e → ∃ decl,
      moved.declarations.find? (·.isHeader) = some decl ∧ e = ⟨decl.position, .lateHeader⟩ := by
  intro moved
  by_cases hplaced : (∀ decl ∈ d.declarations, decl.isHeader = true) ∨
      ∀ decl ∈ d'.declarations, decl.isHeader = false
  · obtain ⟨-, -, hfirst⟩ := (gives_parse_walked file text).of_ok h
    obtain ⟨-, -, hsecond⟩ := (gives_parse_walked file text').of_ok h'
    have hparse := (parse_below h h' hend).1 (falling_joined _ hfirst hsecond hplaced)
    refine ⟨⟨fun _ => hplaced, fun _ => ⟨_, hparse⟩⟩, fun j hj => ?_, fun e he => ?_⟩
    · obtain rfl := Except.ok.inj (hparse.symm.trans hj)
      exact ⟨rfl, joins_of_append rfl⟩
    · rw [hparse] at he
      cases he
  · obtain ⟨hother, hheader⟩ := not_or.1 hplaced
    obtain ⟨decl, hfirst, hparse⟩ := parse_below_late h h' hend hother hheader
    refine ⟨⟨?_, fun hall => (hplaced hall).elim⟩, fun j hj => ?_, fun e he => ?_⟩
    · rintro ⟨j, hj⟩
      rw [hparse] at hj
      cases hj
    · rw [hparse] at hj
      cases hj
    · obtain rfl := Except.error.inj (hparse.symm.trans he)
      exact ⟨decl, hfirst, rfl⟩

/-- A struct is read below a typedef, but not a namespace, where its own line is reported. -/
theorem typedef_joined :
    (∃ j, Document.parse "t.thrift" ("typedef i32 A \n" ++ "\n" ++ "/* d */\nstruct S \x7b\x7d") =
      .ok j ∧ j.file = "t.thrift" ∧
      j.Joins ⟨"t.thrift", [.typedef ⟨⟨1, 1⟩, "", .named "i32", "A"⟩]⟩
        ⟨"t.thrift", [.record ⟨⟨4, 1⟩, "d", .struct, "S", []⟩]⟩) ∧
    Document.parse "t.thrift" ("typedef i32 A \n" ++ "\n" ++ "// n\n namespace cpp a") =
      .error ⟨⟨4, 2⟩, .lateHeader⟩ := by
  have hfirst : Document.parse "t.thrift" "typedef i32 A \n" =
      .ok ⟨"t.thrift", [.typedef ⟨⟨1, 1⟩, "", .named "i32", "A"⟩]⟩ := by cbv
  have hstruct : Document.parse "t.thrift" "/* d */\nstruct S \x7b\x7d" =
      .ok ⟨"t.thrift", [.record ⟨⟨2, 1⟩, "d", .struct, "S", []⟩]⟩ := by cbv
  have hnamespace : Document.parse "t.thrift" "// n\n namespace cpp a" =
      .ok ⟨"t.thrift", [.scoping ⟨⟨2, 2⟩, .cpp, "a"⟩]⟩ := by cbv
  have hend : Document.NothingBehind
      ⟨"t.thrift", [.typedef ⟨⟨1, 1⟩, "", .named "i32", "A"⟩]⟩ "typedef i32 A \n" :=
    ⟨⟨[' ', '\n'], 13, 0, 0⟩, .cons (by cbv) (by cbv) (.nil _), by simp [Reader.isBlank]⟩
  obtain ⟨hread, hjoins, -⟩ := Document.parse_joined _ _ _ _ _ hfirst hstruct hend
  obtain ⟨hread', -, hlate⟩ := Document.parse_joined _ _ _ _ _ hfirst hnamespace hend
  constructor
  · obtain ⟨j, hj⟩ := hread.2 (.inr (by simp [Declaration.isHeader]))
    exact ⟨j, hj, hjoins j hj⟩
  · cases h : Document.parse "t.thrift"
        ("typedef i32 A \n" ++ "\n" ++ "// n\n namespace cpp a") with
    | ok j =>
      have hplaced := hread'.1 ⟨j, h⟩
      simp [Declaration.isHeader] at hplaced
    | error e =>
      obtain ⟨decl, hdecl, rfl⟩ := hlate e h
      obtain rfl := Option.some.inj hdecl
      rfl

end ThriftIdl
