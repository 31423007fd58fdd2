import ThriftIdl.Proofs.HarvestedComments
import ThriftIdl.Proofs.LiteralSpellings

namespace ThriftIdl.Reader

/-- The letters that may stand behind a backslash, each with the character it is for. -/
def escapes (quote : Char) : List (Char × Char) :=
  [('a', '\x07'), ('b', '\x08'), ('f', '\x0c'), ('n', '\n'), ('r', '\r'), ('t', '\t'),
    ('v', '\x0b'), ('\\', '\\'), (quote, quote)]

/-- The ways in which a literal goes wrong at a point, up to which it is spelled. -/
inductive Breaks (quote : Char) (start : Position) (c : Cursor) : SyntaxError → Prop
  | unclosed (hx : c.rest = []) : Breaks quote start c ⟨start, .unterminatedLiteral⟩
  | dangling (hx : c.rest = ['\\']) :
      Breaks quote start c ⟨c.advance.position, .unexpectedEndOfInput⟩
  | invalid {letter : Char} {x : List Char} (hx : c.rest = '\\' :: letter :: x)
      (hletter : unescape? quote letter = none) :
      Breaks quote start c ⟨c.advance.advance.position, .invalidEscape letter⟩

variable {c : Cursor} {start : Position} {e : SyntaxError} {quote ch letter value : Char}
  {gap body text after found x : List Char} {texts : List (List Char)}

section Escapes

theorem unescape?_eq_some_iff (hquote : isQuote quote = true) :
    unescape? quote letter = some value ↔ (letter, value) ∈ escapes quote := by
  simp only [isQuote, Bool.or_eq_true, beq_iff_eq] at hquote
  unfold unescape?
  split
  case h_9 =>
    rw [Option.ite_none_right_eq_some, Option.some.injEq]
    simp only [escapes, List.mem_cons, Prod.mk.injEq, List.not_mem_nil, or_false]
    grind
  all_goals obtain rfl | rfl := hquote <;> simp [escapes, eq_comm]

end Escapes

/-- Every text begins with something that is spelled, and either a quote ends it or it breaks. -/
theorem exists_spelled (quote : Char) : ∀ x : List Char, ∃ body text after, x = body ++ after ∧
    Spells quote body text ∧ ((∃ y, after = quote :: y) ∨
      ∀ (start : Position) (c : Cursor), c.rest = after → ∃ e, Breaks quote start c e)
  | [] => ⟨[], [], [], rfl, .nil, .inr fun _ _ hx => ⟨_, .unclosed hx⟩⟩
  | ch :: x => by
    by_cases hquote : ch = quote
    · exact ⟨[], [], ch :: x, rfl, .nil, .inl ⟨x, by rw [hquote]⟩⟩
    by_cases hescape : ch = '\\'
    · -- The escape takes its letter along, and a quote may be one.
      subst hescape
      cases x with
      | nil => exact ⟨[], [], ['\\'], rfl, .nil, .inr fun _ _ hx => ⟨_, .dangling hx⟩⟩
      | cons letter x =>
        cases hletter : unescape? quote letter with
        | none => exact ⟨[], [], _, rfl, .nil, .inr fun _ _ hx => ⟨_, .invalid hx hletter⟩⟩
        | some value =>
          obtain ⟨body, text, after, rfl, h, hend⟩ := exists_spelled quote x
          exact ⟨_, _, after, rfl, .escape hletter h, hend⟩
    · obtain ⟨body, text, after, rfl, h, hend⟩ := exists_spelled quote x
      exact ⟨_, _, after, rfl, .char hquote hescape h, hend⟩

section Breaking

theorem escaped_run_end (hx : c.rest = []) :
    (escaped quote).run c = .error ⟨c.position, .unexpectedEndOfInput⟩ := by
  refine (bind_run_of_ok (a := c.rest.head?) (d := c) rfl).trans ?_
  rw [hx]
  rfl

theorem escaped_run_invalid (hx : c.rest = letter :: x) (h : unescape? quote letter = none) :
    (escaped quote).run c = .error ⟨c.advance.position, .invalidEscape letter⟩ := by
  refine (bind_run_of_ok (a := c.rest.head?) (d := c) rfl).trans ?_
  rw [hx, List.head?_cons]
  refine (bind_run_of_ok (a := ()) (d := c.advance) rfl).trans ?_
  rw [h]
  rfl

theorem literalTail_run_backslash (hx : c.rest = '\\' :: x) (hquote : quote ≠ '\\')
    (h : (escaped quote).run c.advance = .error e) :
    (literalTail start quote found).run c = .error e := by
  rw [literalTail, fix_run]
  refine (bind_run_of_ok (a := c.rest.head?) (d := c) rfl).trans ?_
  rw [hx, List.head?_cons]
  dsimp only
  rw [if_neg hquote.symm, if_pos rfl]
  refine (bind_run_of_ok (a := ()) (d := c.advance) rfl).trans ?_
  exact bind_run_of_error h

theorem literalTail_run_breaks (hquote : quote ≠ '\\') (h : Breaks quote start c e) :
    (literalTail start quote found).run c = .error e := by
  cases h with
  | unclosed hx =>
    rw [literalTail, fix_run]
    refine (bind_run_of_ok (a := c.rest.head?) (d := c) rfl).trans ?_
    rw [hx]
    rfl
  | dangling hx =>
    refine literalTail_run_backslash hx hquote (escaped_run_end ?_)
    change c.rest.tail = []
    rw [hx, List.tail_cons]
  | @invalid letter x hx hletter =>
    refine literalTail_run_backslash hx hquote (escaped_run_invalid (x := x) ?_ hletter)
    change c.rest.tail = _
    rw [hx, List.tail_cons]

/-- What is spelled is passed, up to the point where it breaks. -/
theorem literalTail_run_fault (hquote : isQuote quote = true) (h : Spells quote body text)
    (hx : c.rest = body ++ after) (hbreak : Breaks quote start (c.passAll body) e)
    (found : List Char) : (literalTail start quote found).run c = .error e := by
  obtain ⟨hne, -, hescaped⟩ := isQuote_ne hquote
  induction h generalizing c found with
  | nil => exact literalTail_run_breaks hescaped hbreak
  | @escape letter value body text hletter _ ih =>
    have hmark : c.advance = c.pass '\\' := Cursor.advance_eq_pass (by decide)
    have hpassed : c.advance.advance = (c.pass '\\').pass letter := by
      rw [hmark, Cursor.advance_eq_pass (ne_break_of_unescape? hne hletter)]
    rw [literalTail_run_escape hx hescaped hletter, hpassed, ih _ hbreak]
    simp [Cursor.rest_pass, hx]
  | @char ch body text hother hescape _ ih =>
    rw [literalTail_run_char hx hother hescape, ih _ hbreak]
    simp [Cursor.rest_pass, hx]

end Breaking

section Literals

theorem beginsGap_of_isQuote (h : isQuote quote = true) : beginsGap quote = false := by
  simp only [isQuote, Bool.or_eq_true, beq_iff_eq] at h
  obtain rfl | rfl := h <;> rfl

theorem literal_run_gap (h : Commentary gap texts after) (hx : c.rest = gap ++ after)
    (hstops : Stops beginsGap after) : literal.run c = (do
      match after.head?.filter isQuote with
      | some quote =>
        advance
        literalTail (c.passAll gap).position quote []
      | none => fail .expectedLiteral : Reader String).run (c.passAll gap) := by
  rw [← Cursor.rest_passAll_left hx]
  refine (bind_run_of_ok (skipGap_run h hx hstops)).trans ?_
  refine (bind_run_of_ok (a := (c.passAll gap).position) (d := c.passAll gap) rfl).trans ?_
  exact bind_run_of_ok (a := (c.passAll gap).rest.head?) (d := c.passAll gap) rfl

theorem literal_run_unquoted (h : Commentary gap texts after) (hx : c.rest = gap ++ after)
    (hstops : Stops beginsGap after) (hquote : Stops isQuote after) :
    literal.run c = .error ⟨(c.passAll gap).position, .expectedLiteral⟩ := by
  have hnone : after.head?.filter isQuote = none := by
    rw [Option.filter_eq_none_iff]
    exact fun ch hch => by rw [hquote ch hch]; decide
  rw [literal_run_gap h hx hstops, hnone]
  rfl

theorem literal_run_quoted (h : Commentary gap texts (quote :: x)) (hx : c.rest = gap ++ quote :: x)
    (hquote : isQuote quote = true) : literal.run c =
      (literalTail (c.passAll gap).position quote []).run (c.passAll (gap ++ [quote])) := by
  have hsome : (some quote).filter isQuote = some quote := by
    rw [Option.filter_some, if_pos hquote]
  rw [literal_run_gap h hx (stops_cons (beginsGap_of_isQuote hquote)), List.head?_cons, hsome,
    Cursor.passAll_append]
  refine (bind_run_of_ok (a := ()) (d := (c.passAll gap).advance) rfl).trans ?_
  rw [Cursor.advance_eq_pass (isQuote_ne hquote).1]
  rfl

/-- Where nothing but a quote goes on, what it opens is read up to the quote that closes it. -/
theorem literal_run (h : Commentary gap texts (quote :: x))
    (hx : c.rest = gap ++ quote :: x) (hquote : isQuote quote = true)
    (hbody : Spells quote body text) (hafter : x = body ++ quote :: after) :
    literal.run c = .ok (String.ofList text, c.passAll (gap ++ quote :: (body ++ [quote]))) := by
  have hrest : (c.passAll (gap ++ [quote])).rest = body ++ quote :: after :=
    Cursor.rest_passAll_left (by rw [hx, hafter, List.append_assoc]; rfl)
  rw [literal_run_quoted h hx hquote, literalTail_run hquote hbody hrest, ← Cursor.passAll_append,
    List.append_assoc]
  rfl

theorem literal_run_breaks (h : Commentary gap texts (quote :: x))
    (hx : c.rest = gap ++ quote :: x) (hquote : isQuote quote = true)
    (hbody : Spells quote body text) (hafter : x = body ++ after)
    (hbreak : Breaks quote (c.passAll gap).position (c.passAll (gap ++ quote :: body)) e) :
    literal.run c = .error e := by
  have hrest : (c.passAll (gap ++ [quote])).rest = body ++ after :=
    Cursor.rest_passAll_left (by rw [hx, hafter, List.append_assoc]; rfl)
  have hsplit : gap ++ quote :: body = gap ++ [quote] ++ body := by
    rw [List.append_assoc]
    rfl
  rw [hsplit, Cursor.passAll_append] at hbreak
  rw [literal_run_quoted h hx hquote]
  exact literalTail_run_fault hquote hbody hrest hbreak []

theorem literal_run_malformed {fault : SyntaxFault} (h : Commentary gap texts after)
    (hx : c.rest = gap ++ after) (hfault : Malformed after fault) :
    literal.run c = .error ⟨(c.passAll gap).position, fault⟩ :=
  bind_run_of_error (skipGap_run_fault h hx hfault)

end Literals

/-- The ways in which a literal is missing behind a gap, or broken. -/
inductive Unread (c : Cursor) (gap after : List Char) : SyntaxError → Prop
  | malformed {fault : SyntaxFault} (h : Malformed after fault) :
      Unread c gap after ⟨(c.passAll gap).position, fault⟩
  | unquoted (hgap : Stops beginsGap after) (hquote : Stops isQuote after) :
      Unread c gap after ⟨(c.passAll gap).position, .expectedLiteral⟩
  | breaks {quote : Char} {body text tail : List Char} {e : SyntaxError}
      (hquote : isQuote quote = true) (hafter : after = quote :: (body ++ tail))
      (hbody : Spells quote body text)
      (hbreak : Breaks quote (c.passAll gap).position (c.passAll (gap ++ quote :: body)) e) :
      Unread c gap after e

section Outcomes

theorem literal_run_unread (h : Commentary gap texts after) (hx : c.rest = gap ++ after)
    (hunread : Unread c gap after e) : literal.run c = .error e := by
  cases hunread with
  | malformed hfault => exact literal_run_malformed h hx hfault
  | unquoted hgap hquote => exact literal_run_unquoted h hx hgap hquote
  | breaks hquote hafter hbody hbreak =>
    subst hafter
    exact literal_run_breaks h hx hquote hbody rfl hbreak

/-- Behind a gap there is a literal, or there is none. -/
theorem quoted_or_unread (hend : Stops beginsGap after ∨ ∃ fault, Malformed after fault)
    (c : Cursor) (gap : List Char) (hx : c.rest = gap ++ after) :
    (∃ quote body text tail, isQuote quote = true ∧ Spells quote body text ∧
      after = quote :: (body ++ quote :: tail)) ∨ ∃ e, Unread c gap after e := by
  obtain hgap | ⟨fault, hfault⟩ := hend
  · by_cases hstops : Stops isQuote after
    · exact .inr ⟨_, .unquoted hgap hstops⟩
    obtain ⟨quote, x, rfl, hquote⟩ := exists_cons_of_not_stops hstops
    obtain ⟨body, text, rest, rfl, hbody, ⟨tail, rfl⟩ | hbreak⟩ := exists_spelled quote x
    · exact .inl ⟨quote, body, text, tail, hquote, hbody, rfl⟩
    · have hrest : (c.passAll (gap ++ quote :: body)).rest = rest :=
        Cursor.rest_passAll_left (by rw [hx, List.append_assoc]; rfl)
      obtain ⟨e, he⟩ := hbreak (c.passAll gap).position _ hrest
      exact .inr ⟨e, .breaks hquote rfl hbody he⟩
  · exact .inr ⟨_, .malformed hfault⟩

/-- Where a literal begins, whatever it spells is read, up to the closing quote and no further. -/
theorem literal_run_spelled (hquote : isQuote quote = true) (hbody : Spells quote body text)
    (hx : c.rest = quote :: (body ++ quote :: after)) :
    ∃ d, literal.run c = .ok (String.ofList text, d) ∧ d.rest = after ∧
      ∀ whole before, c.At whole before → d.At whole (before ++ quote :: (body ++ [quote])) ∧
        d.position = .behind (before ++ quote :: (body ++ [quote])) := by
  have hsplit : c.rest = quote :: (body ++ [quote]) ++ after := by simp [hx]
  refine ⟨_, literal_run (.blanks blank_nil _) hx hquote hbody rfl,
    Cursor.rest_passAll_left hsplit, fun whole before hat => ?_⟩
  have hplace := hat.passAll ⟨after, hsplit.symm⟩
  exact ⟨hplace, hplace.position_eq⟩

/-- Literals are read for exactly what they spell, and are missing or broken otherwise. -/
theorem literal_spellings (c : Cursor) :
    (∀ quote body text after, isQuote quote = true → Spells quote body text →
      c.rest = quote :: (body ++ quote :: after) →
        ∃ d, literal.run c = .ok (String.ofList text, d) ∧ d.rest = after ∧
          ∀ whole before, c.At whole before → d.At whole (before ++ quote :: (body ++ [quote])) ∧
            d.position = .behind (before ++ quote :: (body ++ [quote]))) ∧
      (∀ text d, literal.run c = .ok (text, d) ↔ ∃ gap texts quote body spelled after,
        c.rest = gap ++ quote :: (body ++ quote :: after) ∧
          Commentary gap texts (quote :: (body ++ quote :: after)) ∧ isQuote quote = true ∧
            Spells quote body spelled ∧ text = String.ofList spelled ∧
              d = c.passAll (gap ++ quote :: (body ++ [quote]))) ∧
      (∀ e, literal.run c = .error e ↔ ∃ gap texts after, c.rest = gap ++ after ∧
        Commentary gap texts after ∧ Unread c gap after e) ∧
      ∀ quote letter value, isQuote quote = true →
        (unescape? quote letter = some value ↔ (letter, value) ∈ escapes quote) := by
  obtain ⟨gap, texts, after, hx, hgap, hend⟩ := exists_commentary c.rest
  refine ⟨fun _ _ _ _ hquote hbody hx => literal_run_spelled hquote hbody hx,
    fun text d => ⟨fun hrun => ?_, ?_⟩, fun e => ⟨fun hrun => ?_, ?_⟩,
    fun _ _ _ hquote => unescape?_eq_some_iff hquote⟩
  · obtain ⟨quote, body, spelled, tail, hquote, hbody, rfl⟩ | ⟨e, he⟩ :=
      quoted_or_unread hend c gap hx
    · rw [literal_run hgap hx hquote hbody rfl] at hrun
      obtain ⟨rfl, rfl⟩ := Prod.mk.inj (Except.ok.inj hrun)
      exact ⟨gap, texts, quote, body, spelled, tail, hx, hgap, hquote, hbody, rfl, rfl⟩
    · rw [literal_run_unread hgap hx he] at hrun
      cases hrun
  · rintro ⟨gap, texts, quote, body, spelled, after, hx, hgap, hquote, hbody, rfl, rfl⟩
    exact literal_run hgap hx hquote hbody rfl
  · obtain ⟨quote, body, spelled, tail, hquote, hbody, rfl⟩ | ⟨e', he⟩ :=
      quoted_or_unread hend c gap hx
    · rw [literal_run hgap hx hquote hbody rfl] at hrun
      cases hrun
    · rw [literal_run_unread hgap hx he] at hrun
      exact ⟨gap, texts, after, hx, hgap, Except.error.inj hrun ▸ he⟩
  · rintro ⟨gap, texts, after, hx, hgap, hunread⟩
    exact literal_run_unread hgap hx hunread

/-- A literal over two lines, with a quote and a line break that are escaped. -/
theorem literal_acrossLines : ∃ d,
    literal.run (.ofList "'a\n\\'\\n', x".toList) = .ok ("a\n'\n", d) ∧
      d.rest = ", x".toList ∧ d.position = ⟨2, 6⟩ := by
  have hbody : Spells '\'' ['a', '\n', '\\', '\'', '\\', 'n'] ['a', '\n', '\'', '\n'] :=
    .char (by decide) (by decide) (.char (by decide) (by decide) (.escape rfl (.escape rfl .nil)))
  obtain ⟨d, hrun, hrest, hplace⟩ := (literal_spellings (.ofList "'a\n\\'\\n', x".toList)).1
    '\'' _ _ ", x".toList rfl hbody rfl
  exact ⟨d, hrun, hrest, (hplace _ _ (Cursor.at_start _)).2⟩

end Outcomes

end ThriftIdl.Reader
