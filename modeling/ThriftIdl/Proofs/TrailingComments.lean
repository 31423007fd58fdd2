import ThriftIdl.Proofs.CommentRuns
import ThriftIdl.Proofs.Layout

namespace ThriftIdl.Reader

open Layout (isSeparator)

/-- Blanks of one line, with one separator among them at most, and with none unless it may be
passed. -/
structure Passable (separator : Bool) (gap : List Char) : Prop where
  chars : ∀ ch ∈ gap, isLineGap ch = true ∨ isSeparator ch = true
  separators : gap.countP isSeparator ≤ separator.toNat

/-- What is passed of a line, one character after another. -/
def lineGap : Bool → List Char → List Char
  | _, [] => []
  | separator, ch :: x =>
    if isLineGap ch then ch :: lineGap separator x
    else if separator && isSeparator ch then ch :: lineGap false x
    else []

section Gaps

variable {separator : Bool} {ch : Char} {p run x y : List Char}

theorem isSeparator_of_isLineGap (h : isLineGap ch = true) : isSeparator ch = false := by
  simp only [isLineGap, Bool.or_eq_true, beq_iff_eq] at h
  obtain rfl | rfl := h <;> rfl

theorem passable_nil (separator : Bool) : Passable separator [] :=
  ⟨fun _ h => absurd h List.not_mem_nil, Nat.zero_le _⟩

theorem passable_blank (h : isLineGap ch = true) :
    Passable separator (ch :: p) ↔ Passable separator p := by
  have hcount : (ch :: p).countP isSeparator = p.countP isSeparator :=
    List.countP_cons_of_neg (by rw [isSeparator_of_isLineGap h]; decide)
  refine ⟨fun hp => ⟨fun ch' hch' => hp.chars ch' (List.mem_cons_of_mem _ hch'), ?_⟩,
    fun hp => ⟨List.forall_mem_cons.2 ⟨.inl h, hp.chars⟩, ?_⟩⟩
  · exact hcount ▸ hp.separators
  · exact hcount.symm ▸ hp.separators

theorem passable_separator (h : isSeparator ch = true) :
    Passable separator (ch :: p) ↔ separator = true ∧ Passable false p := by
  have hcount : (ch :: p).countP isSeparator = p.countP isSeparator + 1 :=
    List.countP_cons_of_pos h
  refine ⟨fun hp => ?_, ?_⟩
  · have hsep := hp.separators
    rw [hcount] at hsep
    refine ⟨?_, fun ch' hch' => hp.chars ch' (List.mem_cons_of_mem _ hch'), ?_⟩
    · cases separator with
      | false => exact absurd hsep (Nat.not_succ_le_zero _)
      | true => rfl
    · exact Nat.le_of_succ_le_succ (hsep.trans (Bool.toNat_le separator))
  · rintro ⟨rfl, hp⟩
    exact ⟨List.forall_mem_cons.2 ⟨.inr h, hp.chars⟩, hcount ▸ Nat.succ_le_succ hp.separators⟩

theorem Passable.unbroken (h : Passable separator p) : '\n' ∉ p := by
  intro hmem
  obtain hgap | hgap := h.chars '\n' hmem
  · exact absurd hgap (by decide)
  · exact absurd hgap (by decide)

theorem lineGap_isPrefix (separator : Bool) (x : List Char) : lineGap separator x <+: x := by
  induction x generalizing separator with
  | nil => exact List.nil_prefix
  | cons ch x ih =>
    rw [lineGap]
    split
    · exact List.cons_prefix_cons.2 ⟨rfl, ih separator⟩
    split
    · exact List.cons_prefix_cons.2 ⟨rfl, ih false⟩
    · exact List.nil_prefix

theorem passable_lineGap (separator : Bool) (x : List Char) :
    Passable separator (lineGap separator x) := by
  induction x generalizing separator with
  | nil => exact passable_nil separator
  | cons ch x ih =>
    rw [lineGap]
    split
    · next hgap => exact (passable_blank hgap).2 (ih separator)
    split
    · next hsep =>
      rw [Bool.and_eq_true] at hsep
      exact (passable_separator hsep.2).2 ⟨hsep.1, ih false⟩
    · exact passable_nil separator

/-- Nothing longer may be passed. -/
theorem isPrefix_lineGap (hp : p <+: x) (hpass : Passable separator p) :
    p <+: lineGap separator x := by
  induction x generalizing separator p with
  | nil => rwa [lineGap]
  | cons ch x ih =>
    cases p with
    | nil => exact List.nil_prefix
    | cons ch' p =>
      obtain ⟨rfl, hx⟩ := List.cons_prefix_cons.1 hp
      rw [lineGap]
      by_cases hgap : isLineGap ch' = true
      · rw [if_pos hgap]
        exact List.cons_prefix_cons.2 ⟨rfl, ih hx ((passable_blank hgap).1 hpass)⟩
      · have hsep := (hpass.chars ch' List.mem_cons_self).resolve_left hgap
        obtain ⟨rfl, hrest⟩ := (passable_separator hsep).1 hpass
        rw [if_neg hgap, if_pos (by rw [hsep]; rfl)]
        exact List.cons_prefix_cons.2 ⟨rfl, ih hx hrest⟩

theorem lineGap_append (hrun : ∀ ch ∈ run, isLineGap ch = true) :
    lineGap separator (run ++ x) = run ++ lineGap separator x := by
  induction run with
  | nil => rfl
  | cons ch run ih =>
    rw [List.cons_append, lineGap, if_pos (hrun ch List.mem_cons_self), ih, List.cons_append]
    exact fun ch' hch' => hrun ch' (List.mem_cons_of_mem _ hch')

theorem lineGap_false (x : List Char) : lineGap false x = x.takeWhile isLineGap := by
  induction x with
  | nil => rfl
  | cons ch x ih =>
    rw [lineGap, ih, List.takeWhile_cons]
    rfl

/-- Beyond the end of a line nothing is looked at. -/
theorem lineGap_line (hy : CommentText.EndsLine y) :
    lineGap separator (x ++ y) = lineGap separator x := by
  induction x generalizing separator with
  | nil =>
    cases y with
    | nil => rfl
    | cons ch y =>
      obtain rfl := hy ch rfl
      cases separator <;> rfl
  | cons ch x ih => rw [List.cons_append, lineGap, lineGap, ih, ih]

theorem skipSeparator_run (separator : Bool) (c : Cursor) : (skipSeparator separator).run c =
    .ok ((), c.passAll (lineGap separator c.rest)) := by
  have hrun : ∀ ch ∈ c.rest.takeWhile isLineGap, isLineGap ch = true :=
    fun ch => List.mem_takeWhile_imp
  have hgap : lineGap separator c.rest =
      c.rest.takeWhile isLineGap ++ lineGap separator (c.rest.dropWhile isLineGap) := by
    rw [← lineGap_append hrun, List.takeWhile_append_dropWhile]
  have hrest := rest_passAll_takeWhile isLineGap c
  have hstops := stops_dropWhile isLineGap c.rest
  rw [hgap, Cursor.passAll_append]
  refine (bind_run_of_ok (skipWhile_run isLineGap c)).trans ?_
  generalize c.passAll (c.rest.takeWhile isLineGap) = d at hrest
  refine (bind_run_of_ok (a := d.rest.head?) (d := d) rfl).trans ?_
  generalize c.rest.dropWhile isLineGap = y at hrest hstops
  rw [hrest]
  -- Behind a separator there are blanks only, which are passed like those in front of it.
  have hpassed (ch : Char) (z : List Char) (hy : y = ch :: z) (hch : ch ≠ '\n') :
      (do
        advance
        skipWhile isLineGap : Reader Unit).run d = .ok ((), d.passAll (ch :: lineGap false z)) := by
    have hadvance : d.advance = d.pass ch := Cursor.advance_eq_pass hch
    have hz : (d.pass ch).rest = z := by
      rw [Cursor.rest_pass, hrest, hy, List.tail_cons]
    refine (bind_run_of_ok (a := ()) (d := d.advance) rfl).trans ?_
    rw [hadvance, skipWhile_run, hz, ← lineGap_false]
    rfl
  split
  · next hy =>
    obtain ⟨z, hy⟩ := List.head?_eq_some_iff.1 hy
    rw [hpassed _ z hy (by decide), hy]
    rfl
  · next hy =>
    obtain ⟨z, hy⟩ := List.head?_eq_some_iff.1 hy
    rw [hpassed _ z hy (by decide), hy]
    rfl
  · next hcomma hsemicolon =>
    cases y with
    | nil => rfl
    | cons ch z =>
      rw [lineGap, if_neg (by rw [hstops ch rfl]; decide), if_neg]
      · rfl
      · rw [Bool.and_eq_true]
        rintro ⟨rfl, hsep⟩
        simp only [isSeparator, Bool.or_eq_true, beq_iff_eq] at hsep
        obtain rfl | rfl := hsep
        · exact hcomma rfl rfl
        · exact hsemicolon rfl rfl

end Gaps

/-- What remains without the blanks at its ends. -/
def trimmed (text : List Char) : List Char :=
  (text.dropWhile CommentText.isLineBlank).rdropWhile CommentText.isLineBlank

section Marks

variable {separator : Bool} {c d : Cursor} {x text ending after body : List Char}

theorem trailingLine_run (hx : c.rest = text ++ (ending ++ after)) (htext : '\n' ∉ text)
    (hend : LineEnd ending after) :
    trailingLine.run c = .ok (String.ofList (trimmed text), c.passAll (text ++ ending)) :=
  bind_run_of_ok (restOfLine_run hx htext hend)

theorem trailingBlock_run_closed (hx : c.rest = text ++ (ending ++ after)) (htext : '\n' ∉ text)
    (hend : LineEnd ending after) (hbody : CommentText.beforeClose text = some body) :
    trailingBlock.run c =
      (endOfLine (String.ofList (trimmed body))).run (c.passAll (body ++ ['*', '/'])) := by
  have hline := takeWhile_line htext hend
  rw [← hx] at hline
  refine (bind_run_of_ok (a := c.rest) (d := c) rfl).trans ?_
  simp only [hline, hbody]
  refine (bind_run_of_ok (a := ()) (d := c.passAll (body ++ ['*', '/'])) rfl).trans ?_
  rfl

theorem trailingBlock_run_open (hx : c.rest = text ++ (ending ++ after)) (htext : '\n' ∉ text)
    (hend : LineEnd ending after) (hbody : CommentText.beforeClose text = none) :
    trailingBlock.run c = .error ⟨(c.passAll text).position, .trailingCommentLeftOpen⟩ := by
  have hline := takeWhile_line htext hend
  rw [← hx] at hline
  refine (bind_run_of_ok (a := c.rest) (d := c) rfl).trans ?_
  simp only [hline, hbody]
  rfl

variable (hskip : (skipSeparator separator).run c = .ok ((), d))

include hskip

theorem trailing_run_line {mark : List Char} (hmark : mark = ['#'] ∨ mark = ['/', '/'])
    (hd : d.rest = mark ++ x) :
    (trailing separator).run c = trailingLine.run (d.passAll mark) := by
  refine (bind_run_of_ok hskip).trans ?_
  refine (bind_run_of_ok (a := d.rest) (d := d) rfl).trans ?_
  rw [hd]
  obtain rfl | rfl := hmark <;> rfl

theorem trailing_run_block (hd : d.rest = '/' :: '*' :: x) :
    (trailing separator).run c = trailingBlock.run (d.passAll ['/', '*']) := by
  refine (bind_run_of_ok hskip).trans ?_
  refine (bind_run_of_ok (a := d.rest) (d := d) rfl).trans ?_
  rw [hd]
  rfl

theorem trailing_run_slash (hd : d.rest = '/' :: x)
    (hx : Stops (fun ch => ch == '/' || ch == '*') x) :
    (trailing separator).run c = .error ⟨d.position, .slashWithoutComment⟩ := by
  refine (bind_run_of_ok hskip).trans ?_
  refine (bind_run_of_ok (a := d.rest) (d := d) rfl).trans ?_
  rw [hd]
  split
  · next heq => cases heq
  · next heq => exact absurd (hx '/' (by rw [(List.cons.inj heq).2]; rfl)) (by decide)
  · next heq => exact absurd (hx '*' (by rw [(List.cons.inj heq).2]; rfl)) (by decide)
  · rfl
  · next h => exact absurd rfl (h x)

end Marks

/-- The line that a text begins with, behind what may be passed of it. -/
structure LineSplit (separator : Bool) (text line ending after gap remains : List Char) : Prop where
  text_eq : text = line ++ (ending ++ after)
  unbroken : '\n' ∉ line
  ends : LineEnd ending after
  line_eq : line = gap ++ remains
  passable : Passable separator gap
  longest : ∀ p, p <+: line → Passable separator p → p <+: gap

/-- What a text is read for that stands behind a declaration, and how much of its line is passed.
Only the line decides. -/
inductive LineOutcome (line ending gap : List Char) :
    List Char → List Char → Except SyntaxFault String → Prop
  | line {mark text : List Char} (hmark : mark = ['#'] ∨ mark = ['/', '/']) :
      LineOutcome line ending gap (mark ++ text) (line ++ ending) (.ok (String.ofList (trimmed text)))
  | closed {body tail : List Char} (hbody : ¬ ['*', '/'] <:+: body)
      (htail : ∀ ch ∈ tail, CommentText.isLineBlank ch = true) :
      LineOutcome line ending gap ('/' :: '*' :: (body ++ '*' :: '/' :: tail)) (line ++ ending)
        (.ok (String.ofList (trimmed body)))
  | followed {body blanks tail : List Char} {ch : Char} (hbody : ¬ ['*', '/'] <:+: body)
      (hblanks : ∀ ch ∈ blanks, CommentText.isLineBlank ch = true)
      (hch : CommentText.isLineBlank ch = false) :
      LineOutcome line ending gap ('/' :: '*' :: (body ++ '*' :: '/' :: (blanks ++ ch :: tail)))
        (gap ++ '/' :: '*' :: (body ++ '*' :: '/' :: blanks)) (.error .textAfterTrailingComment)
  | opened {text : List Char} (htext : ¬ ['*', '/'] <:+: text) :
      LineOutcome line ending gap ('/' :: '*' :: text) line (.error .trailingCommentLeftOpen)
  | slash {text : List Char} (htext : Stops (fun ch => ch == '/' || ch == '*') text) :
      LineOutcome line ending gap ('/' :: text) gap (.error .slashWithoutComment)
  | bare {remains : List Char} (hremains : Stops (fun ch => ch == '#' || ch == '/') remains) :
      LineOutcome line ending gap remains gap (.ok "")

/-- What comes of passing a text, with something found in it or something wrong. -/
def passing (c : Cursor) (passed : List Char) :
    Except SyntaxFault String → Except SyntaxError (String × Cursor)
  | .ok found => .ok (found, c.passAll passed)
  | .error fault => .error ⟨(c.passAll passed).position, fault⟩

section Lines

variable {separator : Bool} {c : Cursor} {text line ending after gap remains passed : List Char}
  {result : Except SyntaxFault String}

theorem exists_lineSplit (separator : Bool) (text : List Char) :
    ∃ line ending after gap remains, LineSplit separator text line ending after gap remains := by
  obtain ⟨line, ending, after, htext, hline, hend⟩ := exists_line text
  obtain ⟨remains, hremains⟩ := lineGap_isPrefix separator line
  exact ⟨line, ending, after, _, remains, htext, hline, hend, hremains.symm,
    passable_lineGap separator line, fun p hp hpass => isPrefix_lineGap hp hpass⟩

theorem LineSplit.skip_run (h : LineSplit separator c.rest line ending after gap remains) :
    (skipSeparator separator).run c = .ok ((), c.passAll gap) := by
  have hback : gap <+: lineGap separator line :=
    isPrefix_lineGap ⟨remains, h.line_eq.symm⟩ h.passable
  have hforth : lineGap separator line <+: gap :=
    h.longest _ (lineGap_isPrefix separator line) (passable_lineGap separator line)
  have hgap : lineGap separator line = gap :=
    hforth.eq_of_length (Nat.le_antisymm hforth.length_le hback.length_le)
  rw [skipSeparator_run, h.text_eq, lineGap_line h.ends.endsLine, hgap]

theorem exists_blank_end (text : List Char) : ∃ blanks x, text = blanks ++ x ∧
    (∀ ch ∈ blanks, CommentText.isLineBlank ch = true) ∧ Stops CommentText.isLineBlank x :=
  ⟨_, _, List.takeWhile_append_dropWhile.symm, fun _ => List.mem_takeWhile_imp,
    stops_dropWhile _ text⟩

/-- Every line has its outcome. -/
theorem exists_lineOutcome (line ending gap remains : List Char) :
    ∃ passed result, LineOutcome line ending gap remains passed result := by
  by_cases hbare : Stops (fun ch => ch == '#' || ch == '/') remains
  · exact ⟨_, _, .bare hbare⟩
  obtain ⟨ch, text, rfl, hch⟩ := exists_cons_of_not_stops hbare
  simp only [Bool.or_eq_true, beq_iff_eq] at hch
  obtain rfl | rfl := hch
  · have houtcome : LineOutcome line ending gap (['#'] ++ text) _ _ := .line (.inl rfl)
    exact ⟨_, _, houtcome⟩
  by_cases hstray : Stops (fun ch => ch == '/' || ch == '*') text
  · exact ⟨_, _, .slash hstray⟩
  obtain ⟨ch, text, rfl, hch⟩ := exists_cons_of_not_stops hstray
  simp only [Bool.or_eq_true, beq_iff_eq] at hch
  obtain rfl | rfl := hch
  · have houtcome : LineOutcome line ending gap (['/', '/'] ++ text) _ _ := .line (.inr rfl)
    exact ⟨_, _, houtcome⟩
  cases hbody : CommentText.beforeClose text with
  | none => exact ⟨_, _, .opened (CommentText.beforeClose_eq_none_iff.1 hbody)⟩
  | some body =>
    have hinfix := CommentText.not_isInfix_of_beforeClose hbody
    obtain ⟨tail, rfl⟩ := CommentText.eq_append_of_beforeClose hbody
    obtain ⟨blanks, x, rfl, hblanks, hstops⟩ := exists_blank_end tail
    cases x with
    | nil => exact ⟨_, _, .closed hinfix (by rwa [List.append_nil])⟩
    | cons ch x => exact ⟨_, _, .followed hinfix hblanks (hstops ch rfl)⟩

/-- Nothing beyond the line is passed. -/
theorem LineOutcome.isPrefix (h : LineOutcome line ending gap remains passed result)
    (hline : line = gap ++ remains) : passed <+: line ++ ending := by
  cases h with
  | line | closed => exact List.prefix_rfl
  | @followed body blanks tail ch _ _ _ =>
    refine List.IsPrefix.trans ⟨ch :: tail, ?_⟩ (List.prefix_append line ending)
    rw [hline]
    simp
  | opened => exact List.prefix_append line ending
  | slash | bare =>
    rw [hline, List.append_assoc]
    exact List.prefix_append gap _

theorem LineSplit.rest_eq (h : LineSplit separator c.rest line ending after gap remains) :
    (c.passAll gap).rest = remains ++ (ending ++ after) := by
  have htext := h.text_eq
  rw [h.line_eq, List.append_assoc] at htext
  exact Cursor.rest_passAll_left htext

theorem LineSplit.remains_unbroken (h : LineSplit separator text line ending after gap remains) :
    '\n' ∉ remains := by
  intro hmem
  apply h.unbroken
  rw [h.line_eq]
  exact List.mem_append_right _ hmem

section Outcomes

variable (h : LineSplit separator c.rest line ending after gap remains)

include h

theorem LineSplit.run_line {mark : List Char} (hmark : mark = ['#'] ∨ mark = ['/', '/'])
    (hremains : remains = mark ++ text) : (trailing separator).run c =
      .ok (String.ofList (trimmed text), c.passAll (line ++ ending)) := by
  have hrest := h.rest_eq
  have hbreak : '\n' ∉ text := fun hmem =>
    h.remains_unbroken (hremains ▸ List.mem_append_right _ hmem)
  rw [hremains, List.append_assoc] at hrest
  rw [trailing_run_line h.skip_run hmark hrest,
    trailingLine_run (Cursor.rest_passAll_left hrest) hbreak h.ends, ← Cursor.passAll_append,
    ← Cursor.passAll_append, h.line_eq, hremains]
  simp only [List.append_assoc]

theorem LineSplit.run_block (hremains : remains = '/' :: '*' :: text) :
    (trailing separator).run c = trailingBlock.run (c.passAll (gap ++ ['/', '*'])) ∧
      (c.passAll (gap ++ ['/', '*'])).rest = text ++ (ending ++ after) ∧ '\n' ∉ text := by
  have hrest := h.rest_eq
  rw [hremains] at hrest
  rw [Cursor.passAll_append]
  refine ⟨trailing_run_block h.skip_run hrest, Cursor.rest_passAll_left hrest, fun hmem => ?_⟩
  refine h.remains_unbroken ?_
  rw [hremains]
  exact List.mem_cons_of_mem _ (List.mem_cons_of_mem _ hmem)

theorem LineSplit.run_closed {body tail : List Char}
    (hremains : remains = '/' :: '*' :: (body ++ '*' :: '/' :: tail))
    (hbody : ¬ ['*', '/'] <:+: body) : (trailing separator).run c =
      (endOfLine (String.ofList (trimmed body))).run
        (c.passAll (gap ++ '/' :: '*' :: (body ++ ['*', '/']))) ∧
      (c.passAll (gap ++ '/' :: '*' :: (body ++ ['*', '/']))).rest = tail ++ (ending ++ after) := by
  obtain ⟨hrun, hrest, hbreak⟩ := h.run_block hremains
  have hsplit : gap ++ '/' :: '*' :: (body ++ ['*', '/']) =
      gap ++ ['/', '*'] ++ (body ++ ['*', '/']) := by simp
  rw [hrun, trailingBlock_run_closed hrest hbreak h.ends
      (CommentText.beforeClose_of_not_infix hbody tail), hsplit,
    Cursor.passAll_append c (gap ++ ['/', '*'])]
  refine ⟨rfl, Cursor.rest_passAll_left (hrest.trans ?_)⟩
  simp

/-- Reading behind a declaration comes to what the line decides. -/
theorem LineSplit.run (houtcome : LineOutcome line ending gap remains passed result) :
    (trailing separator).run c = passing c passed result := by
  have hline := h.line_eq
  cases houtcome with
  | line hmark => exact h.run_line hmark rfl
  | closed hbody htail =>
    obtain ⟨hrun, hrest⟩ := h.run_closed rfl hbody
    rw [hrun, endOfLine_run_ending htail _ hrest h.ends, ← Cursor.passAll_append, hline]
    simp [passing]
  | @followed body blanks tail ch hbody hblanks hch =>
    obtain ⟨hrun, hrest⟩ := h.run_closed rfl hbody
    have hbreak : ch ≠ '\n' := by
      rintro rfl
      exact h.remains_unbroken (by simp)
    rw [List.append_assoc] at hrest
    rw [hrun, endOfLine_run_text hblanks _ hrest hch hbreak, ← Cursor.passAll_append]
    simp [passing]
  | opened htext =>
    obtain ⟨hrun, hrest, hbreak⟩ := h.run_block rfl
    rw [hrun, trailingBlock_run_open hrest hbreak h.ends
        (CommentText.beforeClose_eq_none_iff.2 htext), ← Cursor.passAll_append, hline]
    simp [passing]
  | slash htext =>
    exact trailing_run_slash h.skip_run h.rest_eq (htext.append_ending (by decide) h.ends)
  | bare hbare =>
    refine trailing_run_bare h.skip_run ?_
    rw [h.rest_eq]
    exact hbare.append_ending (by decide) h.ends

/-- A block comment is read if it is closed on the line and only blanks follow it there. -/
theorem LineSplit.run_block_iff (hremains : remains = '/' :: '*' :: text) (doc : String)
    (d : Cursor) : (trailing separator).run c = .ok (doc, d) ↔ ∃ body tail,
      text = body ++ '*' :: '/' :: tail ∧ ¬ ['*', '/'] <:+: body ∧
        (∀ ch ∈ tail, CommentText.isLineBlank ch = true) ∧
          doc = String.ofList (trimmed body) ∧ d = c.passAll (line ++ ending) := by
  constructor
  · intro hok
    obtain ⟨passed, result, houtcome⟩ := exists_lineOutcome line ending gap remains
    rw [h.run houtcome] at hok
    cases houtcome with
    | line hmark =>
      obtain rfl | rfl := hmark
      · exact absurd (List.cons.inj hremains).1 (by decide)
      · exact absurd (List.cons.inj (List.cons.inj hremains).2).1 (by decide)
    | @closed body tail hbody htail =>
      obtain ⟨rfl, rfl⟩ := Prod.mk.inj (Except.ok.inj hok)
      exact ⟨body, tail, (List.cons.inj (List.cons.inj hremains).2).2.symm, hbody, htail, rfl, rfl⟩
    | followed | opened | slash => cases hok
    | bare hbare => exact absurd (hbare '/' (by rw [hremains]; rfl)) (by decide)
  · rintro ⟨body, tail, rfl, hbody, htail, rfl, rfl⟩
    subst hremains
    exact h.run (.closed hbody htail)

theorem LineSplit.at_passed {whole before : List Char} (hat : c.At whole before)
    (hpassed : passed <+: line ++ ending) : (c.passAll passed).At whole (before ++ passed) ∧
      (c.passAll passed).position = .behind (before ++ passed) := by
  have hrest : passed <+: c.rest := by
    rw [h.text_eq, ← List.append_assoc]
    exact hpassed.trans (List.prefix_append _ after)
  have hplace := hat.passAll hrest
  exact ⟨hplace, hplace.position_eq⟩

end Outcomes

/-- The documentation behind a declaration is that of the line, which decides on it alone. -/
theorem trailing_line (separator : Bool) (c : Cursor) : ∃ line ending after gap remains,
    LineSplit separator c.rest line ending after gap remains ∧
      (∀ mark text, mark = ['#'] ∨ mark = ['/', '/'] → remains = mark ++ text →
        (trailing separator).run c =
          .ok (String.ofList (trimmed text), c.passAll (line ++ ending))) ∧
      (∀ text, remains = '/' :: '*' :: text → ∀ doc d,
        (trailing separator).run c = .ok (doc, d) ↔ ∃ body tail,
          text = body ++ '*' :: '/' :: tail ∧ ¬ ['*', '/'] <:+: body ∧
            (∀ ch ∈ tail, CommentText.isLineBlank ch = true) ∧
              doc = String.ofList (trimmed body) ∧ d = c.passAll (line ++ ending)) ∧
      (∀ text, remains = '/' :: text → Stops (fun ch => ch == '/' || ch == '*') text →
        (trailing separator).run c = .error ⟨(c.passAll gap).position, .slashWithoutComment⟩) ∧
      (Stops (fun ch => ch == '#' || ch == '/') remains →
        (trailing separator).run c = .ok ("", c.passAll gap)) ∧
      (∃ passed result, passed <+: line ++ ending ∧ ∀ c' after',
        LineSplit separator c'.rest line ending after' gap remains →
          (trailing separator).run c' = passing c' passed result) ∧
      ∀ whole before passed, c.At whole before → passed <+: line ++ ending →
        (c.passAll passed).At whole (before ++ passed) ∧
          (c.passAll passed).position = .behind (before ++ passed) := by
  obtain ⟨line, ending, after, gap, remains, h⟩ := exists_lineSplit separator c.rest
  obtain ⟨passed, result, houtcome⟩ := exists_lineOutcome line ending gap remains
  refine ⟨line, ending, after, gap, remains, h, fun mark text hmark hremains => ?_,
    fun text hremains => h.run_block_iff hremains, fun text hremains htext => ?_,
    fun hbare => h.run (.bare hbare),
    ⟨passed, result, houtcome.isPrefix h.line_eq, fun c' after' h' => h'.run houtcome⟩,
    fun whole before passed hat hpassed => h.at_passed hat hpassed⟩
  · exact h.run_line hmark hremains
  · subst hremains
    exact h.run (.slash htext)

end Lines

end ThriftIdl.Reader
