import ThriftIdl.Proofs.CommentTexts
import ThriftIdl.Proofs.LexemeMovement

namespace ThriftIdl

theorem Cursor.rest_passAll_left {c : Cursor} {run x : List Char} (hx : c.rest = run ++ x) :
    (c.passAll run).rest = x := by
  rw [rest_passAll, hx, List.drop_left]

namespace Reader

/-- A line ends with its break, or with the text. -/
def LineEnd (ending after : List Char) : Prop :=
  ending = ['\n'] ∨ ending = [] ∧ after = []

/-- A comment as it stands in front of a text, with what it says. -/
inductive Says : List Char → List Char → List Char → Prop
  | line {mark line ending after : List Char} (hmark : mark = ['#'] ∨ mark = ['/', '/'])
      (hline : '\n' ∉ line) (hend : LineEnd ending after) :
      Says (mark ++ (line ++ ending)) (CommentText.lineText line) after
  | block {body : List Char} (hbody : ¬ ['*', '/'] <:+: body) (after : List Char) :
      Says (['/', '*'] ++ body ++ ['*', '/']) (CommentText.blockText body) after

/-- What begins like a comment and is none. -/
inductive Malformed : List Char → SyntaxFault → Prop
  | stray {x : List Char} (h : Stops (fun ch => ch == '/' || ch == '*') x) :
      Malformed ('/' :: x) .strayCommentStart
  | unclosed {x : List Char} (h : ¬ ['*', '/'] <:+: x) :
      Malformed ('/' :: '*' :: x) .unterminatedComment

variable {c d : Cursor} {ch : Char} {x line ending after body written text run : List Char}
  {fault : SyntaxFault}

section Lines

theorem LineEnd.endsLine (h : LineEnd ending after) : CommentText.EndsLine (ending ++ after) := by
  obtain rfl | ⟨rfl, rfl⟩ := h
  · simp [CommentText.EndsLine]
  · simp [CommentText.EndsLine]

theorem Stops.append_ending {p : Char → Bool} (h : Stops p line) (hbreak : p '\n' = false)
    (hend : LineEnd ending after) : Stops p (line ++ (ending ++ after)) := by
  cases line with
  | nil =>
    obtain rfl | ⟨rfl, rfl⟩ := hend
    · exact stops_cons hbreak
    · exact stops_nil p
  | cons ch line => exact stops_cons (h ch rfl)

theorem takeWhile_line (hline : '\n' ∉ line) (hend : LineEnd ending after) :
    (line ++ (ending ++ after)).takeWhile (· != '\n') = line := by
  refine takeWhile_run_append (fun ch hch => ?_) ((stops_nil _).append_ending (by decide) hend)
  rw [bne_iff_ne]
  rintro rfl
  exact hline hch

theorem passIf_run_head (hx : c.rest = ch :: x) : (passIf ch).run c = .ok ((), c.pass ch) := by
  refine (bind_run_of_ok (a := c.rest.head?) (d := c) rfl).trans ?_
  rw [hx, List.head?_cons, if_pos rfl]
  rfl

theorem passIf_run_other (hx : ∀ x, c.rest ≠ ch :: x) : (passIf ch).run c = .ok ((), c) := by
  refine (bind_run_of_ok (a := c.rest.head?) (d := c) rfl).trans ?_
  rw [if_neg]
  · rfl
  · intro h
    obtain ⟨x, hx'⟩ := List.head?_eq_some_iff.1 h
    exact hx x hx'

theorem restOfLine_run (hx : c.rest = line ++ (ending ++ after)) (hline : '\n' ∉ line)
    (hend : LineEnd ending after) : restOfLine.run c = .ok (line, c.passAll (line ++ ending)) := by
  have htake := takeWhile_run (· != '\n') c
  rw [hx, takeWhile_line hline hend] at htake
  have hrest := Cursor.rest_passAll_left hx
  have hpass : (passIf '\n').run (c.passAll line) = .ok ((), c.passAll (line ++ ending)) := by
    rw [Cursor.passAll_append]
    obtain rfl | ⟨rfl, rfl⟩ := hend
    · exact passIf_run_head hrest
    · exact passIf_run_other fun x hx => List.cons_ne_nil _ _ (hx.symm.trans hrest)
  exact (bind_run_of_ok htake).trans (bind_run_of_ok hpass)

theorem restOfLine_run_break (hx : c.rest = line ++ '\n' :: x) (hline : '\n' ∉ line) :
    restOfLine.run c = .ok (line, c.passAll (line ++ ['\n'])) :=
  restOfLine_run hx hline (.inl rfl)

theorem restOfLine_run_last (hx : '\n' ∉ c.rest) :
    restOfLine.run c = .ok (c.rest, c.passAll c.rest) := by
  have hlast : c.rest = c.rest ++ ([] ++ []) := by simp
  have hrun := restOfLine_run hlast hx (.inr ⟨rfl, rfl⟩)
  rwa [List.append_nil] at hrun

/-- One blank in front of what the line says is passed on its own. -/
theorem lineComment_run (hx : c.rest = line ++ (ending ++ after)) (hline : '\n' ∉ line)
    (hend : LineEnd ending after) : lineComment.run c =
      .ok (String.ofList (CommentText.lineText line), c.passAll (line ++ ending)) := by
  by_cases hblank : ∃ rest, line = ' ' :: rest
  · obtain ⟨rest, rfl⟩ := hblank
    have hrest : (c.pass ' ').rest = rest ++ (ending ++ after) := by
      rw [Cursor.rest_pass, hx]
      rfl
    refine (bind_run_of_ok (passIf_run_head hx)).trans ?_
    refine (bind_run_of_ok (restOfLine_run hrest ?_ hend)).trans rfl
    exact fun hmem => hline (List.mem_cons_of_mem _ hmem)
  · have hhead : ∀ x, c.rest ≠ ' ' :: x := by
      intro x heq
      rw [hx] at heq
      cases line with
      | nil => obtain rfl | ⟨rfl, rfl⟩ := hend <;> cases heq
      | cons ch line => exact hblank ⟨line, by rw [(List.cons.inj heq).1]⟩
    have hbare : CommentText.dropBlank line = line := by
      rw [CommentText.dropBlank]
      exact fun rest heq => hblank ⟨rest, heq⟩
    refine (bind_run_of_ok (passIf_run_other hhead)).trans ?_
    refine (bind_run_of_ok (restOfLine_run hx hline hend)).trans ?_
    rw [CommentText.lineText, hbare]
    rfl

end Lines

section Comments

theorem comment_run_closed (hx : c.rest = '/' :: '*' :: x)
    (hbody : CommentText.beforeClose x = some body) :
    comment.run c = .ok (String.ofList (CommentText.ofBlock body),
      c.passAll (['/', '*'] ++ body ++ ['*', '/'])) := by
  refine (bind_run_of_ok (a := c.rest) (d := c) rfl).trans ?_
  simp only [hx, hbody]
  rfl

theorem comment_run_open (hx : c.rest = '/' :: '*' :: x)
    (hbody : CommentText.beforeClose x = none) :
    comment.run c = .error ⟨c.position, .unterminatedComment⟩ := by
  refine (bind_run_of_ok (a := c.rest) (d := c) rfl).trans ?_
  simp only [hx, hbody]
  rfl

/-- A comment is read up to its end, for what it says. -/
theorem comment_run (h : Says written text after) (hx : c.rest = written ++ after) :
    comment.run c = .ok (String.ofList text, c.passAll written) := by
  cases h with
  | @line mark line ending _ hmark hline hend =>
    rw [List.append_assoc, List.append_assoc] at hx
    refine (bind_run_of_ok (a := c.rest) (d := c) rfl).trans ?_
    rw [Cursor.passAll_append]
    obtain rfl | rfl := hmark
    · simp only [hx, List.cons_append, List.nil_append]
      refine (bind_run_of_ok (a := ()) (d := c.passAll ['#']) rfl).trans ?_
      refine lineComment_run ?_ hline hend
      rw [Cursor.rest_passAll, hx]
      rfl
    · simp only [hx, List.cons_append, List.nil_append]
      refine (bind_run_of_ok (a := ()) (d := c.passAll ['/', '/']) rfl).trans ?_
      refine lineComment_run ?_ hline hend
      rw [Cursor.rest_passAll, hx]
      rfl
  | @block body hbody =>
    rw [List.append_assoc, List.append_assoc] at hx
    rw [comment_run_closed hx (CommentText.beforeClose_of_not_infix hbody after),
      CommentText.ofBlock_eq]

theorem comment_run_malformed (h : Malformed c.rest fault) :
    comment.run c = .error ⟨c.position, fault⟩ := by
  generalize hx : c.rest = x at h
  cases h with
  | @stray x hstray =>
    refine (bind_run_of_ok (a := c.rest) (d := c) rfl).trans ?_
    rw [hx]
    split
    · next heq => cases heq
    · next heq => exact absurd (hstray '/' (by rw [(List.cons.inj heq).2]; rfl)) (by decide)
    · next heq => exact absurd (hstray '*' (by rw [(List.cons.inj heq).2]; rfl)) (by decide)
    · rfl
  | unclosed hopen => exact comment_run_open hx (CommentText.beforeClose_eq_none_iff.2 hopen)

theorem exists_line (x : List Char) :
    ∃ line ending after, x = line ++ (ending ++ after) ∧ '\n' ∉ line ∧ LineEnd ending after := by
  by_cases hbreak : '\n' ∈ x
  · obtain ⟨line, after, rfl, hline⟩ := List.eq_append_cons_of_mem hbreak
    exact ⟨line, ['\n'], after, rfl, hline, .inl rfl⟩
  · exact ⟨x, [], [], by simp, hbreak, .inr ⟨rfl, rfl⟩⟩

theorem says_line {mark : List Char} (hmark : mark = ['#'] ∨ mark = ['/', '/']) (x : List Char) :
    ∃ written text after, Says written text after ∧ mark ++ x = written ++ after := by
  obtain ⟨line, ending, after, rfl, hline, hend⟩ := exists_line x
  exact ⟨_, _, after, .line hmark hline hend, by simp⟩

/-- Where a comment may begin, there either is one or the reading fails. -/
theorem says_or_malformed (h : ch = '/' ∨ ch = '#') (x : List Char) :
    (∃ written text after, Says written text after ∧ ch :: x = written ++ after) ∨
      ∃ fault, Malformed (ch :: x) fault := by
  obtain rfl | rfl := h
  · cases x with
    | nil => exact .inr ⟨_, .stray (stops_nil _)⟩
    | cons next x =>
      by_cases hline : next = '/'
      · rw [hline]
        exact .inl (says_line (.inr rfl) x)
      by_cases hblock : next = '*'
      · rw [hblock]
        cases hbody : CommentText.beforeClose x with
        | none => exact .inr ⟨_, .unclosed (CommentText.beforeClose_eq_none_iff.1 hbody)⟩
        | some body =>
          obtain ⟨after, rfl⟩ := CommentText.eq_append_of_beforeClose hbody
          have hinfix := CommentText.not_isInfix_of_beforeClose hbody
          exact .inl ⟨_, _, after, .block hinfix after, by simp⟩
      · exact .inr ⟨_, .stray (stops_cons (by simp [hline, hblock]))⟩
  · exact .inl (says_line (.inl rfl) x)

theorem Says.head? (h : Says written text after) :
    written.head? = some '#' ∨ written.head? = some '/' := by
  cases h with
  | line hmark _ _ => obtain rfl | rfl := hmark <;> simp
  | block _ _ => exact .inr rfl

theorem Malformed.head? (h : Malformed x fault) : x.head? = some '/' := by
  cases h <;> rfl

end Comments

/-- The end of a line, after a comment that was closed on it. -/
def endOfLine (text : String) : Reader String := do
  skipWhile CommentText.isLineBlank
  match ← next? with
  | none => return text
  | some '\n' =>
    pass '\n'
    return text
  | some _ => fail .textAfterTrailingComment

section EndOfLine

variable {run : List Char} (hrun : ∀ ch ∈ run, CommentText.isLineBlank ch = true)

include hrun

theorem endOfLine_run (text : String) (hx : c.rest = run ++ x)
    (hstops : Stops CommentText.isLineBlank x) : (endOfLine text).run c = (do
      match ← next? with
      | none => return text
      | some '\n' =>
        pass '\n'
        return text
      | some _ => fail .textAfterTrailingComment : Reader String).run (c.passAll run) := by
  have hskip := skipWhile_run CommentText.isLineBlank c
  rw [hx, takeWhile_run_append hrun hstops] at hskip
  exact bind_run_of_ok hskip

theorem endOfLine_run_ending (text : String) (hx : c.rest = run ++ (ending ++ after))
    (hend : LineEnd ending after) :
    (endOfLine text).run c = .ok (text, c.passAll (run ++ ending)) := by
  rw [endOfLine_run hrun text hx ((stops_nil _).append_ending (by decide) hend), Cursor.passAll_append]
  refine (bind_run_of_ok (a := (c.passAll run).rest.head?) (d := c.passAll run) rfl).trans ?_
  rw [Cursor.rest_passAll_left hx]
  obtain rfl | ⟨rfl, rfl⟩ := hend <;> rfl

theorem endOfLine_run_break (text : String) (hx : c.rest = run ++ '\n' :: x) :
    (endOfLine text).run c = .ok (text, c.passAll (run ++ ['\n'])) :=
  endOfLine_run_ending hrun text hx (.inl rfl)

theorem endOfLine_run_last (text : String) (hx : c.rest = run) :
    (endOfLine text).run c = .ok (text, c.passAll run) := by
  have hlast : c.rest = run ++ ([] ++ []) := by simp [hx]
  have hend := endOfLine_run_ending hrun text hlast (.inr ⟨rfl, rfl⟩)
  rwa [List.append_nil] at hend

theorem endOfLine_run_text (text : String) (hx : c.rest = run ++ ch :: x)
    (hch : CommentText.isLineBlank ch = false) (hbreak : ch ≠ '\n') :
    (endOfLine text).run c = .error ⟨(c.passAll run).position, .textAfterTrailingComment⟩ := by
  rw [endOfLine_run hrun text hx (stops_cons hch)]
  have hrest : (c.passAll run).rest = ch :: x := Cursor.rest_passAll_left hx
  refine (bind_run_of_ok (a := (c.passAll run).rest.head?) (d := c.passAll run) rfl).trans ?_
  rw [hrest, List.head?_cons]
  split
  · next h => cases h
  · next h => exact absurd (Option.some.inj h) hbreak
  · rfl

end EndOfLine

/-- Where no comment begins on the line, there is no documentation. -/
theorem trailing_run_bare {separator : Bool} (hskip : (skipSeparator separator).run c = .ok ((), d))
    (hd : Stops (fun ch => ch == '#' || ch == '/') d.rest) :
    (trailing separator).run c = .ok ("", d) := by
  refine (bind_run_of_ok hskip).trans ?_
  refine (bind_run_of_ok (a := d.rest) (d := d) rfl).trans ?_
  split
  · next hx => cases hd '#' (by rw [hx, List.head?_cons, Option.mem_some])
  · next hx => cases hd '/' (by rw [hx, List.head?_cons, Option.mem_some])
  · next hx => cases hd '/' (by rw [hx, List.head?_cons, Option.mem_some])
  · next hx => cases hd '/' (by rw [hx, List.head?_cons, Option.mem_some])
  · rfl

end Reader

end ThriftIdl
