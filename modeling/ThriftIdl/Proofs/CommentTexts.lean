import Mathlib.Data.List.DropRight
import Mathlib.Data.List.TakeWhile
import ThriftIdl.CommentText

namespace ThriftIdl.CommentText

/-- A star at the beginning of a line, with one blank directly behind it. -/
def dropStar : List Char → List Char
  | '*' :: ' ' :: line => line
  | '*' :: line => line
  | line => line

/-- What a line of a block comment says. -/
def ofBlockLine (line : List Char) : List Char :=
  (dropStar (line.dropWhile Text.isWhiteSpace)).filter (· ≠ '\r')

def ofBlockLines (body : List Char) : List Char :=
  ['\n'].intercalate ((body.splitOn '\n').map ofBlockLine)

/-- The end of a text, or of a line in it. -/
def EndsLine (x : List Char) : Prop := ∀ ch ∈ x.head?, ch = '\n'

section Lines

variable {line x : List Char}

theorem stripMargin_break (fresh : Bool) (x : List Char) :
    stripMargin fresh ('\n' :: x) = '\n' :: stripMargin true x := by
  cases fresh <;> rfl

theorem stripMargin_return (fresh : Bool) (x : List Char) :
    stripMargin fresh ('\r' :: x) = stripMargin fresh x := by
  cases fresh <;> rfl

/-- At the end of a line it is all one whether anything stood on it. -/
theorem stripMargin_endsLine (fresh : Bool) (h : EndsLine x) :
    stripMargin fresh x = stripMargin true x := by
  cases x with
  | nil => cases fresh <;> rfl
  | cons ch x =>
    obtain rfl := h ch rfl
    cases fresh <;> rfl

theorem stripMargin_text (hline : '\n' ∉ line) (hx : EndsLine x) :
    stripMargin false (line ++ x) = line.filter (· ≠ '\r') ++ stripMargin true x := by
  induction line with
  | nil => exact stripMargin_endsLine false hx
  | cons ch line ih =>
    rw [List.mem_cons, not_or] at hline
    by_cases hreturn : ch = '\r'
    · rw [hreturn, List.cons_append, stripMargin_return, ih hline.2]
      rfl
    · rw [List.cons_append, List.filter_cons_of_pos (by simpa using hreturn), List.cons_append,
        ← ih hline.2, stripMargin]
      · exact fun h => hline.1 h.symm
      · exact hreturn

theorem stripMargin_star (hline : '\n' ∉ line) (hx : EndsLine x) :
    stripMargin true ('*' :: (line ++ x)) =
      (dropStar ('*' :: line)).filter (· ≠ '\r') ++ stripMargin true x := by
  by_cases hspace : ∃ rest, line = ' ' :: rest
  · obtain ⟨rest, rfl⟩ := hspace
    exact stripMargin_text (fun hmem => hline (List.mem_cons_of_mem _ hmem)) hx
  · have hnext : ∀ rest, line ++ x ≠ ' ' :: rest := by
      intro rest heq
      cases line with
      | nil => exact absurd (hx ' ' (by rw [← List.nil_append x, heq]; rfl)) (by decide)
      | cons ch line =>
        obtain ⟨rfl, -⟩ := List.cons.inj heq
        exact hspace ⟨line, rfl⟩
    have hdrop : dropStar ('*' :: line) = line := by
      rw [dropStar]
      exact fun rest heq => hspace ⟨rest, heq⟩
    rw [hdrop, ← stripMargin_text hline hx, stripMargin]
    exact hnext

theorem stripMargin_line (hline : '\n' ∉ line) (hx : EndsLine x) :
    stripMargin true (line ++ x) = ofBlockLine line ++ stripMargin true x := by
  induction line with
  | nil => rfl
  | cons ch line ih =>
    rw [List.mem_cons, not_or] at hline
    obtain ⟨hbreak, hline⟩ := hline
    have hwhite (h : Text.isWhiteSpace ch = true) :
        ofBlockLine (ch :: line) = ofBlockLine line := by
      rw [ofBlockLine, List.dropWhile_cons_of_pos h]
      rfl
    by_cases hreturn : ch = '\r'
    · rw [List.cons_append, hwhite (by rw [hreturn]; rfl), hreturn, stripMargin_return, ih hline]
    by_cases hstar : ch = '*'
    · subst hstar
      exact stripMargin_star hline hx
    by_cases hspace : Text.isWhiteSpace ch = true
    · rw [List.cons_append, hwhite hspace, ← ih hline, stripMargin, if_pos hspace]
      · exact fun h => hbreak h.symm
      · exact hreturn
      · exact fun _ h _ => hstar h
      · exact hstar
    · have hdrop : dropStar ((ch :: line).dropWhile Text.isWhiteSpace) = ch :: line := by
        rw [List.dropWhile_cons_of_neg hspace, dropStar]
        · exact fun _ h => hstar (List.cons.inj h).1
        · exact fun _ h => hstar (List.cons.inj h).1
      rw [ofBlockLine, hdrop, List.filter_cons_of_pos (by simpa using hreturn), List.cons_append,
        List.cons_append, ← stripMargin_text hline hx, stripMargin, if_neg hspace]
      · exact fun h => hbreak h.symm
      · exact hreturn
      · exact fun _ h _ => hstar h
      · exact hstar

/-- Taking the margin off in one go is taking it off every line. -/
theorem stripMargin_eq (body : List Char) : stripMargin true body = ofBlockLines body := by
  induction hn : body.length using Nat.strongRecOn generalizing body with
  | ind n ih =>
    subst hn
    by_cases hbreak : '\n' ∈ body
    · obtain ⟨line, x, rfl, hline⟩ := List.eq_append_cons_of_mem hbreak
      have hrest := ih x.length (by simp; omega) x rfl
      rw [stripMargin_line hline (by simp [EndsLine]), stripMargin_break, hrest, ofBlockLines,
        ofBlockLines, List.splitOn_append_cons_self_of_not_mem hline, List.map_cons,
        List.intercalate_cons_of_ne_nil (by simp), List.append_assoc]
      rfl
    · have hlast := stripMargin_line hbreak (x := []) (by simp [EndsLine])
      rw [List.append_nil] at hlast
      rw [hlast, ofBlockLines, List.splitOn_eq_singleton hbreak, List.map_singleton,
        List.intercalate_singleton]
      exact List.append_nil _

/-- What the body of a block comment says. -/
def blockText (body : List Char) : List Char :=
  ((ofBlockLines body).dropWhile Text.isWhiteSpace).rdropWhile Text.isWhiteSpace

theorem ofBlock_eq (body : List Char) : ofBlock body = blockText body := by
  rw [ofBlock, stripMargin_eq]
  rfl

end Lines

/-- A line behind the mark of a comment, without one blank that comes first. -/
def dropBlank : List Char → List Char
  | ' ' :: line => line
  | line => line

/-- What a comment up to the end of its line says. -/
def lineText (line : List Char) : List Char :=
  (dropBlank line).rdropWhile (· == '\r')

section Closing

variable {x body : List Char}

theorem isInfix_cons_iff {ch : Char} : ['*', '/'] <:+: ch :: x ↔
    (ch = '*' ∧ ∃ y, x = '/' :: y) ∨ ['*', '/'] <:+: x := by
  rw [List.infix_cons_iff, List.cons_prefix_cons, List.prefix_iff_exists_eq_append,
    eq_comm (a := ch)]
  rfl

theorem beforeClose_eq_none_iff : beforeClose x = none ↔ ¬ ['*', '/'] <:+: x := by
  fun_induction beforeClose x with
  | case1 x => simpa using ⟨[], x, rfl⟩
  | case2 ch x hopen ih =>
    rw [Option.map_eq_none_iff, ih, isInfix_cons_iff, or_iff_right]
    rintro ⟨hstar, y, hy⟩
    exact hopen y hstar hy
  | case3 => simp

theorem not_isInfix_of_beforeClose (h : beforeClose x = some body) : ¬ ['*', '/'] <:+: body := by
  fun_induction beforeClose x generalizing body with
  | case1 x =>
    rw [← Option.some.inj h]
    simp
  | case2 ch x hopen ih =>
    obtain ⟨found, hfound, rfl⟩ := Option.map_eq_some_iff.1 h
    rw [isInfix_cons_iff, or_iff_left (ih hfound)]
    rintro ⟨hstar, y, rfl⟩
    obtain ⟨behind, rfl⟩ := eq_append_of_beforeClose hfound
    exact hopen _ hstar rfl
  | case3 => cases h

end Closing

end ThriftIdl.CommentText
