import ThriftIdl.Proofs.LexemeMovement
import ThriftIdl.Proofs.LineBreaks
import ThriftIdl.Proofs.ReadingInStep

namespace ThriftIdl.Reader

/-- What stands between two quotes, and the text that it spells. -/
inductive Spells (quote : Char) : List Char → List Char → Prop
  | nil : Spells quote [] []
  | escape {letter value : Char} {body text : List Char} (h : unescape? quote letter = some value)
      (rest : Spells quote body text) : Spells quote ('\\' :: letter :: body) (value :: text)
  | char {ch : Char} {body text : List Char} (hquote : ch ≠ quote) (hescape : ch ≠ '\\')
      (rest : Spells quote body text) : Spells quote (ch :: body) (ch :: text)

section Spellings

variable {quote ch : Char} {n : Nat} {body text text' x y : List Char}

theorem Spells.unique (h : Spells quote body text) (h' : Spells quote body text') :
    text' = text := by
  induction h generalizing text' with
  | nil =>
    cases h'
    rfl
  | escape hletter _ ih =>
    cases h' with
    | escape hletter' rest => rw [ih rest, Option.some.inj (hletter.symm.trans hletter')]
    | char _ hescape => exact absurd rfl hescape
  | char _ hescape _ ih =>
    cases h' with
    | escape => exact absurd rfl hescape
    | char _ _ rest => rw [ih rest]

theorem isQuote_ne (h : isQuote quote = true) :
    quote ≠ '\n' ∧ quote ≠ '\r' ∧ quote ≠ '\\' := by
  simp only [isQuote, Bool.or_eq_true, beq_iff_eq] at h
  obtain rfl | rfl := h <;> decide

/-- What is spelled ends at the first quote that is not escaped. -/
theorem Spells.body_unique {body' : List Char} (hquote : isQuote quote = true)
    (h : Spells quote body text) (h' : Spells quote body' text')
    (hx : body' ++ quote :: y = body ++ quote :: x) : body' = body := by
  have hescaped := (isQuote_ne hquote).2.2
  induction h generalizing body' text' with
  | nil =>
    cases h' with
    | nil => rfl
    | escape => exact absurd (List.cons.inj hx).1.symm hescaped
    | char hne => exact absurd (List.cons.inj hx).1 hne
  | escape _ _ ih =>
    cases h' with
    | nil => exact absurd (List.cons.inj hx).1 hescaped
    | escape _ rest =>
      obtain ⟨-, hx⟩ := List.cons.inj hx
      obtain ⟨rfl, hrest⟩ := List.cons.inj hx
      rw [ih rest hrest]
    | char _ hescape => exact absurd (List.cons.inj hx).1 hescape
  | char hne hescape _ ih =>
    cases h' with
    | nil => exact absurd (List.cons.inj hx).1.symm hne
    | escape => exact absurd (List.cons.inj hx).1.symm hescape
    | char _ _ rest =>
      obtain ⟨rfl, hrest⟩ := List.cons.inj hx
      rw [ih rest hrest]

theorem ne_return_of_unescape? {value : Char} (hquote : isQuote quote = true)
    (h : unescape? quote ch = some value) : ch ≠ '\r' := by
  rintro rfl
  simp [unescape?, (isQuote_ne hquote).2.1.symm] at h

theorem Spells.returns (hquote : isQuote quote = true) (n : Nat) (h : Spells quote body text) :
    Spells quote (List.replicate n '\r' ++ body) (List.replicate n '\r' ++ text) := by
  induction n with
  | zero => exact h
  | succ n ih => exact .char (isQuote_ne hquote).2.1.symm (by decide) ih

/-- Line breaks stand for themselves in a literal, and so do carriage returns. -/
theorem Spells.widen (hquote : isQuote quote = true) (n : Nat) (h : Spells quote body text) :
    ∃ text', Spells quote (Text.widen n body) text' := by
  induction h with
  | nil => exact ⟨[], .nil⟩
  | escape hletter _ ih =>
    obtain ⟨text', h'⟩ := ih
    rw [Text.widen_cons (by decide),
      Text.widen_cons (ne_break_of_unescape? (isQuote_ne hquote).1 hletter)]
    exact ⟨_, .escape hletter h'⟩
  | @char ch body text hne hescape _ ih =>
    obtain ⟨text', h'⟩ := ih
    by_cases hch : ch = '\n'
    · subst hch
      rw [Text.widen_break]
      exact ⟨_, .returns hquote n (.char hne hescape h')⟩
    · rw [Text.widen_cons hch]
      exact ⟨_, .char hne hescape h'⟩

theorem Spells.of_returns (hquote : isQuote quote = true) (n : Nat) (h : Spells quote body text)
    (hx : List.replicate n '\r' ++ x = body ++ quote :: y) :
    ∃ body' text', Spells quote body' text' ∧ x = body' ++ quote :: y := by
  induction n generalizing body text with
  | zero => exact ⟨body, text, h, hx⟩
  | succ n ih =>
    cases h with
    | nil =>
      obtain ⟨hreturn, -⟩ := List.cons.inj hx
      exact absurd hreturn.symm (isQuote_ne hquote).2.1
    | escape => cases hx
    | char _ _ rest => exact ih rest (List.cons.inj hx).2

/-- A literal that is closed in the text with carriage returns is closed in the other one. -/
theorem Spells.of_widen (hquote : isQuote quote = true) (h : Spells quote body text)
    (hx : Text.widen n x = body ++ quote :: y) :
    ∃ body' text' z, Spells quote body' text' ∧ x = body' ++ quote :: z := by
  induction hn : x.length using Nat.strongRecOn generalizing x body text with
  | ind m ih =>
    subst hn
    cases x with
    | nil => simp [Text.widen] at hx
    | cons ch x =>
      have hagain {x' body text : List Char} (hlt : x'.length < (ch :: x).length)
          (h : Spells quote body text) (hx : Text.widen n x' = body ++ quote :: y) :
          ∃ body' text' z, Spells quote body' text' ∧ x' = body' ++ quote :: z :=
        ih _ hlt h hx rfl
      by_cases hch : ch = '\n'
      · subst hch
        rw [Text.widen_break] at hx
        obtain ⟨body', text', h', hx'⟩ := h.of_returns hquote n hx
        cases h' with
        | nil => exact absurd (List.cons.inj hx').1 (isQuote_ne hquote).1.symm
        | escape => cases hx'
        | char hne hescape rest =>
          obtain ⟨rfl, hrest⟩ := List.cons.inj hx'
          obtain ⟨body'', text'', z, h'', rfl⟩ := hagain (Nat.lt_succ_self _) rest hrest
          exact ⟨_, _, z, .char hne hescape h'', rfl⟩
      · rw [Text.widen_cons hch] at hx
        cases h with
        | nil =>
          obtain ⟨rfl, -⟩ := List.cons.inj hx
          exact ⟨[], [], x, .nil, rfl⟩
        | @escape letter value body text hletter rest =>
          obtain ⟨rfl, hrest⟩ := List.cons.inj hx
          obtain ⟨x', rfl, hx'⟩ := Text.head_of_widen (by simp [Text.NewLine])
            (ne_break_of_unescape? (isQuote_ne hquote).1 hletter)
            (ne_return_of_unescape? hquote hletter) ((List.append_nil _).trans hrest)
          rw [List.append_nil] at hx'
          obtain ⟨body', text', z, h', rfl⟩ :=
            hagain (Nat.lt_succ_of_lt (Nat.lt_succ_self _)) rest hx'.symm
          exact ⟨_, _, z, .escape hletter h', rfl⟩
        | char hne hescape rest =>
          obtain ⟨rfl, hrest⟩ := List.cons.inj hx
          obtain ⟨body', text', z, h', rfl⟩ := hagain (Nat.lt_succ_self _) rest hrest
          exact ⟨_, _, z, .char hne hescape h', rfl⟩

end Spellings

section Tails

variable {c d : Cursor} {start : Position} {quote ch letter value : Char}
  {body text found x : List Char}

theorem literalTail_run_quote (hx : c.rest = quote :: x) :
    (literalTail start quote found).run c = .ok (String.ofList found.reverse, c.advance) := by
  rw [literalTail, fix_run]
  refine (bind_run_of_ok (a := c.rest.head?) (d := c) rfl).trans ?_
  rw [hx, List.head?_cons]
  dsimp only
  rw [if_pos rfl]
  rfl

theorem literalTail_run_char (hx : c.rest = ch :: x) (hquote : ch ≠ quote) (hescape : ch ≠ '\\') :
    (literalTail start quote found).run c =
      (literalTail start quote (ch :: found)).run (c.pass ch) := by
  have hlt : (c.pass ch).rest.length < c.rest.length := (Cursor.Past.pass hx).shorter
  rw [literalTail, fix_run]
  refine (bind_run_of_ok (a := c.rest.head?) (d := c) rfl).trans ?_
  rw [hx, List.head?_cons]
  dsimp only
  rw [if_neg hquote, if_neg hescape, ← hx]
  refine (bind_run_of_ok (a := ()) (d := c.pass ch) rfl).trans ?_
  exact guarded_run_of_lt hlt

theorem escaped_run (hx : c.rest = letter :: x) (h : unescape? quote letter = some value) :
    (escaped quote).run c = .ok (value, c.advance) := by
  refine (bind_run_of_ok (a := c.rest.head?) (d := c) rfl).trans ?_
  rw [hx, List.head?_cons]
  refine (bind_run_of_ok (a := ()) (d := c.advance) rfl).trans ?_
  rw [h]
  rfl

theorem literalTail_run_escape (hx : c.rest = '\\' :: letter :: x) (hquote : quote ≠ '\\')
    (h : unescape? quote letter = some value) :
    (literalTail start quote found).run c =
      (literalTail start quote (value :: found)).run c.advance.advance := by
  have hrest : c.advance.rest = letter :: x := by
    change c.rest.tail = _
    rw [hx, List.tail_cons]
  have hlt : c.advance.advance.rest.length < c.rest.length := by
    change c.rest.tail.tail.length < _
    rw [hx]
    simp only [List.tail_cons, List.length_cons]
    omega
  rw [literalTail, fix_run]
  refine (bind_run_of_ok (a := c.rest.head?) (d := c) rfl).trans ?_
  rw [hx, List.head?_cons]
  dsimp only
  rw [if_neg hquote.symm, if_pos rfl, ← hx]
  refine (bind_run_of_ok (a := ()) (d := c.advance) rfl).trans ?_
  refine (bind_run_of_ok (escaped_run hrest h)).trans ?_
  exact guarded_run_of_lt hlt

/-- Whatever is spelled up to a closing quote is read, and nothing more. -/
theorem literalTail_run (hquote : isQuote quote = true) (h : Spells quote body text)
    (hx : c.rest = body ++ quote :: x) (found : List Char) :
    (literalTail start quote found).run c =
      .ok (String.ofList (found.reverse ++ text), c.passAll (body ++ [quote])) := by
  obtain ⟨hbreak, -, hescaped⟩ := isQuote_ne hquote
  induction h generalizing c found with
  | nil =>
    rw [literalTail_run_quote hx, Cursor.advance_eq_pass hbreak, List.append_nil]
    rfl
  | @escape letter value body text hletter _ ih =>
    have hmark : c.advance = c.pass '\\' := Cursor.advance_eq_pass (by decide)
    have hpassed : c.advance.advance = (c.pass '\\').pass letter := by
      rw [hmark, Cursor.advance_eq_pass (ne_break_of_unescape? hbreak hletter)]
    rw [literalTail_run_escape hx hescaped hletter, hpassed, ih]
    · simp [Cursor.passAll]
    · simp [Cursor.rest_pass, hx]
  | @char ch body text hne hescape _ ih =>
    rw [literalTail_run_char hx hne hescape, ih]
    · simp [Cursor.passAll]
    · simp [Cursor.rest_pass, hx]

theorem ends_escaped (hquote : quote ≠ '\n') (c : Cursor) : Ends (escaped quote) c
    (fun value d => ∃ letter x, c.rest = letter :: x ∧ unescape? quote letter = some value ∧
      d = c.pass letter) fun _ => True := by
  refine ends_next?.bind fun next c' hnext => ?_
  obtain ⟨hnext, rfl⟩ := hnext
  split
  · trivial
  · next letter =>
    obtain ⟨x, hx⟩ := List.head?_eq_some_iff.1 hnext.symm
    refine Ends.bind (Q := fun _ d => d = c'.advance) rfl fun _ d hd => ?_
    split
    · next value hvalue =>
      exact ⟨letter, x, hx, hvalue,
        hd.trans (Cursor.advance_eq_pass (ne_break_of_unescape? hquote hvalue))⟩
    · trivial

/-- Only what is spelled up to a closing quote is read. -/
theorem ends_literalTail (hquote : quote ≠ '\n') (found : List Char) (c : Cursor) :
    Ends (literalTail start quote found) c (fun _ _ => ∃ body text x, Spells quote body text ∧
      c.rest = body ++ quote :: x) fun _ => True := by
  unfold literalTail
  refine ends_fix (Q := fun _ c _ _ => ∃ body text x, Spells quote body text ∧
    c.rest = body ++ quote :: x) ?_ found c
  intro again hagain found c
  refine ends_next?.bind fun next c' hnext => ?_
  obtain ⟨hnext, rfl⟩ := hnext
  split
  · trivial
  · next ch =>
    obtain ⟨x, hx⟩ := List.head?_eq_some_iff.1 hnext.symm
    split
    · next h => exact ⟨[], [], x, .nil, h ▸ hx⟩
    split
    · next hescape =>
      refine Ends.bind (Q := fun _ d => d = c'.advance) rfl fun _ d hd => ?_
      subst hd
      refine (ends_escaped hquote _).bind fun value e he => ?_
      obtain ⟨letter, y, hy, hletter, rfl⟩ := he
      refine (hagain _ _).imp ?_ fun _ he => he
      rintro _ _ ⟨body, text, z, h, hz⟩
      rw [Cursor.rest_pass, hy, List.tail_cons] at hz
      refine ⟨_, _, z, .escape hletter h, ?_⟩
      have hadvanced : c'.rest.tail = letter :: y := hy
      rw [hx, List.tail_cons] at hadvanced
      rw [hx, hadvanced, hescape, hz]
      rfl
    · next hne hescape =>
      refine Ends.bind (Q := fun _ d => d = c'.pass ch) rfl fun _ d hd => ?_
      subst hd
      refine (hagain _ _).imp ?_ fun _ he => he
      rintro _ _ ⟨body, text, z, h, hz⟩
      rw [Cursor.rest_pass, hx, List.tail_cons] at hz
      exact ⟨_, _, z, .char hne hescape h, by rw [hx, hz]; rfl⟩

end Tails

end ThriftIdl.Reader
