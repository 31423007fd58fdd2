import ThriftIdl.Proofs.CursorMovement

namespace ThriftIdl

namespace Text

/-- A character, or a line break with carriage returns in front of it. -/
def breakWith (returns : Nat) (c : Char) : List Char :=
  if c = '\n' then List.replicate returns '\r' ++ ['\n'] else [c]

def widen (returns : Nat) (text : List Char) : List Char := text.flatMap (breakWith returns)

/-- A text with the line endings of Windows. -/
def crlf (text : String) : String := String.ofList (widen 1 text.toList)

section Widen

variable {n : Nat} {ch : Char} {x y tail run : List Char} {p : Char → Bool}

theorem widen_break (n : Nat) (x : List Char) :
    widen n ('\n' :: x) = List.replicate n '\r' ++ '\n' :: widen n x := by
  simp [widen, breakWith]

theorem widen_cons (hch : ch ≠ '\n') (x : List Char) : widen n (ch :: x) = ch :: widen n x := by
  simp [widen, breakWith, hch]

theorem widen_append (n : Nat) (x y : List Char) : widen n (x ++ y) = widen n x ++ widen n y :=
  List.flatMap_append

theorem widen_zero (x : List Char) : widen 0 x = x := by
  induction x with
  | nil => rfl
  | cons ch x ih =>
    by_cases hch : ch = '\n'
    · rw [hch, widen_break, ih]
      rfl
    · rw [widen_cons hch, ih]

theorem widen_unbroken (hx : '\n' ∉ x) : widen n x = x := by
  induction x with
  | nil => rfl
  | cons ch x ih =>
    rw [List.mem_cons, not_or] at hx
    rw [widen_cons (Ne.symm hx.1), ih hx.2]

theorem mem_widen (h : ch ∈ widen n x) : ch ∈ x ∨ ch = '\r' := by
  obtain ⟨c, hc, h⟩ := List.mem_flatMap.1 h
  unfold breakWith at h
  split at h
  · next heq =>
    rcases List.mem_append.1 h with h | h
    · exact .inr (List.eq_of_mem_replicate h)
    · rw [List.mem_singleton.1 h, ← heq]
      exact .inl hc
  · rw [List.mem_singleton.1 h]
    exact .inl hc

theorem widen_ne_nil (hx : x ≠ []) : widen n x ≠ [] := by
  obtain ⟨ch, x, rfl⟩ := List.exists_cons_of_ne_nil hx
  by_cases hch : ch = '\n'
  · simp [hch, widen_break]
  · simp [widen_cons hch]

/-- What follows a text begins a new line, if there is anything. -/
def NewLine (tail : List Char) : Prop := ∀ ch ∈ tail.head?, ch = '\n'

theorem widen_stops (hbreak : p '\n' = false) (hreturn : p '\r' = false) (htail : NewLine tail) :
    Reader.Stops p (widen n ('\n' :: x) ++ y) ∧ Reader.Stops p tail := by
  constructor
  · rw [widen_break]
    cases n with
    | zero => exact Reader.stops_cons hbreak
    | succ n => exact Reader.stops_cons hreturn
  · intro ch hch
    rwa [htail ch hch]

/-- A character that belongs to no line break is read first in both texts or in neither. -/
theorem head_of_widen (htail : NewLine tail) (hbreak : ch ≠ '\n') (hreturn : ch ≠ '\r')
    (h : widen n x ++ tail = ch :: y) : ∃ z, x = ch :: z ∧ y = widen n z ++ tail := by
  cases x with
  | nil =>
    rw [show widen n [] = [] from rfl, List.nil_append] at h
    exact absurd (htail ch (by rw [h]; rfl)) hbreak
  | cons c x =>
    by_cases hc : c = '\n'
    · rw [hc, widen_break] at h
      cases n with
      | zero =>
        obtain ⟨rfl, -⟩ := List.cons.inj h
        exact absurd rfl hbreak
      | succ n =>
        obtain ⟨rfl, -⟩ := List.cons.inj h
        exact absurd rfl hreturn
    · rw [widen_cons hc] at h
      obtain ⟨rfl, rfl⟩ := List.cons.inj h
      exact ⟨x, rfl, rfl⟩

theorem takeWhile_widen (hbreak : p '\n' = false) (hreturn : p '\r' = false)
    (htail : NewLine tail) (x : List Char) :
    (widen n x ++ tail).takeWhile p = x.takeWhile p := by
  have hnil {z : List Char} (hz : Reader.Stops p z) : z.takeWhile p = [] := by
    cases z with
    | nil => rfl
    | cons ch z => simp [hz ch rfl]
  induction x with
  | nil => exact hnil (widen_stops (n := n) (x := []) (y := []) hbreak hreturn htail).2
  | cons ch x ih =>
    by_cases hch : ch = '\n'
    · subst hch
      rw [hnil (widen_stops hbreak hreturn htail).1, hnil (Reader.stops_cons hbreak)]
    · simp only [widen_cons hch, List.cons_append, List.takeWhile_cons, ih]

/-- Carriage returns belong to the line that they end. -/
theorem takeLine_widen (n : Nat) (htail : NewLine tail) (x : List Char) :
    ∃ k, (widen n x ++ tail).takeWhile (· != '\n') =
      x.takeWhile (· != '\n') ++ List.replicate k '\r' := by
  induction x with
  | nil =>
    refine ⟨0, ?_⟩
    cases tail with
    | nil => rfl
    | cons ch tail =>
      rw [htail ch rfl]
      rfl
  | cons ch x ih =>
    by_cases hch : ch = '\n'
    · subst hch
      refine ⟨n, ?_⟩
      rw [widen_break, List.append_assoc, Reader.takeWhile_run_append]
      · rfl
      · intro c hc
        rw [List.eq_of_mem_replicate hc]
        rfl
      · exact Reader.stops_cons rfl
    · obtain ⟨k, hk⟩ := ih
      exact ⟨k, by simp [widen_cons hch, hch, hk]⟩

end Widen

end Text

/-- How a text is written anew: with carriage returns in front of its line breaks, below other
lines, and with further lines behind it. -/
structure Rewriting where
  returns : Nat
  down : Nat
  behind : Option (List Char)

namespace Rewriting

open Text (widen NewLine)

def tail (w : Rewriting) : List Char := w.behind.elim [] ('\n' :: ·)

/-- The text ends where it ended before. -/
def Closed (w : Rewriting) : Prop := w.behind = none

def move (w : Rewriting) (p : Position) : Position := ⟨p.line + w.down, p.column⟩

/-- The same point in a text and in the text written anew. -/
structure Carries (w : Rewriting) (c c' : Cursor) : Prop where
  rest : c'.rest = widen w.returns c.rest ++ w.tail
  line : c'.line = c.line + w.down
  column : c'.offset + c.lineStart = c.offset + c'.lineStart

variable {w : Rewriting} {c c' d d' : Cursor} {ch : Char} {x run : List Char} {p : Char → Bool}

theorem newLine_tail (w : Rewriting) : NewLine w.tail := by
  unfold tail
  cases w.behind with
  | none => simp [NewLine]
  | some more => simp [NewLine]

theorem tail_of_closed (h : w.Closed) : w.tail = [] := by
  unfold tail
  rw [h]
  rfl

namespace Carries

theorem position (h : w.Carries c c') : c'.position = w.move c.position := by
  have hcolumn := h.column
  simp only [Cursor.position, move, h.line, Position.mk.injEq]
  omega

theorem pass (h : w.Carries c c') (hx : c.rest = ch :: x) :
    w.Carries (c.pass ch) (c'.passAll (Text.breakWith w.returns ch)) := by
  have hrest := h.rest
  rw [hx] at hrest
  by_cases hch : ch = '\n'
  · subst hch
    rw [Text.widen_break, List.append_assoc] at hrest
    have hreturns (k : Nat) (e : Cursor) : (e.passAll (List.replicate k '\r')).line = e.line := by
      induction k generalizing e with
      | zero => rfl
      | succ k ih => exact ih (e.pass '\r')
    have hsplit : c'.passAll (Text.breakWith w.returns '\n') =
        (c'.passAll (List.replicate w.returns '\r')).pass '\n' :=
      Cursor.passAll_append c' (List.replicate w.returns '\r') ['\n']
    rw [hsplit]
    refine ⟨?_, ?_, ?_⟩
    · rw [Cursor.rest_pass, Cursor.rest_pass, Cursor.rest_passAll, hx, hrest,
        List.length_replicate, List.drop_left' (List.length_replicate ..)]
      rfl
    · simp only [Cursor.pass, if_pos, Cursor.beginLine, Cursor.advance, hreturns, h.line]
      omega
    · simp only [Cursor.pass, if_pos, Cursor.beginLine, Cursor.advance]
      omega
  · rw [Text.widen_cons hch] at hrest
    have hone : c'.passAll (Text.breakWith w.returns ch) = c'.pass ch := by
      simp [Text.breakWith, hch, Cursor.passAll]
    rw [hone]
    refine ⟨?_, ?_, ?_⟩
    · rw [Cursor.rest_pass, Cursor.rest_pass, hx, hrest]
      rfl
    · simpa [Cursor.pass, hch, Cursor.advance] using h.line
    · have hcolumn := h.column
      simp only [Cursor.pass, hch, Cursor.advance, if_false]
      omega

theorem passAll (h : w.Carries c c') (hrun : run <+: c.rest) :
    w.Carries (c.passAll run) (c'.passAll (widen w.returns run)) := by
  induction run generalizing c c' with
  | nil => exact h
  | cons ch run ih =>
    obtain ⟨x, hx⟩ := hrun
    have hrest : run <+: (c.pass ch).rest := by
      rw [Cursor.rest_pass, ← hx]
      exact List.prefix_append run x
    have hstep := ih (h.pass hx.symm) hrest
    rwa [← Cursor.passAll_append] at hstep

/-- Carriage returns come at the end of the line. -/
theorem passLine (h : w.Carries c c') (hx : c.rest = run ++ '\n' :: x) (hrun : '\n' ∉ run) :
    c'.rest = (run ++ List.replicate w.returns '\r') ++ '\n' :: (widen w.returns x ++ w.tail) ∧
      w.Carries (c.passAll (run ++ ['\n']))
        (c'.passAll ((run ++ List.replicate w.returns '\r') ++ ['\n'])) := by
  have hrest := h.rest
  rw [hx, Text.widen_append, Text.widen_unbroken hrun, Text.widen_break] at hrest
  have hprefix : run ++ ['\n'] <+: c.rest := ⟨x, by simp [hx]⟩
  have hmoved := h.passAll hprefix
  rw [Text.widen_append, Text.widen_unbroken hrun, Text.widen_break, ← List.append_assoc] at hmoved
  exact ⟨by simpa using hrest, hmoved⟩

/-- The last line is the same where nothing follows. -/
theorem passLast (h : w.Carries c c') (hclosed : w.Closed) (hx : c.rest = run) (hrun : '\n' ∉ run) :
    c'.rest = run ∧ w.Carries (c.passAll run) (c'.passAll run) := by
  have hrest := h.rest
  rw [hx, tail_of_closed hclosed, Text.widen_unbroken hrun, List.append_nil] at hrest
  have hprefix : run <+: c.rest := hx ▸ List.prefix_refl run
  have hmoved := h.passAll hprefix
  rw [Text.widen_unbroken hrun] at hmoved
  exact ⟨hrest, hmoved⟩

theorem advance (h : w.Carries c c') (hx : c.rest = ch :: x) (hch : ch ≠ '\n') :
    w.Carries c.advance c'.advance := by
  have hpass := h.pass hx
  rw [Cursor.advance_eq_pass hch, Cursor.advance_eq_pass (c := c') hch]
  simpa [Text.breakWith, hch, Cursor.passAll] using hpass

theorem cons (h : w.Carries c c') (hx : c.rest = ch :: x) (hch : ch ≠ '\n') :
    c'.rest = ch :: (widen w.returns x ++ w.tail) := by
  rw [h.rest, hx, Text.widen_cons hch, List.cons_append]

theorem of_cons {y : List Char} (h : w.Carries c c') (hy : c'.rest = ch :: y)
    (hbreak : ch ≠ '\n') (hreturn : ch ≠ '\r') :
    ∃ x, c.rest = ch :: x ∧ y = widen w.returns x ++ w.tail :=
  Text.head_of_widen w.newLine_tail hbreak hreturn (h.rest.symm.trans hy)

theorem of_slash {y : List Char} (h : w.Carries c c') (hy : c'.rest = '/' :: ch :: y)
    (hbreak : ch ≠ '\n') (hreturn : ch ≠ '\r') : ∃ x, c.rest = '/' :: ch :: x := by
  obtain ⟨x, hx, hy'⟩ := h.of_cons hy (by decide) (by decide)
  obtain ⟨x', rfl, -⟩ := Text.head_of_widen w.newLine_tail hbreak hreturn hy'.symm
  exact ⟨x', hx⟩

/-- A character that belongs to no line break stands in front of both points or of neither. -/
theorem head?_iff (h : w.Carries c c') (hbreak : ch ≠ '\n') (hreturn : ch ≠ '\r') :
    c'.rest.head? = some ch ↔ c.rest.head? = some ch := by
  constructor
  · intro hhead
    obtain ⟨y, hy⟩ := List.head?_eq_some_iff.1 hhead
    obtain ⟨x, hx, -⟩ := h.of_cons hy hbreak hreturn
    rw [hx, List.head?_cons]
  · intro hhead
    obtain ⟨x, hx⟩ := List.head?_eq_some_iff.1 hhead
    rw [h.cons hx hbreak, List.head?_cons]

theorem takeWhile_eq (h : w.Carries c c') (hbreak : p '\n' = false) (hreturn : p '\r' = false) :
    c'.rest.takeWhile p = c.rest.takeWhile p := by
  rw [h.rest, Text.takeWhile_widen hbreak hreturn w.newLine_tail]

theorem rest_nil (h : w.Carries c c') (hclosed : w.Closed) (hc : c.rest = []) : c'.rest = [] := by
  rw [h.rest, hc, tail_of_closed hclosed]
  rfl

theorem shorter (h : w.Carries c c') (h' : w.Carries d d') (hpast : c.Past d) :
    d'.rest.length < c'.rest.length := by
  obtain ⟨⟨run, hrun, rfl⟩, hlt⟩ := hpast
  have hne : run ≠ [] := by
    rintro rfl
    exact Nat.lt_irrefl _ hlt
  have hpos := List.length_pos_iff.2 (Text.widen_ne_nil (n := w.returns) hne)
  rw [h.rest, h'.rest, Cursor.rest_of_isPrefix hrun, Text.widen_append]
  simp only [List.length_append]
  omega

end Carries

end Rewriting

end ThriftIdl
