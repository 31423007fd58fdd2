import Mathlib.Data.List.Induction
import ThriftIdl.Proofs.ReaderRuns

namespace ThriftIdl

namespace Position

/-- The place behind a text. -/
def behind (text : List Char) : Position :=
  ⟨1 + text.count '\n', 1 + (text.reverse.takeWhile (· != '\n')).length⟩

def Before (p q : Position) : Prop :=
  p.line < q.line ∨ p.line = q.line ∧ p.column < q.column

instance (p q : Position) : Decidable (p.Before q) :=
  inferInstanceAs (Decidable (_ ∨ _))

theorem Before.trans {p q r : Position} (h : p.Before q) (h' : q.Before r) : p.Before r := by
  unfold Before at *
  omega

theorem behind_snoc (text : List Char) (ch : Char) :
    behind (text ++ [ch]) =
      if ch = '\n' then ⟨(behind text).line + 1, 1⟩
      else ⟨(behind text).line, (behind text).column + 1⟩ := by
  by_cases h : ch = '\n'
  · simp [behind, h, List.count_append, Nat.add_assoc]
  · simp [behind, h, List.count_append, Nat.add_assoc]

theorem behind_before {text passed : List Char} (h : passed ≠ []) :
    (behind text).Before (behind (text ++ passed)) := by
  induction passed using List.reverseRecOn with
  | nil => exact absurd rfl h
  | append_singleton passed ch ih =>
    rw [← List.append_assoc, behind_snoc]
    have hstep : (behind (text ++ passed)).Before (if ch = '\n'
        then ⟨(behind (text ++ passed)).line + 1, 1⟩
        else ⟨(behind (text ++ passed)).line, (behind (text ++ passed)).column + 1⟩) := by
      split
      · exact .inl (Nat.lt_succ_self _)
      · exact .inr ⟨rfl, Nat.lt_succ_self _⟩
    by_cases hp : passed = []
    · subst hp
      simpa using hstep
    · exact (ih hp).trans hstep

end Position

namespace Cursor

/-- A later point is reached by passing what stands in between. -/
def Onward (c d : Cursor) : Prop := ∃ passed, passed <+: c.rest ∧ d = c.passAll passed

/-- The characters of a text up to a point, all of which have been passed. -/
structure At (text before : List Char) (c : Cursor) : Prop where
  text_eq : text = before ++ c.rest
  passed : c = (ofList text).passAll before

section Movement

variable {b c d e : Cursor} {ch : Char} {run x text before : List Char}

theorem Onward.refl (c : Cursor) : c.Onward c := ⟨[], List.nil_prefix, rfl⟩

theorem rest_of_isPrefix (h : run <+: c.rest) : c.rest = run ++ (c.passAll run).rest := by
  rw [rest_passAll]
  exact (List.prefix_iff_eq_append.1 h).symm

theorem Onward.trans (h : c.Onward d) (h' : d.Onward e) : c.Onward e := by
  obtain ⟨run, hrun, rfl⟩ := h
  obtain ⟨run', hrun', rfl⟩ := h'
  refine ⟨run ++ run', ?_, (passAll_append c run run').symm⟩
  rw [rest_of_isPrefix hrun]
  exact (List.prefix_append_right_inj run).2 hrun'

theorem Onward.passAll (h : run <+: c.rest) : c.Onward (c.passAll run) := ⟨run, h, rfl⟩

theorem Onward.pass (h : c.rest = ch :: x) : c.Onward (c.pass ch) :=
  ⟨[ch], by rw [h]; exact List.prefix_append [ch] x, rfl⟩

theorem advance_eq_pass (h : ch ≠ '\n') : c.advance = c.pass ch := (if_neg h).symm

theorem Onward.length_le (h : c.Onward d) : d.rest.length ≤ c.rest.length := by
  obtain ⟨run, -, rfl⟩ := h
  rw [rest_passAll, List.length_drop]
  exact Nat.sub_le _ _

theorem at_start (text : List Char) : At text [] (ofList text) := ⟨rfl, rfl⟩

theorem At.passAll (h : At text before c) (hrun : run <+: c.rest) :
    At text (before ++ run) (c.passAll run) := by
  refine ⟨?_, ?_⟩
  · rw [List.append_assoc, ← rest_of_isPrefix hrun]
    exact h.text_eq
  · rw [passAll_append, ← h.passed]

theorem At.onward (h : At text before c) (hcd : c.Onward d) :
    ∃ run, At text (before ++ run) d ∧ (d.rest.length < c.rest.length → run ≠ []) := by
  obtain ⟨run, hrun, rfl⟩ := hcd
  refine ⟨run, h.passAll hrun, ?_⟩
  rintro hlt rfl
  exact Nat.lt_irrefl _ hlt

/-- The bookkeeping of lines is exact wherever everything before has been passed. -/
theorem passAll_counts (text before : List Char) :
    ((ofList text).passAll before).line = before.count '\n' ∧
      ((ofList text).passAll before).lineStart + (before.reverse.takeWhile (· != '\n')).length =
        before.length := by
  induction before using List.reverseRecOn with
  | nil => exact ⟨rfl, rfl⟩
  | append_singleton before ch ih =>
    have hoffset := offset_passAll (ofList text) before
    have hstep : (ofList text).passAll (before ++ [ch]) = ((ofList text).passAll before).pass ch :=
      passAll_append _ _ _
    have hzero : (ofList text).offset = 0 := rfl
    rw [hstep]
    unfold Cursor.pass
    by_cases h : ch = '\n'
    · rw [if_pos h]
      simp [h, beginLine, advance, ih.1, List.count_append, hoffset, hzero]
    · rw [if_neg h]
      simp [h, advance, ih.1, List.count_append]
      omega

theorem At.offset_eq (h : At text before c) : c.offset = before.length := by
  rw [h.passed, offset_passAll]
  exact Nat.zero_add _

theorem At.lineStart_le (h : At text before c) : c.lineStart ≤ c.offset := by
  have hstart := (passAll_counts text before).2
  rw [← h.passed] at hstart
  rw [h.offset_eq]
  omega

theorem At.position_eq (h : At text before c) : c.position = .behind before := by
  obtain ⟨hline, hstart⟩ := passAll_counts text before
  rw [← h.passed] at hline hstart
  unfold position Position.behind
  rw [hline, h.offset_eq]
  congr 1
  · omega
  · omega

end Movement

end Cursor

namespace SyntaxFault

/-- Reported where the reading stands. -/
def inPlace : SyntaxFault → Bool
  | invalidEscape escape => escape != '\n'
  | stalled => false
  | _ => true

end SyntaxFault

/-- The errors of reading from a point on. A line break that stands escaped in a literal is passed
like any other character, so that the place behind it is not on its line. -/
inductive Cursor.Faults (c : Cursor) (e : SyntaxError) : Prop
  | placed {d : Cursor} (later : c.Onward d) (fault : e.fault.inPlace = true)
      (place : e.position = d.position)
  | escapedBreak {d : Cursor} {x : List Char} (later : c.Onward d) (text : d.rest = '\n' :: x)
      (fault : e.fault = .invalidEscape '\n') (place : e.position = d.advance.position)

/-- A later point, with something passed on the way. -/
structure Cursor.Past (c d : Cursor) : Prop where
  onward : c.Onward d
  shorter : d.rest.length < c.rest.length

namespace Cursor.Past

variable {c d e : Cursor} {ch : Char} {x : List Char}

theorem trans (h : c.Past d) (h' : d.Onward e) : c.Past e :=
  ⟨h.onward.trans h', Nat.lt_of_le_of_lt h'.length_le h.shorter⟩

theorem of_onward (h : c.Onward d) (h' : d.Past e) : c.Past e :=
  ⟨h.trans h'.onward, Nat.lt_of_lt_of_le h'.shorter h.length_le⟩

theorem pass (h : c.rest = ch :: x) : c.Past (c.pass ch) := by
  refine ⟨.pass h, ?_⟩
  rw [rest_pass, h, List.tail_cons, List.length_cons]
  exact Nat.lt_succ_self _

theorem passAll {run : List Char} (h : run <+: c.rest) (hne : run ≠ []) :
    c.Past (c.passAll run) := by
  refine ⟨.passAll h, ?_⟩
  have hlen := congrArg List.length (rest_of_isPrefix h)
  rw [List.length_append] at hlen
  have hpos := List.length_pos_iff.2 hne
  omega

end Cursor.Past

namespace Reader

variable {α β σ : Type}

/-- From a point on, a reader goes forward through the text. Its errors are placed behind an
earlier point, from which the reading has come. -/
def Walks (b : Cursor) (r : Reader α) (c : Cursor) (Q : α → Cursor → Prop) : Prop :=
  Ends r c (fun a d => c.Onward d ∧ Q a d) b.Faults

section Rules

variable {b c d : Cursor} {r : Reader α} {f : α → Reader β} {a : α} {Q Q' : α → Cursor → Prop}
  {R : β → Cursor → Prop} {fault : SyntaxFault} {ch : Char} {x run : List Char} {p : Char → Bool}

theorem Walks.imp (h : Walks b r c Q) (hq : ∀ a d, c.Onward d → Q a d → Q' a d) :
    Walks b r c Q' :=
  Ends.imp h (fun a d ⟨hcd, ha⟩ => ⟨hcd, hq a d hcd ha⟩) fun _ he => he

theorem Walks.bind (h : Walks b r c Q)
    (hf : ∀ a d, c.Onward d → Q a d → Walks b (f a) d R) : Walks b (r >>= f) c R := by
  refine Ends.bind h ?_
  rintro a d ⟨hcd, ha⟩
  exact Ends.imp (hf a d hcd ha) (fun _ e ⟨hde, hr⟩ => ⟨hcd.trans hde, hr⟩) fun _ he => he

theorem Walks.and (h : Walks b r c Q) (h' : Ends r c Q' fun _ => True) :
    Walks b r c fun a d => Q a d ∧ Q' a d := by
  unfold Walks Ends at *
  cases hr : r.run c with
  | ok out =>
    have hq := h.of_ok hr
    exact ⟨hq.1, hq.2, h'.of_ok hr⟩
  | error e => exact h.of_error hr

/-- Reading goes on from a point further on, but may still go back up to an earlier one. -/
theorem Walks.further (h : Walks b r d Q) (hcd : c.Onward d) :
    Ends r d (fun a e => c.Onward e ∧ Q a e) b.Faults :=
  Ends.imp h (fun _ _ ⟨hde, hq⟩ => ⟨hcd.trans hde, hq⟩) fun _ he => he

theorem walks_pure (h : Q a c) : Walks b (pure a) c Q := ⟨.refl c, h⟩

theorem walks_position : Walks b position c fun p d => p = c.position ∧ d = c :=
  ⟨.refl c, rfl, rfl⟩

theorem walks_rest : Walks b rest c fun text d => text = c.rest ∧ d = c := ⟨.refl c, rfl, rfl⟩

theorem walks_next? : Walks b next? c fun next d => next = c.rest.head? ∧ d = c :=
  ⟨.refl c, rfl, rfl⟩

theorem walks_pass (h : c.rest = ch :: x) : Walks b (pass ch) c fun _ d => c.Past d :=
  ⟨.pass h, .pass h⟩

theorem walks_advance (h : c.rest = ch :: x) (hch : ch ≠ '\n') :
    Walks b advance c fun _ d => c.Past d := by
  have hpast : c.Past c.advance := Cursor.advance_eq_pass hch ▸ .pass h
  exact ⟨hpast.onward, hpast⟩

theorem walks_passAll (h : run <+: c.rest) :
    Walks b (passAll run) c fun _ d => d = c.passAll run :=
  ⟨.passAll h, rfl⟩

theorem walks_takeWhile (p : Char → Bool) :
    Walks b (takeWhile p) c fun run d => run = c.rest.takeWhile p ∧ d = c.passAll run :=
  ⟨.passAll (List.takeWhile_prefix p), rfl, rfl⟩

theorem walks_skipWhile (p : Char → Bool) :
    Walks b (skipWhile p) c fun _ d => d = c.passAll (c.rest.takeWhile p) :=
  ⟨.passAll (List.takeWhile_prefix p), rfl⟩

theorem walks_passIf (ch : Char) : Walks b (passIf ch) c fun _ _ => True := by
  refine walks_next?.bind fun next d _ hnext => ?_
  obtain ⟨rfl, rfl⟩ := hnext
  split
  · next h =>
    obtain ⟨x, hx⟩ := List.head?_eq_some_iff.1 h
    exact (walks_pass hx).imp fun _ _ _ _ => trivial
  · exact walks_pure trivial

theorem walks_failAt (hb : b.Onward d) (hfault : fault.inPlace = true) :
    Walks b (failAt d.position fault) c Q := .placed hb hfault rfl

theorem walks_fail (hb : b.Onward c) (hfault : fault.inPlace = true) :
    Walks b (fail fault) c Q := .placed hb hfault rfl

/-- Reading that repeats itself, each time from a later point, so that it never stalls. -/
theorem walks_fix {body : (σ → Reader α) → σ → Reader α} {T : σ → Cursor → Prop}
    {Q : σ → Cursor → α → Cursor → Prop} {s : σ}
    (h : ∀ (again : σ → Reader α) (s : σ) (c : Cursor), T s c →
      (∀ s' d, c.Past d → T s' d → Walks b (again s') d (Q s' d)) →
        Walks b (body again s) c (Q s c)) (hT : T s c) :
    Walks b (fix body s) c (Q s c) := by
  induction hn : c.rest.length using Nat.strongRecOn generalizing s c with
  | ind n ih =>
    subst hn
    unfold Walks Ends
    rw [fix_run]
    refine h _ s c hT fun s' d hd hT' => ?_
    have hrun : StateT.run (guarded c.rest.length (fix body s')) d = StateT.run (fix body s') d :=
      if_pos hd.shorter
    unfold Walks Ends
    rw [hrun]
    exact ih _ hd.shorter hT' rfl

end Rules

end Reader

end ThriftIdl
