import Mathlib
import ThriftIdl.Proofs.ScannedLexemes

namespace ThriftIdl

namespace PlaceSession

structure InOrder (s : PlaceSession) : Prop where
  place : s.place.InOrder
  marks : ∀ mark ∈ s.marks, mark.InOrder

def session (text : List Char) (s : PlaceSession) : ScanSession :=
  ⟨s.place.cursor text, s.marks.map (·.cursor text)⟩

/-- A step by offsets comes to what the step comes to that only knows what is left to read. All
places are in order behind it. -/
inductive Alike (text : List Char) : Except ScanStop ScanResult × PlaceSession →
    Except SyntaxError (ScanResult × ScanSession) → Prop
  | passed {s : PlaceSession} (result : ScanResult) (h : s.InOrder) :
      Alike text (.ok result, s) (.ok (result, s.session text))
  | refused {s : PlaceSession} (e : SyntaxError) (h : s.InOrder) :
      Alike text (.error (.refused e), s) (.error e)

variable {α : Type} {text : List Char} {s : PlaceSession}

theorem InOrder.scan {m : Scan α} {r : Reader α} (h : s.InOrder)
    (htracks : Scan.Tracks text m r s.place) (result : α → ScanResult) :
    Alike text (s.scan text m result) ((s.session text).read r result) := by
  unfold Scan.Tracks at htracks
  unfold PlaceSession.scan ScanSession.read
  change Alike text _ (r.run (s.place.cursor text) >>= _)
  generalize m.outcome text s.place = out at htracks ⊢
  generalize r.run (s.place.cursor text) = read at htracks ⊢
  cases htracks with
  | found value hp =>
    have hs : InOrder ⟨_, s.marks⟩ := ⟨hp, h.marks⟩
    exact .passed (result value) hs
  | refused e hp =>
    have hs : InOrder ⟨_, s.marks⟩ := ⟨hp, h.marks⟩
    exact .refused e hs

theorem InOrder.mark (h : s.InOrder) (text : List Char) :
    Alike text (s.step text .mark) ((s.session text).step .mark) := by
  have hs : InOrder ⟨s.place, s.marks ++ [s.place]⟩ :=
    ⟨h.place, List.forall_mem_append.2 ⟨h.marks, List.forall_mem_singleton.2 h.place⟩⟩
  have hmarks : (s.session text).marks ++ [s.place.cursor text] =
      (s.marks ++ [s.place]).map (·.cursor text) := by
    rw [List.map_append]
    rfl
  have hcount : (s.session text).marks.length = s.marks.length := List.length_map _
  change Alike text _ (.ok (.mark (s.session text).marks.length,
    ⟨s.place.cursor text, (s.session text).marks ++ [s.place.cursor text]⟩))
  rw [hmarks, hcount]
  exact .passed _ hs

theorem InOrder.reset (h : s.InOrder) (text : List Char) (mark : Nat) :
    Alike text (s.step text (.reset mark)) ((s.session text).step (.reset mark)) := by
  have hs : InOrder ⟨s.marks[mark]?.getD s.place, s.marks⟩ := by
    refine ⟨?_, h.marks⟩
    cases hm : s.marks[mark]? with
    | none => exact h.place
    | some p => exact h.marks p (List.mem_of_getElem? hm)
  have hmark : (s.session text).marks[mark]?.getD (s.place.cursor text) =
      (s.marks[mark]?.getD s.place).cursor text := by
    change (s.marks.map _)[mark]?.getD _ = _
    rw [List.getElem?_map]
    cases s.marks[mark]? <;> rfl
  change Alike text _ (.ok (.nothing,
    ⟨(s.session text).marks[mark]?.getD (s.place.cursor text), (s.session text).marks⟩))
  rw [hmark]
  exact .passed _ hs

theorem InOrder.step (h : s.InOrder) (text : List Char) (next : ScanStep) :
    Alike text (s.step text next) ((s.session text).step next) := by
  have hp := h.place
  cases next with
  | advance => exact h.scan (Scan.tracks_advance hp) _
  | mark => exact h.mark text
  | reset mark => exact h.reset text mark
  | skip acrossComments => exact h.scan (Scan.tracks_skip acrossComments hp) _
  | peek acrossComments => exact h.scan (Scan.tracks_peek acrossComments hp) _
  | read => exact h.scan (Scan.tracks_next hp) _
  | expect expected message => exact h.scan (Scan.tracks_expect expected _ hp) _
  | documentation => exact h.scan (Scan.tracks_documentation hp) _
  | trailing separator => exact h.scan (Scan.tracks_trailing separator hp) _
  | literal => exact h.scan (Scan.tracks_literal hp) _
  | word => exact h.scan (Scan.tracks_word hp) _
  | identifier hyphens => exact h.scan (Scan.tracks_identifier hyphens hp) _
  | scopeName => exact h.scan (Scan.tracks_scopeName hp) _
  | integer => exact h.scan (Scan.tracks_integer hp) _
  | report message => exact h.scan (Scan.tracks_refuse hp _) _

theorem InOrder.trace (h : s.InOrder) (text : List Char) (steps : List ScanStep) :
    List.Forall₂ (Alike text) (s.trace text steps) ((s.session text).trace steps) := by
  induction steps generalizing s with
  | nil => exact .nil
  | cons next steps ih =>
    have hstep := h.step text next
    rw [PlaceSession.trace, ScanSession.trace]
    generalize s.step text next = out at hstep ⊢
    generalize (s.session text).step next = out' at hstep ⊢
    refine .cons hstep ?_
    cases hstep with
    | passed result hs => exact ih hs
    | refused e hs => exact .nil

/-- No line begins behind a place that is on it, and no step leaves the text. -/
theorem InOrder.bounded (h : s.InOrder) (steps : List ScanStep) :
    ∀ out ∈ s.trace text steps,
      out.2.place.lineStart ≤ out.2.place.offset ∧ ∀ o, out.1 ≠ .error (.overrun o) := by
  intro out hout
  obtain ⟨read, -, halike⟩ := forall₂_mem_left (h.trace text steps) hout
  cases halike with
  | passed result h => exact ⟨h.place, fun _ => nofun⟩
  | refused e h => exact ⟨h.place, fun _ => nofun⟩

end PlaceSession

namespace Cursor

/-- All line breaks in front of a point have been counted, and its line begins directly behind the
last of them. -/
structure Exact (text : List Char) (c : Cursor) : Prop where
  rest_eq : c.rest = text.drop c.offset
  line_eq : c.line = (text.take c.offset).count '\n'
  lineStart_eq : (∃ before line, text.take c.offset = before ++ '\n' :: line ∧ '\n' ∉ line ∧
    c.lineStart = before.length + 1) ∨ '\n' ∉ text.take c.offset ∧ c.lineStart = 0

variable {text run x : List Char} {c d : Cursor} {ch : Char}

theorem exact_start (text : List Char) : (ofList text).Exact text :=
  ⟨rfl, rfl, .inr ⟨List.not_mem_nil, rfl⟩⟩

theorem Exact.take_succ (h : c.Exact text) (hc : c.rest = ch :: x) :
    text.take (c.offset + 1) = text.take c.offset ++ [ch] := by
  rw [List.take_add_one, ← List.head?_drop, ← h.rest_eq, hc]
  rfl

theorem Exact.pass (h : c.Exact text) (hc : c.rest = ch :: x) : (c.pass ch).Exact text := by
  have htake := h.take_succ hc
  have hrest : c.rest.tail = text.drop (c.offset + 1) := by rw [h.rest_eq, List.tail_drop]
  have hlength : (text.take c.offset).length = c.offset := by
    have hdrop := congrArg List.length h.rest_eq
    rw [hc, List.length_drop, List.length_cons] at hdrop
    rw [List.length_take]
    omega
  unfold Cursor.pass
  split
  · next hbreak =>
    subst hbreak
    refine ⟨hrest, ?_, .inl ⟨text.take c.offset, [], htake, List.not_mem_nil, ?_⟩⟩
    · change c.line + 1 = (text.take (c.offset + 1)).count '\n'
      rw [htake, List.count_append, h.line_eq]
      rfl
    · change c.offset + 1 = _
      rw [hlength]
  · next hbreak =>
    have hother : '\n' ∉ [ch] := fun hmem => hbreak (List.mem_singleton.1 hmem).symm
    refine ⟨hrest, ?_, ?_⟩
    · change c.line = (text.take (c.offset + 1)).count '\n'
      rw [htake, List.count_append, h.line_eq, List.count_eq_zero.2 hother]
      rfl
    · change (∃ before line, text.take (c.offset + 1) = _ ∧ _) ∨ '\n' ∉ text.take (c.offset + 1) ∧ _
      rw [htake]
      obtain ⟨before, line, hbefore, hline, hstart⟩ | ⟨hnone, hstart⟩ := h.lineStart_eq
      · refine .inl ⟨before, line ++ [ch], ?_, ?_, hstart⟩
        · rw [hbefore, List.append_assoc, List.cons_append]
        · exact fun hmem => (List.mem_append.1 hmem).elim hline hother
      · exact .inr ⟨fun hmem => (List.mem_append.1 hmem).elim hnone hother, hstart⟩

theorem Exact.onward (h : c.Exact text) (hcd : c.Onward d) : d.Exact text := by
  obtain ⟨run, hrun, rfl⟩ := hcd
  induction run generalizing c with
  | nil => exact h
  | cons ch run ih =>
    obtain ⟨x, hx⟩ := hrun
    have hpass := h.pass hx.symm
    refine ih hpass ⟨x, ?_⟩
    rw [rest_pass, ← hx]
    rfl

/-- Behind the end of the text nothing is left that could be counted. -/
theorem Exact.advance (h : c.Exact text) (hbreak : c.rest.head? ≠ some '\n') :
    c.advance.Exact text := by
  cases hc : c.rest with
  | nil =>
    have hend : text.length ≤ c.offset := List.drop_eq_nil_iff.1 (h.rest_eq.symm.trans hc)
    have htake : text.take (c.offset + 1) = text.take c.offset := by
      rw [List.take_of_length_le hend, List.take_of_length_le (Nat.le_succ_of_le hend)]
    have hrest : c.rest.tail = text.drop (c.offset + 1) := by rw [h.rest_eq, List.tail_drop]
    exact ⟨hrest, h.line_eq.trans (htake ▸ rfl), htake ▸ h.lineStart_eq⟩
  | cons ch x =>
    have hch : ch ≠ '\n' := by
      rintro rfl
      exact hbreak (congrArg List.head? hc)
    rw [advance_eq_pass hch]
    exact h.pass hc

end Cursor

/-- Marks behind the first ones are counted further on. -/
def ScanStep.later (first count : Nat) : ScanStep → ScanStep
  | .reset n => .reset (if n < first then n else n + count)
  | next => next

def ScanResult.later (first count : Nat) : ScanResult → ScanResult
  | .mark n => .mark (if n < first then n else n + count)
  | result => result

namespace ScanSession

/-- The session behind some steps, none of which fails. -/
def run (s : ScanSession) : List ScanStep → Except SyntaxError ScanSession
  | [] => .ok s
  | next :: steps => do
    let (_, s') ← s.step next
    s'.run steps

/-- What a step may do that does not fail. -/
inductive Goes (s : ScanSession) : ScanStep → ScanSession → Prop
  | advance : Goes s .advance { s with cursor := s.cursor.advance }
  | mark : Goes s .mark { s with marks := s.marks ++ [s.cursor] }
  | reset (mark : Nat) : Goes s (.reset mark) { s with cursor := s.marks[mark]?.getD s.cursor }
  | onward {next : ScanStep} {cursor : Cursor} (h : s.cursor.Onward cursor) :
      Goes s next { s with cursor }

/-- No step advances over a line break. -/
def Spares (s : ScanSession) : List ScanStep → Prop
  | [] => True
  | next :: steps => (next = .advance → s.cursor.rest.head? ≠ some '\n') ∧
      ∀ result s', s.step next = .ok (result, s') → s'.Spares steps

/-- A session goes on from a point with some more marks than another one, behind the first ones. -/
structure Resumes (first count : Nat) (s s' : ScanSession) : Prop where
  cursor : s'.cursor = s.cursor
  marks : ∃ kept skipped later, s.marks = kept ++ later ∧ s'.marks = kept ++ (skipped ++ later) ∧
    kept.length = first ∧ skipped.length = count

variable {α : Type} {s s' t : ScanSession} {next : ScanStep} {steps : List ScanStep}
  {result : ScanResult} {first count : Nat}

section Steps

theorem read_cases {r : Reader α} {f : α → ScanResult} (h : s.read r f = .ok (result, t)) :
    ∃ a cursor, r.run s.cursor = .ok (a, cursor) ∧ result = f a ∧ t = { s with cursor } := by
  unfold ScanSession.read at h
  cases hr : r.run s.cursor with
  | error e =>
    rw [hr] at h
    cases h
  | ok out =>
    rw [hr] at h
    obtain ⟨rfl, rfl⟩ := Prod.mk.inj (Except.ok.inj h)
    exact ⟨out.1, out.2, rfl, rfl, rfl⟩

theorem read_goes {r : Reader α} {f : α → ScanResult} {Q : α → Cursor → Prop}
    (hr : Reader.Walks s.cursor r s.cursor Q) (h : s.read r f = .ok (result, t)) :
    s.Goes next t := by
  obtain ⟨a, cursor, hrun, -, rfl⟩ := read_cases h
  exact .onward (hr.of_ok hrun).1

theorem step_goes (h : s.step next = .ok (result, t)) : s.Goes next t := by
  have hs : s.cursor.Onward s.cursor := .refl _
  cases next with
  | advance =>
    obtain ⟨_, cursor, hrun, -, rfl⟩ := read_cases (r := Reader.advance) (f := fun _ => .nothing) h
    obtain ⟨-, rfl⟩ := Prod.mk.inj (Except.ok.inj hrun)
    exact .advance
  | mark =>
    obtain ⟨-, rfl⟩ := Prod.mk.inj (Except.ok.inj h)
    exact .mark
  | reset mark =>
    obtain ⟨-, rfl⟩ := Prod.mk.inj (Except.ok.inj h)
    exact .reset mark
  | skip acrossComments =>
    exact read_goes (f := fun _ => .nothing) (Reader.walks_skip acrossComments hs) h
  | peek acrossComments => exact read_goes (Reader.walks_peek acrossComments hs) h
  | read => exact read_goes (Reader.walks_read hs) h
  | expect expected message =>
    have hplace : (SyntaxFault.reported message).inPlace = true := rfl
    exact read_goes (f := fun _ => .nothing) (Reader.walks_expect expected hplace hs) h
  | documentation => exact read_goes (Reader.walks_documentation hs) h
  | trailing separator => exact read_goes (Reader.walks_trailing separator hs) h
  | literal => exact read_goes (Reader.walks_literal hs) h
  | word => exact read_goes (Reader.walks_word hs) h
  | identifier hyphens => exact read_goes (Reader.walks_identifier hyphens hs) h
  | scopeName => exact read_goes (Reader.walks_scopeName hs) h
  | integer => exact read_goes (Reader.walks_integer hs) h
  | report message => cases h

theorem step_marks (h : s.step next = .ok (result, t)) : ∃ more, t.marks = s.marks ++ more := by
  cases step_goes h with
  | mark => exact ⟨_, rfl⟩
  | advance | reset | onward => exact ⟨[], (List.append_nil _).symm⟩

theorem run_cons_ok (h : s.run (next :: steps) = .ok t) :
    ∃ result s', s.step next = .ok (result, s') ∧ s'.run steps = .ok t := by
  rw [run] at h
  cases hs : s.step next with
  | error e =>
    rw [hs] at h
    cases h
  | ok out =>
    rw [hs] at h
    exact ⟨out.1, out.2, rfl, h⟩

theorem run_marks (h : s.run steps = .ok t) : ∃ more, t.marks = s.marks ++ more := by
  induction steps generalizing s with
  | nil =>
    obtain rfl := Except.ok.inj h
    exact ⟨[], (List.append_nil _).symm⟩
  | cons next steps ih =>
    obtain ⟨_, s', hstep, hrun⟩ := run_cons_ok h
    obtain ⟨more, hmore⟩ := step_marks hstep
    obtain ⟨further, hfurther⟩ := ih hrun
    exact ⟨more ++ further, by rw [hfurther, hmore, List.append_assoc]⟩

end Steps

section Exactness

/-- The lines have been counted at every point of a session. -/
structure Exact (text : List Char) (s : ScanSession) : Prop where
  cursor : s.cursor.Exact text
  marks : ∀ mark ∈ s.marks, mark.Exact text

variable {text : List Char}

theorem spares_of_not_mem (h : .advance ∉ steps) (s : ScanSession) : s.Spares steps := by
  induction steps generalizing s with
  | nil => trivial
  | cons next steps ih =>
    rw [List.mem_cons, not_or] at h
    exact ⟨fun hnext => absurd hnext.symm h.1, fun _ s' _ => ih h.2 s'⟩

theorem Exact.step (h : s.Exact text) (hspares : next = .advance → s.cursor.rest.head? ≠ some '\n')
    (hstep : s.step next = .ok (result, t)) : t.Exact text := by
  cases step_goes hstep with
  | advance => exact ⟨h.cursor.advance (hspares rfl), h.marks⟩
  | mark =>
    exact ⟨h.cursor, List.forall_mem_append.2 ⟨h.marks, List.forall_mem_singleton.2 h.cursor⟩⟩
  | reset n =>
    refine ⟨?_, h.marks⟩
    cases hm : s.marks[n]? with
    | none => exact h.cursor
    | some c => exact h.marks c (List.mem_of_getElem? hm)
  | onward honward => exact ⟨h.cursor.onward honward, h.marks⟩

theorem Exact.trace (h : s.Exact text) (hspares : s.Spares steps)
    (hout : .ok (result, t) ∈ s.trace steps) : t.Exact text := by
  induction steps generalizing s with
  | nil => cases hout
  | cons next steps ih =>
    obtain ⟨hnext, hsteps⟩ := hspares
    rw [ScanSession.trace] at hout
    cases hs : s.step next with
    | error e =>
      -- The last outcome of a trace may be a failure, which is not counted.
      rw [hs] at hout
      cases List.mem_singleton.1 hout
    | ok out =>
      rw [hs] at hout
      have hexact := h.step hnext hs
      rcases List.mem_cons.1 hout with heq | hmem
      · obtain rfl := Except.ok.inj heq
        exact hexact
      · exact ih hexact (hsteps _ _ hs) hmem

end Exactness

section Resuming

/-- What is seen of a step. -/
def seen : Except SyntaxError (ScanResult × ScanSession) →
    Except SyntaxError (ScanResult × Cursor) :=
  Except.map fun out => (out.1, out.2.cursor)

/-- What is seen of a step when there are more marks behind the first ones. -/
def seenLater (first count : Nat) :
    Except SyntaxError (ScanResult × ScanSession) → Except SyntaxError (ScanResult × Cursor) :=
  Except.map fun out => (out.1.later first count, out.2.cursor)

/-- The same step in a session that has been resumed. -/
inductive Echoes (first count : Nat) : Except SyntaxError (ScanResult × ScanSession) →
    Except SyntaxError (ScanResult × ScanSession) → Prop
  | passed {t t' : ScanSession} (result : ScanResult) (h : Resumes first count t t') :
      Echoes first count (.ok (result, t)) (.ok (result.later first count, t'))
  | refused (e : SyntaxError) : Echoes first count (.error e) (.error e)

theorem Resumes.read {r : Reader α} {f : α → ScanResult} (h : Resumes first count s s')
    (hf : ∀ a, (f a).later first count = f a) :
    Echoes first count (s.read r f) (s'.read r f) := by
  unfold ScanSession.read
  rw [h.cursor]
  cases r.run s.cursor with
  | error e => exact .refused e
  | ok out =>
    have hresumes : Resumes first count ⟨out.2, s.marks⟩ ⟨out.2, s'.marks⟩ := ⟨rfl, h.marks⟩
    have hechoes := Echoes.passed (f out.1) hresumes
    rw [hf] at hechoes
    exact hechoes

theorem Resumes.mark (h : Resumes first count s s') :
    Echoes first count (s.step .mark) (s'.step .mark) := by
  obtain ⟨kept, skipped, later, hs, hs', hkept, hskipped⟩ := h.marks
  have hresumes : Resumes first count { s with marks := s.marks ++ [s.cursor] }
      { s' with marks := s'.marks ++ [s'.cursor] } := by
    refine ⟨h.cursor, kept, skipped, later ++ [s.cursor], ?_, ?_, hkept, hskipped⟩
    · rw [← List.append_assoc, ← hs]
    · rw [← List.append_assoc skipped, ← List.append_assoc, ← hs', h.cursor]
  have hcount : s'.marks.length = s.marks.length + count := by
    rw [hs, hs', ← hskipped]
    simp only [List.length_append]
    omega
  have hfirst : ¬ s.marks.length < first := by
    rw [hs, List.length_append, hkept]
    omega
  have hresult : (ScanResult.mark s.marks.length).later first count = .mark s'.marks.length := by
    rw [ScanResult.later, if_neg hfirst, hcount]
  have hechoes := Echoes.passed (.mark s.marks.length) hresumes
  rw [hresult] at hechoes
  exact hechoes

/-- A mark that both sessions have leads both to the same point. -/
theorem Resumes.reset (h : Resumes first count s s') (n : Nat) :
    Echoes first count (s.step (.reset n)) (s'.step ((ScanStep.reset n).later first count)) := by
  have hmarks := h.marks
  obtain ⟨kept, skipped, later, hs, hs', hkept, hskipped⟩ := h.marks
  have hmark : s'.marks[if n < first then n else n + count]? = s.marks[n]? := by
    rw [hs, hs']
    split
    · next hlt =>
      rw [List.getElem?_append_left (hkept ▸ hlt), List.getElem?_append_left (hkept ▸ hlt)]
    · next hge =>
      rw [List.getElem?_append_right (by omega), List.getElem?_append_right (by omega),
        List.getElem?_append_right (by omega)]
      congr 1
      omega
  have hresumes : Resumes first count { s with cursor := s.marks[n]?.getD s.cursor }
      { s' with cursor := s'.marks[if n < first then n else n + count]?.getD s'.cursor } :=
    ⟨by rw [hmark, h.cursor], hmarks⟩
  exact .passed .nothing hresumes

theorem Resumes.step (h : Resumes first count s s') (next : ScanStep) :
    Echoes first count (s.step next) (s'.step (next.later first count)) := by
  cases next with
  | mark => exact h.mark
  | reset n => exact h.reset n
  | advance | skip | expect | report => exact h.read (f := fun _ => .nothing) fun _ => rfl
  | peek | read | documentation | trailing | literal | word | identifier | scopeName | integer =>
    exact h.read fun _ => rfl

theorem Resumes.trace (h : Resumes first count s s') (steps : List ScanStep) :
    (s'.trace (steps.map (·.later first count))).map seen =
      (s.trace steps).map (seenLater first count) := by
  induction steps generalizing s s' with
  | nil => rfl
  | cons next steps ih =>
    have hstep := h.step next
    rw [List.map_cons, ScanSession.trace, ScanSession.trace]
    generalize s.step next = out at hstep ⊢
    generalize s'.step (next.later first count) = out' at hstep ⊢
    cases hstep with
    | passed result ht =>
      rw [List.map_cons, List.map_cons]
      exact congrArg₂ List.cons (congrArg (fun c => Except.ok (_, c)) ht.cursor) (ih ht)
    | refused e => rfl

/-- Going back to a mark takes up the session as it was when the mark was taken. -/
theorem resumes_reset
    (hrun : ScanSession.run { s with marks := s.marks ++ [s.cursor] } steps = .ok t) :
    ∃ t', t.step (.reset s.marks.length) = .ok (.nothing, t') ∧
      Resumes (s.marks.length + 1) (t.marks.length - (s.marks.length + 1))
        { s with marks := s.marks ++ [s.cursor] } t' := by
  obtain ⟨more, hmore⟩ := run_marks hrun
  have hmark : t.marks[s.marks.length]? = some s.cursor := by
    rw [hmore, List.append_assoc, List.getElem?_append_right (Nat.le_refl _), Nat.sub_self]
    rfl
  -- The marks of what is undone stay behind those taken before it.
  refine ⟨_, rfl, ?_, s.marks ++ [s.cursor], more, [], ?_, ?_, ?_, ?_⟩
  · rw [hmark]
    rfl
  · exact (List.append_nil _).symm
  · rw [List.append_nil]
    exact hmore
  · exact List.length_append
  · rw [hmore, List.length_append, List.length_append, List.length_singleton,
      Nat.add_sub_cancel_left]

end Resuming

/-- A scan stays in its text and in order, whatever its steps are. Going back to a mark takes up
what was there, and lines are counted exactly as long as none is advanced over. -/
theorem trace_safe (text : String) (steps : List ScanStep) :
    (List.Forall₂ (PlaceSession.Alike text.toList) (PlaceSession.start.trace text.toList steps)
        ((start text).trace steps) ∧
      ∀ out ∈ PlaceSession.start.trace text.toList steps,
        out.2.place.lineStart ≤ out.2.place.offset ∧ ∀ o, out.1 ≠ .error (.overrun o)) ∧
    (∀ (s marked : ScanSession) (number : Nat) (between : List ScanStep) (t : ScanSession),
      s.step .mark = .ok (.mark number, marked) → marked.run between = .ok t →
      ∃ t', t.step (.reset number) = .ok (.nothing, t') ∧ t'.cursor = s.cursor ∧
        ∀ after, (t'.trace (after.map
            (·.later marked.marks.length (t.marks.length - marked.marks.length)))).map seen =
          (marked.trace after).map
            (seenLater marked.marks.length (t.marks.length - marked.marks.length))) ∧
    ((start text).Spares steps → ∀ result s, .ok (result, s) ∈ (start text).trace steps →
      s.cursor.Exact text.toList) := by
  have hstart : PlaceSession.start.InOrder := ⟨Nat.le_refl 0, fun _ h => nomatch h⟩
  have hexact : (start text).Exact text.toList :=
    ⟨Cursor.exact_start text.toList, fun _ h => nomatch h⟩
  refine ⟨⟨hstart.trace text.toList steps, hstart.bounded steps⟩, ?_, ?_⟩
  · rintro s marked number between t hmark hrun
    obtain ⟨hnumber, rfl⟩ := Prod.mk.inj (Except.ok.inj hmark)
    obtain rfl := ScanResult.mark.inj hnumber
    obtain ⟨t', hreset, hresumes⟩ := resumes_reset hrun
    refine ⟨t', hreset, hresumes.cursor, fun after => ?_⟩
    rw [List.length_append, List.length_singleton]
    exact hresumes.trace after
  · exact fun hspares result s hmem => (hexact.trace hspares hmem).cursor

/-- Looking ahead over two line breaks, and back. -/
def remarked : List ScanStep := [.advance, .mark, .peek false, .reset 0, .word]

def looking : ScanSession :=
  ⟨⟨['\n', '\n', ' ', ' ', 'b'], 1, 0, 0⟩, [⟨['\n', '\n', ' ', ' ', 'b'], 1, 0, 0⟩]⟩

def lookedAhead : ScanSession := { looking with cursor := ⟨['b'], 5, 2, 3⟩ }

theorem remarked_safe : looking.run [.peek false] = .ok lookedAhead ∧
    (∃ t', lookedAhead.step (.reset 0) = .ok (.nothing, t') ∧ t'.cursor = looking.cursor ∧
      (t'.trace [.word]).map seen = [.ok (.text "b", ⟨[], 6, 2, 3⟩)]) ∧
    (start "a\n\n  b").Spares remarked ∧
    (∀ result s, .ok (result, s) ∈ (start "a\n\n  b").trace remarked →
      s.cursor.Exact "a\n\n  b".toList) := by
  have hlook : looking.run [.peek false] = .ok lookedAhead := by cbv
  have hspares : (start "a\n\n  b").Spares remarked :=
    ⟨fun _ => by decide, fun _ s' _ => spares_of_not_mem (by decide) s'⟩
  obtain ⟨-, hreset, hexact⟩ := trace_safe "a\n\n  b" remarked
  obtain ⟨t', ht', hcursor, hafter⟩ :=
    hreset { looking with marks := [] } looking 0 [.peek false] lookedAhead rfl hlook
  refine ⟨hlook, ⟨t', ht', hcursor, (hafter [.word]).trans ?_⟩, hspares, hexact hspares⟩
  cbv

end ScanSession

end ThriftIdl
