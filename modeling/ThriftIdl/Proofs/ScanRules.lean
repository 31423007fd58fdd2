import ThriftIdl.Proofs.CheckedScanning
import ThriftIdl.Proofs.CursorMovement

namespace ThriftIdl

namespace Place

/-- The place behind a character. -/
def pass (p : Place) (ch : Char) : Place :=
  if ch = '\n' then (p.move 1).newLine else p.move 1

variable {text run x : List Char} {p : Place} {ch : Char}

theorem cursor_move_one (text : List Char) (p : Place) :
    (p.move 1).cursor text = (p.cursor text).advance := by
  unfold cursor move Cursor.advance
  rw [List.tail_drop]

theorem cursor_pass (text : List Char) (p : Place) (ch : Char) :
    (p.pass ch).cursor text = (p.cursor text).pass ch := by
  unfold pass Cursor.pass
  split
  · rw [← cursor_move_one]
    rfl
  · exact cursor_move_one text p

theorem move_move (p : Place) (m n : Nat) : (p.move m).move n = p.move (m + n) := by
  unfold move
  rw [Nat.add_assoc]

theorem move_cons (p : Place) (ch : Char) (run : List Char) :
    p.move (ch :: run).length = (p.move 1).move run.length := by
  rw [move_move, List.length_cons, Nat.add_comm]

/-- Where no line ends, to go on is to pass every character. -/
theorem cursor_move (text : List Char) (hrun : '\n' ∉ run) (p : Place) :
    (p.move run.length).cursor text = (p.cursor text).passAll run := by
  induction run generalizing p with
  | nil => rfl
  | cons ch run ih =>
    rw [List.mem_cons, not_or] at hrun
    have hch : (p.move 1).cursor text = (p.cursor text).pass ch :=
      (cursor_move_one text p).trans (Cursor.advance_eq_pass fun h => hrun.1 h.symm)
    rw [move_cons, ih hrun.2, hch]
    rfl

theorem rest_move (h : (p.cursor text).rest = run ++ x) :
    ((p.move run.length).cursor text).rest = x := by
  change text.drop (p.offset + run.length) = x
  rw [← List.drop_drop]
  exact (congrArg (List.drop run.length) h).trans (List.drop_left ..)

theorem rest_move_one (h : (p.cursor text).rest = ch :: x) :
    ((p.move 1).cursor text).rest = x := by
  rw [cursor_move_one]
  exact congrArg List.tail h

theorem rest_pass (h : (p.cursor text).rest = ch :: x) : ((p.pass ch).cursor text).rest = x := by
  rw [cursor_pass, Cursor.rest_pass, h, List.tail_cons]

theorem length_rest_move_one (h : (p.cursor text).rest = ch :: x) :
    ((p.move 1).cursor text).rest.length < (p.cursor text).rest.length := by
  rw [rest_move_one h, h]
  exact Nat.lt_succ_self _

theorem length_rest_pass (h : (p.cursor text).rest = ch :: x) :
    ((p.pass ch).cursor text).rest.length < (p.cursor text).rest.length := by
  rw [rest_pass h, h]
  exact Nat.lt_succ_self _

/-- A place at which something is left lies in the text. -/
theorem offset_lt (h : (p.cursor text).rest = ch :: x) : p.offset < text.length := by
  have hlength := congrArg List.length h
  change (text.drop p.offset).length = _ at hlength
  rw [List.length_drop, List.length_cons] at hlength
  omega

theorem getElem?_of_rest (h : (p.cursor text).rest = ch :: x) : text[p.offset]? = some ch := by
  rw [← List.head?_drop]
  exact congrArg List.head? h

theorem length_rest_lt (text : List Char) (p : Place) :
    (p.cursor text).rest.length < text.length + 1 := by
  change (text.drop p.offset).length < _
  rw [List.length_drop]
  omega

theorem InOrder.move (h : p.InOrder) (count : Nat) : (p.move count).InOrder :=
  Nat.le_trans h (Nat.le_add_right p.offset count)

theorem InOrder.pass (h : p.InOrder) (ch : Char) : (p.pass ch).InOrder := by
  unfold Place.pass
  split
  · exact Nat.le_refl _
  · exact h.move 1

end Place

namespace Scan

variable {α β σ : Type} {text run x : List Char} {p q : Place} {ch : Char} {a : α}
  {m : Scan α} {f : α → Scan β}

section Outcomes

theorem outcome_bind_of_ok (h : m.outcome text p = (.ok a, q)) :
    (m >>= f).outcome text p = (f a).outcome text q :=
  exec_bind_of_ok (x := m.run text) (f := fun a => (f a).run text) h

theorem outcome_bind_of_error {stop : ScanStop} (h : m.outcome text p = (.error stop, q)) :
    (m >>= f).outcome text p = (.error stop, q) :=
  exec_bind_of_error (x := m.run text) (f := fun a => (f a).run text) h

theorem outcome_bind_congr {m' : Scan α} (h : m.outcome text p = m'.outcome text q) :
    (m >>= f).outcome text p = (m' >>= f).outcome text q := by
  have hexec : exec (m.run text) p = exec (m'.run text) q := h
  refine (exec_bind (m.run text) (fun a => (f a).run text) p).trans ?_
  rw [hexec]
  exact (exec_bind (m'.run text) (fun a => (f a).run text) q).symm

theorem outcome_length (text : List Char) (p : Place) :
    length.outcome text p = (.ok text.length, p) := rfl

theorem outcome_offset (text : List Char) (p : Place) :
    offset.outcome text p = (.ok p.offset, p) := rfl

theorem outcome_offset_move (count : Nat) (text : List Char) (p : Place) :
    offset.outcome text (p.move count) = (.ok (p.offset + count), p.move count) := rfl

theorem outcome_move (count : Nat) (text : List Char) (p : Place) :
    (move count).outcome text p = (.ok (), p.move count) := rfl

theorem outcome_peek? (text : List Char) (p : Place) :
    peek?.outcome text p = (.ok (p.cursor text).rest.head?, p) :=
  congrArg (fun found => (Except.ok found, p)) List.head?_drop.symm

theorem outcome_peekSecond? (h : (p.cursor text).rest = ch :: x) :
    peekSecond?.outcome text p = (.ok x.head?, p) := by
  have hx := Place.rest_move_one h
  have hnext : (text.drop (p.offset + 1)).head? = x.head? := congrArg List.head? hx
  rw [List.head?_drop] at hnext
  exact congrArg (fun found => (Except.ok found, p)) hnext

theorem outcome_charAt {place : Nat} (h : text[place]? = some ch) :
    (charAt place).outcome text p = (.ok ch, p) := by
  refine (outcome_bind_of_ok (m := (read : Scan (List Char))) (a := text) (q := p) rfl).trans ?_
  rw [h]
  rfl

/-- A run that stands at an offset of the text is a slice of it. -/
theorem outcome_slice {first : Nat} (hfirst : first ≤ text.length) (hrun : run <+: text.drop first)
    (p : Place) : (slice first (first + run.length)).outcome text p = (.ok run, p) := by
  have hlast := hrun.length_le
  rw [List.length_drop] at hlast
  have hslice : (text.take (first + run.length)).drop first = run := by
    rw [List.drop_take, Nat.add_sub_cancel_left]
    exact (List.prefix_iff_eq_take.1 hrun).symm
  refine (outcome_bind_of_ok (m := (read : Scan (List Char))) (a := text) (q := p) rfl).trans ?_
  rw [if_pos ⟨Nat.le_add_right _ _, by omega⟩, hslice]
  rfl

theorem outcome_pass (ch : Char) (text : List Char) (p : Place) :
    (pass ch).outcome text p = (.ok (), p.pass ch) := by
  refine (outcome_bind_of_ok (outcome_move 1 text p)).trans ?_
  unfold Place.pass
  split <;> rfl

theorem outcome_position (hp : p.InOrder) : position.outcome text p = (.ok p.position, p) := by
  have hle : p.lineStart ≤ p.offset := hp
  refine (outcome_bind_of_ok (m := (get : Scan Place)) (a := p) (q := p) rfl).trans ?_
  rw [if_pos hle]
  rfl

theorem outcome_refuse (hp : p.InOrder) (fault : SyntaxFault) :
    (refuse fault : Scan α).outcome text p = (.error (.refused ⟨p.position, fault⟩), p) :=
  outcome_bind_of_ok (outcome_position hp)

theorem outcome_retreat (hp : p.InOrder) : retreat.outcome text (p.move 1) = (.ok (), p) := by
  have hlt : (p.move 1).lineStart < (p.move 1).offset := Nat.lt_succ_of_le hp
  refine (outcome_bind_of_ok (m := (get : Scan Place)) (a := p.move 1) (q := p.move 1) rfl).trans ?_
  rw [if_pos hlt]
  rfl

/-- What a turn keeps that may go on from a later place, the whole loop keeps. -/
theorem loop_rule {body : (σ → Scan α) → σ → Scan α}
    {P : σ → Place → Except ScanStop α × Place → Prop}
    (h : ∀ (again : σ → Scan α) (s : σ) (p : Place),
      (∀ s' q, (q.cursor text).rest.length < (p.cursor text).rest.length →
        P s' q ((again s').outcome text q)) → P s p ((body again s).outcome text p))
    (s : σ) (p : Place) : P s p ((loop body s).outcome text p) := by
  have hturns := Place.length_rest_lt text p
  change P s p ((repeated body (text.length + 1) s).outcome text p)
  generalize text.length + 1 = turns at hturns
  induction turns generalizing s p with
  | zero => exact absurd hturns (Nat.not_lt_zero _)
  | succ turns ih =>
    -- What is left gets shorter in each turn, so that the turns do not run out.
    refine h (repeated body turns) s p fun s' q hlt => ih s' q ?_
    exact Nat.lt_of_lt_of_le hlt (Nat.le_of_lt_succ hturns)

theorem outcome_whileTurn (keep : Nat → Char → Bool) (again : Unit → Scan Unit) (text : List Char)
    (p : Place) : (whileTurn keep again ()).outcome text p =
      if (p.cursor text).rest.head?.any (keep p.offset) then (again ()).outcome text (p.move 1)
      else (.ok (), p) := by
  refine (outcome_bind_of_ok (outcome_offset text p)).trans ?_
  refine (outcome_bind_of_ok (outcome_peek? text p)).trans ?_
  split
  · exact outcome_bind_of_ok (outcome_move 1 text p)
  · rfl

/-- What may be passed is passed, up to the first character that may not. -/
theorem outcome_whileTurn_run {keep : Nat → Char → Bool} {allowed : Char → Bool}
    {again : Unit → Scan Unit} (hkeep : keep p.offset = allowed)
    (hagain : ∀ ch x, (p.cursor text).rest = ch :: x → (again ()).outcome text (p.move 1) =
      (.ok (), (p.move 1).move (x.takeWhile allowed).length)) :
    (whileTurn keep again ()).outcome text p =
      (.ok (), p.move ((p.cursor text).rest.takeWhile allowed).length) := by
  rw [outcome_whileTurn, hkeep]
  cases hx : (p.cursor text).rest with
  | nil => rfl
  | cons ch x =>
    rw [List.head?_cons, Option.any_some, List.takeWhile_cons]
    split
    · rw [hagain ch x hx, Place.move_cons]
    · rfl

theorem outcome_passWhile {keep : Char → Bool} (text : List Char) (p : Place) :
    (passWhile keep).outcome text p =
      (.ok (), p.move ((p.cursor text).rest.takeWhile keep).length) := by
  refine loop_rule (P := fun _ p out => out = (.ok (), p.move (List.length _)))
    (fun again _ p ih => outcome_whileTurn_run rfl fun ch x hx => ?_) () p
  exact Place.rest_move_one hx ▸ ih () (p.move 1) (Place.length_rest_move_one hx)

end Outcomes

/-- A scan comes to what a reading comes to, and its place is in order. -/
inductive Agrees (text : List Char) :
    Except ScanStop α × Place → Except SyntaxError (α × Cursor) → Prop
  | found {p : Place} (value : α) (h : p.InOrder) :
      Agrees text (.ok value, p) (.ok (value, p.cursor text))
  | refused {p : Place} (e : SyntaxError) (h : p.InOrder) :
      Agrees text (.error (.refused e), p) (.error e)

/-- From a place on, a scan does what a reader does. -/
def Tracks (text : List Char) (m : Scan α) (r : Reader α) (p : Place) : Prop :=
  Agrees text (m.outcome text p) (r.run (p.cursor text))

section Rules

variable {r : Reader α} {g : α → Reader β}

theorem Tracks.bind (h : Tracks text m r p)
    (hf : ∀ a q, q.InOrder → r.run (p.cursor text) = .ok (a, q.cursor text) →
      Tracks text (f a) (g a) q) : Tracks text (m >>= f) (r >>= g) p := by
  unfold Tracks at h ⊢
  generalize hm : m.outcome text p = out at h
  generalize hr : r.run (p.cursor text) = result at h
  cases h with
  | @found q a hq =>
    rw [outcome_bind_of_ok hm, Reader.bind_run_of_ok hr]
    exact hf a q hq hr
  | refused e hq =>
    rw [outcome_bind_of_error hm, Reader.bind_run_of_error hr]
    exact .refused e hq

theorem Tracks.of_outcome {r : Reader β} (h : m.outcome text p = (.ok a, q))
    (hf : Agrees text ((f a).outcome text q) (r.run (p.cursor text))) :
    Tracks text (m >>= f) r p := by
  unfold Tracks
  rwa [outcome_bind_of_ok h]

/-- A step of the scan alone, which stays where it is. -/
theorem Tracks.step {r : Reader β} (h : m.outcome text p = (.ok a, p))
    (hf : Tracks text (f a) r p) : Tracks text (m >>= f) r p := .of_outcome h hf

theorem Tracks.congr {r' : Reader α} (h : Tracks text m r p)
    (hr : r'.run (p.cursor text) = r.run (p.cursor text)) : Tracks text m r' p := by
  unfold Tracks
  rwa [hr]

theorem tracks_pure (hp : p.InOrder) (a : α) : Tracks text (pure a) (pure a) p := .found a hp

theorem tracks_advance (hp : p.InOrder) : Tracks text (move 1) Reader.advance p := by
  change Agrees text (.ok (), p.move 1) (.ok ((), (p.cursor text).advance))
  rw [← Place.cursor_move_one]
  exact .found () (hp.move 1)

theorem tracks_refuseAt (hp : p.InOrder) (start : Position) (fault : SyntaxFault) :
    Tracks text (refuseAt start fault : Scan α) (Reader.failAt start fault) p := .refused _ hp

theorem tracks_refuse (hp : p.InOrder) (fault : SyntaxFault) :
    Tracks text (refuse fault : Scan α) (Reader.fail fault) p := by
  unfold Tracks
  rw [outcome_refuse hp]
  exact .refused _ hp

theorem tracks_peek? {f : Option Char → Scan β} {g : Option Char → Reader β}
    (hf : Tracks text (f (p.cursor text).rest.head?) (g (p.cursor text).rest.head?) p) :
    Tracks text (peek? >>= f) (Reader.next? >>= g) p :=
  .of_outcome (outcome_peek? text p) hf

theorem tracks_rest {g : List Char → Reader α} (h : Tracks text m (g (p.cursor text).rest) p) :
    Tracks text m (Reader.rest >>= g) p := h.congr rfl

theorem tracks_position {f : Position → Scan β} {g : Position → Reader β} (hp : p.InOrder)
    (hf : Tracks text (f p.position) (g p.position) p) :
    Tracks text (position >>= f) (Reader.position >>= g) p :=
  .of_outcome (outcome_position hp) hf

theorem tracks_move {f : Unit → Scan β} {g : Unit → Reader β}
    (hf : Tracks text (f ()) (g ()) (p.move 1)) :
    Tracks text (move 1 >>= f) (Reader.advance >>= g) p := by
  refine .of_outcome (outcome_move 1 text p) ?_
  unfold Tracks at hf
  rwa [Place.cursor_move_one] at hf

theorem tracks_pass {f : Unit → Scan β} {g : Unit → Reader β}
    (hf : Tracks text (f ()) (g ()) (p.pass ch)) :
    Tracks text (pass ch >>= f) (Reader.pass ch >>= g) p := by
  refine .of_outcome (outcome_pass ch text p) ?_
  unfold Tracks at hf
  rwa [Place.cursor_pass] at hf

theorem cursor_takeWhile {keep : Char → Bool} (hkeep : keep '\n' = false) :
    (p.move ((p.cursor text).rest.takeWhile keep).length).cursor text =
      (p.cursor text).passAll ((p.cursor text).rest.takeWhile keep) := by
  refine Place.cursor_move text (fun h => ?_) p
  rw [List.mem_takeWhile_imp h] at hkeep
  cases hkeep

/-- A run without line breaks is passed on both sides. -/
theorem tracks_passWhile {keep : Char → Bool} {f : Unit → Scan β} {g : List Char → Reader β}
    (hkeep : keep '\n' = false)
    (hf : ∀ run, run = (p.cursor text).rest.takeWhile keep →
      Tracks text (f ()) (g run) (p.move run.length)) :
    Tracks text (passWhile keep >>= f) (Reader.takeWhile keep >>= g) p := by
  refine .of_outcome (outcome_passWhile text p) ?_
  rw [Reader.bind_run_of_ok (Reader.takeWhile_run keep _), ← cursor_takeWhile hkeep]
  exact hf _ rfl

/-- A scan and a reading that repeat themselves in step, each time from a later place. What is read
there is what the whole loop reads. -/
theorem tracks_loop_again {body : (σ → Scan α) → σ → Scan α}
    {body' : (σ → Reader α) → σ → Reader α} {s : σ}
    (h : ∀ (again : σ → Scan α) (again' : σ → Reader α) (s : σ) (p : Place), p.InOrder →
      (∀ s' q, q.InOrder → (q.cursor text).rest.length < (p.cursor text).rest.length →
        Tracks text (again s') (again' s') q ∧
          (again' s').run (q.cursor text) = StateT.run (Reader.fix body' s') (q.cursor text)) →
      Tracks text (body again s) (body' again' s) p)
    (hp : p.InOrder) : Tracks text (loop body s) (Reader.fix body' s) p := by
  refine loop_rule (P := fun s p out => p.InOrder →
    Agrees text out (StateT.run (Reader.fix body' s) (p.cursor text)))
    (fun again s p ih hp => ?_) s p hp
  rw [Reader.fix_run]
  refine h again _ s p hp fun s' q hq hlt => ?_
  have hrun := Reader.guarded_run_of_lt (r := Reader.fix body' s') hlt
  refine ⟨?_, hrun⟩
  unfold Tracks
  rw [hrun]
  exact ih s' q hlt hq

theorem tracks_loop {body : (σ → Scan α) → σ → Scan α} {body' : (σ → Reader α) → σ → Reader α}
    {s : σ} (h : ∀ (again : σ → Scan α) (again' : σ → Reader α) (s : σ) (p : Place), p.InOrder →
      (∀ s' q, q.InOrder → (q.cursor text).rest.length < (p.cursor text).rest.length →
        Tracks text (again s') (again' s') q) → Tracks text (body again s) (body' again' s) p)
    (hp : p.InOrder) : Tracks text (loop body s) (Reader.fix body' s) p :=
  tracks_loop_again (fun again again' s p hp hagain =>
    h again again' s p hp fun s' q hq hlt => (hagain s' q hq hlt).1) hp

/-- To mark a place is to keep it. -/
theorem tracks_get {f : Place → Scan β} {g : Cursor → Reader β}
    (hf : Tracks text (f p) (g (p.cursor text)) p) : Tracks text (get >>= f) (get >>= g) p := hf

/-- Reading goes on from a marked place. -/
theorem tracks_set {f : Unit → Scan β} {g : Unit → Reader β} {mark : Place}
    (hf : Tracks text (f ()) (g ()) mark) :
    Tracks text (set mark >>= f) (set (mark.cursor text) >>= g) p := hf

end Rules

end Scan

end ThriftIdl
