import Mathlib.Data.List.TakeWhile
import ThriftIdl.Proofs.Runs
import ThriftIdl.Reader.Basic

namespace ThriftIdl.Reader

variable {α β σ : Type}

section Binds

variable {r : Reader α} {f : α → Reader β} {a : α} {c d : Cursor}

theorem bind_run_of_ok (h : r.run c = .ok (a, d)) : (r >>= f).run c = (f a).run d := by
  rw [StateT.run_bind, h]
  rfl

theorem bind_run_of_error {e : SyntaxError} (h : r.run c = .error e) :
    (r >>= f).run c = .error e := by
  rw [StateT.run_bind, h]
  rfl

theorem bind_run_ok {e : Cursor} {y : β} (h : (r >>= f).run c = .ok (y, e)) :
    ∃ a d, r.run c = .ok (a, d) ∧ (f a).run d = .ok (y, e) := by
  cases hr : r.run c with
  | error e =>
    rw [bind_run_of_error hr] at h
    cases h
  | ok out => exact ⟨out.1, out.2, rfl, (bind_run_of_ok hr).symm.trans h⟩

end Binds

/-- What holds of the value and the place that a reader ends with, or else of its error. -/
def Ends (r : Reader α) (c : Cursor) (Q : α → Cursor → Prop) (E : SyntaxError → Prop) : Prop :=
  Gives (r.run c) (fun out => Q out.1 out.2) E

section Ends

variable {r : Reader α} {f : α → Reader β} {c : Cursor} {Q Q' : α → Cursor → Prop}
  {R : β → Cursor → Prop} {E E' : SyntaxError → Prop}

theorem Ends.imp (h : Ends r c Q E) (hq : ∀ a c', Q a c' → Q' a c') (he : ∀ e, E e → E' e) :
    Ends r c Q' E' :=
  Gives.imp h (fun out => hq out.1 out.2) he

theorem Ends.bind (h : Ends r c Q E) (hf : ∀ a c', Q a c' → Ends (f a) c' R E) :
    Ends (r >>= f) c R E := by
  change Gives (r.run c >>= fun out => (f out.1).run out.2) _ E
  exact Gives.bind h fun out hq => hf out.1 out.2 hq

theorem Ends.of_ok {a : α} {c' : Cursor} (h : Ends r c Q E) (hr : r.run c = .ok (a, c')) :
    Q a c' := by
  unfold Ends at h
  rw [hr] at h
  exact h

theorem ends_true (r : Reader α) (c : Cursor) : Ends r c (fun _ _ => True) (fun _ => True) := by
  unfold Ends Gives
  split <;> trivial

theorem ends_next? : Ends next? c (fun next c' => next = c.rest.head? ∧ c' = c) E := ⟨rfl, rfl⟩

/-- A run of characters goes no further. -/
def Stops (p : Char → Bool) (text : List Char) : Prop := ∀ c ∈ text.head?, p c = false

theorem stops_nil (p : Char → Bool) : Stops p [] := by simp [Stops]

theorem stops_cons {p : Char → Bool} {ch : Char} {text : List Char} (h : p ch = false) :
    Stops p (ch :: text) := by
  simpa [Stops] using h

theorem Stops.of_imp {p q : Char → Bool} {text : List Char} (h : Stops p text)
    (hpq : ∀ ch, q ch = true → p ch = true) : Stops q text := by
  intro ch hch
  cases hq : q ch with
  | true => exact absurd (hpq ch hq) (by simp [h ch hch])
  | false => rfl

theorem Stops.append {p : Char → Bool} {run : List Char} (h : Stops p run) (hne : run ≠ [])
    (text : List Char) : Stops p (run ++ text) := by
  intro ch hch
  rw [List.head?_append_of_ne_nil _ hne] at hch
  exact h ch hch

theorem stops_append {p : Char → Bool} {run text : List Char} (hne : run ≠ [])
    (h : ∀ ch ∈ run, p ch = false) : Stops p (run ++ text) := by
  cases run with
  | nil => exact absurd rfl hne
  | cons ch run => exact stops_cons (h ch List.mem_cons_self)

theorem exists_cons_of_not_stops {p : Char → Bool} {text : List Char} (h : ¬ Stops p text) :
    ∃ ch rest, text = ch :: rest ∧ p ch = true := by
  cases text with
  | nil => exact absurd (stops_nil p) h
  | cons ch rest =>
    refine ⟨ch, rest, rfl, ?_⟩
    rw [← Bool.not_eq_false]
    exact fun hch => h (stops_cons hch)

theorem stops_dropWhile (p : Char → Bool) (text : List Char) : Stops p (text.dropWhile p) := by
  intro ch hch
  have h := List.head?_dropWhile_not p text
  rw [Option.mem_def.1 hch] at h
  exact h

theorem ends_skipWhile (p : Char → Bool) (c : Cursor) :
    Ends (skipWhile p) c (fun _ c' => Stops p c'.rest) E := by
  unfold Ends
  rw [skipWhile_run]
  change Stops p (Cursor.passAll c _).rest
  rw [rest_passAll_takeWhile]
  exact stops_dropWhile p c.rest

theorem ends_takeWhile (p : Char → Bool) (c : Cursor) :
    Ends (takeWhile p) c
      (fun run _ => (∀ ch ∈ run, p ch = true) ∧ run.head? = c.rest.head?.filter p) E :=
  ⟨fun _ hch => List.mem_takeWhile_imp hch, List.head?_takeWhile⟩

/-- Reading that may only start in front of a bound. -/
def guarded (bound : Nat) (r : Reader α) : Reader α := fun c =>
  if c.rest.length < bound then r.run c else (fail .stalled : Reader α).run c

theorem guarded_run_of_lt {bound : Nat} (h : c.rest.length < bound) :
    StateT.run (guarded bound r) c = StateT.run r c := if_pos h

theorem guarded_run_ok {bound : Nat} {out : α × Cursor}
    (h : StateT.run (guarded bound r) c = .ok out) :
    c.rest.length < bound ∧ StateT.run r c = .ok out := by
  change (if _ then _ else _) = _ at h
  split at h
  · next hlt => exact ⟨hlt, h⟩
  · cases h

theorem fix_run (body : (σ → Reader α) → σ → Reader α) (s : σ) (c : Cursor) :
    StateT.run (fix body s) c =
      (body (fun s => guarded c.rest.length (fix body s)) s).run c := by
  change fix body s c = _
  rw [fix]
  rfl

/-- Reading that ends in one way, whatever a repetition would do. -/
theorem Ends.fix_once {body : (σ → Reader α) → σ → Reader α} {s : σ}
    (h : ∀ again, Ends (body again s) c Q E) : Ends (fix body s) c Q E := by
  unfold Ends
  rw [fix_run]
  exact h _

theorem ends_fix {body : (σ → Reader α) → σ → Reader α} {Q : σ → Cursor → α → Cursor → Prop}
    (h : ∀ again : σ → Reader α, (∀ s c, Ends (again s) c (Q s c) fun _ => True) →
      ∀ s c, Ends (body again s) c (Q s c) fun _ => True) (s : σ) (c : Cursor) :
    Ends (fix body s) c (Q s c) fun _ => True := by
  induction hn : c.rest.length using Nat.strongRecOn generalizing s c with
  | ind n ih =>
    unfold Ends
    rw [fix_run]
    refine h _ ?_ s c
    intro s' c'
    change Gives (if _ then _ else _) _ _
    split
    · next hlt => exact ih _ (hn ▸ hlt) s' c' rfl
    · trivial

end Ends

/-- Whenever a reader has a result, it is of a certain kind. -/
def Yields (r : Reader α) (P : α → Prop) : Prop :=
  ∀ c, Ends r c (fun a _ => P a) fun _ => True

section Yields

variable {r : Reader α} {f : α → Reader β} {P P' : α → Prop} {Q : β → Prop}

theorem Yields.imp (h : Yields r P) (hp : ∀ a, P a → P' a) : Yields r P' :=
  fun c => (h c).imp (fun a _ => hp a) fun _ he => he

theorem Yields.bind (h : Yields r P) (hf : ∀ a, P a → Yields (f a) Q) : Yields (r >>= f) Q :=
  fun c => (h c).bind fun a c' ha => hf a ha c'

theorem yields_bind (r : Reader α) (hf : ∀ a, Yields (f a) Q) : Yields (r >>= f) Q :=
  fun c => (ends_true r c).bind fun a c' _ => hf a c'

theorem yields_pure {a : α} (h : P a) : Yields (pure a) P := fun _ => h

theorem yields_fail (fault : SyntaxFault) : Yields (fail fault) P := fun _ => trivial

theorem yields_failAt (position : Position) (fault : SyntaxFault) :
    Yields (failAt position fault) P := fun _ => trivial

theorem yields_fix {body : (σ → Reader α) → σ → Reader α} {P : σ → α → Prop}
    (h : ∀ again : σ → Reader α, (∀ s, Yields (again s) (P s)) → ∀ s, Yields (body again s) (P s))
    (s : σ) : Yields (fix body s) (P s) :=
  fun c => ends_fix (Q := fun s _ a _ => P s a) (fun again hagain s => h again hagain s) s c

end Yields

/-- A reader passes from one text to what is left of it, whatever came before. -/
def Reads (r : Reader α) (text rest : List Char) (P : α → Prop) : Prop :=
  ∀ c, c.rest = text → Ends r c (fun a c' => c'.rest = rest ∧ P a) fun _ => False

section Reads

variable {r : Reader α} {f : α → Reader β} {x y z text : List Char} {P P' : α → Prop} {Q : β → Prop}
  {a : α}

theorem Reads.imp (h : Reads r x y P) (hp : ∀ a, P a → P' a) : Reads r x y P' :=
  fun c hc => (h c hc).imp (fun a _ ⟨hrest, ha⟩ => ⟨hrest, hp a ha⟩) fun _ he => he

theorem Reads.bind (h : Reads r x y P) (hf : ∀ a, P a → Reads (f a) y z Q) :
    Reads (r >>= f) x z Q :=
  fun c hc => (h c hc).bind fun a c' ⟨hrest, ha⟩ => hf a ha c' hrest

/-- A reader with a known value. -/
theorem Reads.then (h : Reads r x y (· = a)) (hf : Reads (f a) y z Q) : Reads (r >>= f) x z Q :=
  h.bind fun _ ha => ha ▸ hf

theorem reads_pure (h : P a) : Reads (pure a) x x P := fun _ hc => ⟨hc, h⟩

theorem reads_get {f : Cursor → Reader β} (hf : ∀ c, c.rest = x → Reads (f c) x y Q) :
    Reads (get >>= f) x y Q :=
  fun c hc => hf c hc c hc

theorem reads_set {c : Cursor} (hc : c.rest = y) : Reads (set c : Reader PUnit) x y fun _ => True :=
  fun _ _ => ⟨hc, trivial⟩

theorem reads_position : Reads position x x fun _ => True := fun _ hc => ⟨hc, trivial⟩

theorem reads_rest : Reads rest x x (· = x) := fun _ hc => ⟨hc, hc⟩

theorem reads_next? : Reads next? x x (· = x.head?) := by
  intro c hc
  subst hc
  exact ⟨rfl, rfl⟩

theorem reads_advance (ch : Char) : Reads advance (ch :: x) x fun _ => True := by
  intro c hc
  refine ⟨?_, trivial⟩
  change c.rest.tail = x
  rw [hc, List.tail_cons]

theorem reads_pass (ch ch' : Char) : Reads (pass ch) (ch' :: x) x fun _ => True := by
  intro c hc
  refine ⟨?_, trivial⟩
  change (c.pass ch).rest = x
  rw [Cursor.rest_pass, hc, List.tail_cons]

theorem takeWhile_run_append {p : Char → Bool} {run : List Char} (hrun : ∀ c ∈ run, p c = true)
    (hrest : Stops p x) : (run ++ x).takeWhile p = run := by
  rw [List.takeWhile_append_of_pos hrun]
  cases x with
  | nil => simp
  | cons c x => simp [hrest c rfl]

theorem reads_takeWhile {p : Char → Bool} {run : List Char} (hrun : ∀ c ∈ run, p c = true)
    (hrest : Stops p x) : Reads (takeWhile p) (run ++ x) x (· = run) := by
  intro c hc
  have hr : c.rest.takeWhile p = run := by rw [hc, takeWhile_run_append hrun hrest]
  unfold Ends
  rw [takeWhile_run, hr]
  refine ⟨?_, rfl⟩
  rw [Cursor.rest_passAll, hc, List.drop_left]

theorem reads_skipWhile {p : Char → Bool} {run : List Char} (hrun : ∀ c ∈ run, p c = true)
    (hrest : Stops p x) :
    Reads (skipWhile p) (run ++ x) x fun _ => True := by
  intro c hc
  have hr : c.rest.takeWhile p = run := by rw [hc, takeWhile_run_append hrun hrest]
  unfold Ends
  rw [skipWhile_run, hr]
  refine ⟨?_, trivial⟩
  rw [Cursor.rest_passAll, hc, List.drop_left]

theorem Reads.guarded {bound : Nat} (h : Reads r x y P) (hlt : x.length < bound) :
    Reads (guarded bound r) x y P := by
  intro c hc
  have hrun : StateT.run (Reader.guarded bound r) c = r.run c := if_pos (by rwa [hc])
  unfold Ends
  rw [hrun]
  exact h c hc

theorem Reads.fix {body : (σ → Reader α) → σ → Reader α} {s : σ}
    (h : Reads (body (fun s => Reader.guarded x.length (fix body s)) s) x y P) :
    Reads (Reader.fix body s) x y P := by
  intro c hc
  subst hc
  unfold Ends
  rw [fix_run]
  exact h c rfl

/-- Reading that repeats itself, by induction on the length of the text. -/
theorem reads_fix {γ : Type} {body : (σ → Reader α) → σ → Reader α}
    {T : γ → σ → List Char → Prop} {P : γ → σ → α → Prop} {g : γ} {s : σ}
    (h : ∀ (again : σ → Reader α) (g : γ) (s : σ) (x : List Char),
      (∀ g' s' x', x'.length < x.length → T g' s' x' → Reads (again s') x' y (P g' s')) →
        T g s x → Reads (body again s) x y (P g s)) (hT : T g s x) :
    Reads (Reader.fix body s) x y (P g s) := by
  induction hn : x.length using Nat.strongRecOn generalizing g s x with
  | ind n ih =>
    subst hn
    refine Reads.fix (h _ g s x (fun g' s' x' hlt hT' => ?_) hT)
    exact (ih _ hlt hT' rfl).guarded hlt

end Reads

end ThriftIdl.Reader
