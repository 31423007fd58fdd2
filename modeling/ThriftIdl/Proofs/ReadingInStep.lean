import ThriftIdl.Proofs.CursorMovement

namespace ThriftIdl.Reader

variable {α β σ γ : Type}

/-- What one reader reads from a point another one reads from another point as well. -/
def InStep (r r' : Reader α) (c c' : Cursor) (Q : α → Cursor → α → Cursor → Prop) : Prop :=
  ∀ a d, r.run c = .ok (a, d) → ∃ a' d', r'.run c' = .ok (a', d') ∧ Q a d a' d'

/-- In step, unless the first reader ends where reading cannot go on. -/
def InStepOr (D : Cursor → Prop) (r r' : Reader α) (c c' : Cursor)
    (Q : α → Cursor → α → Cursor → Prop) : Prop :=
  ∀ a d, r.run c = .ok (a, d) → D d ∨ ∃ a' d', r'.run c' = .ok (a', d') ∧ Q a d a' d'

def Fails (r : Reader α) (c : Cursor) : Prop := Ends r c (fun _ _ => False) fun _ => True

section Rules

variable {b c c' d d' : Cursor} {r r' : Reader α} {f f' : α → Reader β} {a a' : α}
  {Q Q' : α → Cursor → α → Cursor → Prop} {R : β → Cursor → β → Cursor → Prop}
  {W : α → Cursor → Prop} {D : Cursor → Prop} {fault : SyntaxFault} {p : Char → Bool}

theorem InStep.imp (h : InStep r r' c c' Q) (hq : ∀ a d a' d', Q a d a' d' → Q' a d a' d') :
    InStep r r' c c' Q' := by
  intro a d hr
  obtain ⟨a', d', hr', hQ⟩ := h a d hr
  exact ⟨a', d', hr', hq a d a' d' hQ⟩

theorem InStep.bind (h : InStep r r' c c' Q)
    (hf : ∀ a d a' d', Q a d a' d' → InStep (f a) (f' a') d d' R) :
    InStep (r >>= f) (r' >>= f') c c' R := by
  intro y e hrun
  obtain ⟨a, d, hr, hy⟩ := bind_run_ok hrun
  obtain ⟨a', d', hr', hQ⟩ := h a d hr
  obtain ⟨y', e', hy', hR⟩ := hf a d a' d' hQ y e hy
  exact ⟨y', e', (bind_run_of_ok hr').trans hy', hR⟩

theorem Fails.inStep (h : Fails r c) : InStep r r' c c' Q := fun _ _ hr => (h.of_ok hr).elim

theorem Fails.bind (h : Fails r c) : Fails (r >>= f) c :=
  Ends.bind h fun _ _ hd => hd.elim

theorem fails_fail (fault : SyntaxFault) : Fails (fail fault : Reader α) c := trivial

theorem fails_failAt (place : Position) (fault : SyntaxFault) :
    Fails (failAt place fault : Reader α) c := trivial

/-- The second reader is known to go forward. -/
theorem InStep.walks (h : InStep r r' c c' Q) (hw : Walks b r' c' W) :
    InStep r r' c c' fun a d a' d' => Q a d a' d' ∧ c'.Onward d' ∧ W a' d' := by
  intro a d hr
  obtain ⟨a', d', hr', hQ⟩ := h a d hr
  exact ⟨a', d', hr', hQ, Ends.of_ok hw hr'⟩

theorem InStep.or (h : InStep r r' c c' Q) : InStepOr D r r' c c' Q :=
  fun a d hr => .inr (h a d hr)

theorem Reads.inStep {x x' : List Char} {P P' : α → Prop} (h : Reads r c.rest x P)
    (h' : Reads r' c'.rest x' P') :
    InStep r r' c c' fun a d a' d' => (d.rest = x ∧ P a) ∧ d'.rest = x' ∧ P' a' := by
  intro a d hr
  have hd := (h c rfl).of_ok hr
  have hd' := h' c' rfl
  unfold Ends at hd'
  rcases hr' : r'.run c' with e | ⟨a', d'⟩
  · rw [hr'] at hd'
    exact hd'.elim
  · rw [hr'] at hd'
    exact ⟨a', d', rfl, hd, hd'⟩

theorem InStepOr.imp (h : InStepOr D r r' c c' Q)
    (hq : ∀ a d a' d', Q a d a' d' → Q' a d a' d') : InStepOr D r r' c c' Q' := by
  intro a d hr
  refine (h a d hr).imp_right ?_
  rintro ⟨a', d', hr', hQ⟩
  exact ⟨a', d', hr', hq a d a' d' hQ⟩

theorem Fails.inStepOr (h : Fails r c) : InStepOr D r r' c c' Q := h.inStep.or

theorem inStepOr_of_ends (h : Ends r c (fun _ d => D d) fun _ => True) :
    InStepOr D r r' c c' Q :=
  fun _ _ hr => .inl (h.of_ok hr)

theorem InStep.bind_or (h : InStep r r' c c' Q)
    (hf : ∀ a d a' d', Q a d a' d' → InStepOr D (f a) (f' a') d d' R) :
    InStepOr D (r >>= f) (r' >>= f') c c' R := by
  intro y e hrun
  obtain ⟨a, d, hr, hy⟩ := bind_run_ok hrun
  obtain ⟨a', d', hr', hQ⟩ := h a d hr
  refine (hf a d a' d' hQ y e hy).imp_right ?_
  rintro ⟨y', e', hy', hR⟩
  exact ⟨y', e', (bind_run_of_ok hr').trans hy', hR⟩

theorem InStepOr.bind (h : InStepOr D r r' c c' Q)
    (hD : ∀ a d, D d → Ends (f a) d (fun _ e => D e) fun _ => True)
    (hf : ∀ a d a' d', Q a d a' d' → InStepOr D (f a) (f' a') d d' R) :
    InStepOr D (r >>= f) (r' >>= f') c c' R := by
  intro y e hrun
  obtain ⟨a, d, hr, hy⟩ := bind_run_ok hrun
  rcases h a d hr with hd | ⟨a', d', hr', hQ⟩
  · exact .inl ((hD a d hd).of_ok hy)
  · refine (hf a d a' d' hQ y e hy).imp_right ?_
    rintro ⟨y', e', hy', hR⟩
    exact ⟨y', e', (bind_run_of_ok hr').trans hy', hR⟩

/-- Where the first reader fails later, they are in step all the same. -/
theorem InStepOr.bind_of_fails (h : InStepOr D r r' c c' Q)
    (hD : ∀ a d, D d → Fails (f a) d)
    (hf : ∀ a d a' d', Q a d a' d' → InStep (f a) (f' a') d d' R) :
    InStep (r >>= f) (r' >>= f') c c' R := by
  intro y e hrun
  obtain ⟨a, d, hr, hy⟩ := bind_run_ok hrun
  rcases h a d hr with hd | ⟨a', d', hr', hQ⟩
  · exact ((hD a d hd).of_ok hy).elim
  · obtain ⟨y', e', hy', hR⟩ := hf a d a' d' hQ y e hy
    exact ⟨y', e', (bind_run_of_ok hr').trans hy', hR⟩

theorem InStepOr.walks (h : InStepOr D r r' c c' Q) (hw : Walks b r' c' W) :
    InStepOr D r r' c c' fun a d a' d' => Q a d a' d' ∧ c'.Onward d' ∧ W a' d' := by
  intro a d hr
  refine (h a d hr).imp_right ?_
  rintro ⟨a', d', hr', hQ⟩
  exact ⟨a', d', hr', hQ, Ends.of_ok hw hr'⟩

theorem inStep_pure (h : Q a c a' c') : InStep (pure a) (pure a') c c' Q := by
  rintro _ _ ⟨⟩
  exact ⟨a', c', rfl, h⟩

theorem inStep_get :
    InStep get get c c' fun a d a' d' => a = c ∧ d = c ∧ a' = c' ∧ d' = c' := by
  rintro _ _ ⟨⟩
  exact ⟨c', c', rfl, rfl, rfl, rfl, rfl⟩

theorem inStep_set : InStep (set d : Reader PUnit) (set d' : Reader PUnit) c c'
    fun _ e _ e' => e = d ∧ e' = d' := by
  rintro _ _ ⟨⟩
  exact ⟨_, d', rfl, rfl, rfl⟩

theorem inStep_position :
    InStep position position c c' fun _ d _ d' => d = c ∧ d' = c' := by
  rintro _ _ ⟨⟩
  exact ⟨_, c', rfl, rfl, rfl⟩

theorem inStep_rest : InStep rest rest c c' fun x d x' d' =>
    (x = c.rest ∧ d = c) ∧ x' = c'.rest ∧ d' = c' := by
  rintro _ _ ⟨⟩
  exact ⟨_, c', rfl, ⟨rfl, rfl⟩, rfl, rfl⟩

theorem inStep_next? : InStep next? next? c c' fun next d next' d' =>
    (next = c.rest.head? ∧ d = c) ∧ next' = c'.rest.head? ∧ d' = c' := by
  rintro _ _ ⟨⟩
  exact ⟨_, c', rfl, ⟨rfl, rfl⟩, rfl, rfl⟩

theorem inStep_advance :
    InStep advance advance c c' fun _ d _ d' => d = c.advance ∧ d' = c'.advance := by
  rintro _ _ ⟨⟩
  exact ⟨_, _, rfl, rfl, rfl⟩

theorem inStep_pass {ch : Char} :
    InStep (pass ch) (pass ch) c c' fun _ d _ d' => d = c.pass ch ∧ d' = c'.pass ch := by
  rintro _ _ ⟨⟩
  exact ⟨_, _, rfl, rfl, rfl⟩

theorem inStep_takeWhile : InStep (takeWhile p) (takeWhile p) c c' fun run d run' d' =>
    (run = c.rest.takeWhile p ∧ d.rest = c.rest.dropWhile p) ∧
      run' = c'.rest.takeWhile p ∧ d'.rest = c'.rest.dropWhile p := by
  intro run d hr
  rw [takeWhile_run] at hr
  obtain ⟨rfl, rfl⟩ := Prod.mk.inj (Except.ok.inj hr)
  exact ⟨_, _, takeWhile_run p c', ⟨rfl, rest_passAll_takeWhile p c⟩, rfl,
    rest_passAll_takeWhile p c'⟩

theorem inStep_skipWhile : InStep (skipWhile p) (skipWhile p) c c' fun _ d _ d' =>
    d.rest = c.rest.dropWhile p ∧ d'.rest = c'.rest.dropWhile p := by
  intro run d hr
  rw [skipWhile_run] at hr
  obtain ⟨rfl, rfl⟩ := Prod.mk.inj (Except.ok.inj hr)
  exact ⟨_, _, skipWhile_run p c', rest_passAll_takeWhile p c, rest_passAll_takeWhile p c'⟩

/-- Reading that repeats itself, by induction on what is left for the second reader. Some points
may be known to be beyond repair, from which no repetition ends. -/
theorem inStep_fix {body body' : (σ → Reader α) → σ → Reader α} {D : Cursor → Prop}
    {T : γ → σ → σ → Cursor → Cursor → Prop}
    {Q : γ → σ → σ → α → Cursor → α → Cursor → Prop} {g : γ} {s s' : σ}
    (hD : ∀ (again : σ → Reader α) s c, D c → Fails (body again s) c)
    (h : ∀ (again again' : σ → Reader α) g s s' c c', (∀ s d, D d → Fails (again s) d) →
      (∀ g s s' d d', c'.Past d' → T g s s' d d' →
        InStep (again s) (again' s') d d' (Q g s s')) →
      T g s s' c c' → InStep (body again s) (body' again' s') c c' (Q g s s'))
    (hT : T g s s' c c') : InStep (fix body s) (fix body' s') c c' (Q g s s') := by
  have hfails (bound : Nat) (s : σ) (d : Cursor) (hd : D d) :
      Fails (guarded bound (fix body s)) d := by
    change Gives (if _ then _ else _) _ _
    split
    · rw [fix_run]
      exact hD _ s d hd
    · trivial
  induction hn : c'.rest.length using Nat.strongRecOn generalizing g s s' c c' with
  | ind n ih =>
    subst hn
    intro a e hrun
    rw [fix_run] at hrun ⊢
    refine h _ _ g s s' c c' (hfails _) (fun g s s' d d' hd hT' => ?_) hT a e hrun
    intro a e hrun
    have hguard : StateT.run (guarded c'.rest.length (fix body' s')) d' =
        StateT.run (fix body' s') d' := if_pos hd.shorter
    rw [hguard]
    change (if _ then _ else _) = _ at hrun
    split at hrun
    · exact ih _ hd.shorter hT' rfl a e hrun
    · cases hrun

end Rules

end ThriftIdl.Reader
