import ThriftIdl.Proofs.ReadingInStep

namespace ThriftIdl.Reader

variable {α β σ : Type}

/-- Two readers give related results. Where more text follows for the second one only, the first
may end where it cannot go on; where none does, the second fails with the first. -/
def Alike (closed : Prop) (D : Cursor → Prop) (r r' : Reader α) (c c' : Cursor)
    (Q : α → Cursor → α → Cursor → Prop) : Prop :=
  match r.run c with
  | .ok (a, d) => ¬ closed ∧ D d ∨ ∃ a' d', r'.run c' = .ok (a', d') ∧ Q a d a' d'
  | .error _ => closed → ∃ e, r'.run c' = .error e

/-- No point is beyond repair. -/
def Nowhere (_ : Cursor) : Prop := False

section Rules

variable {closed : Prop} {D D' : Cursor → Prop} {b c c' d d' : Cursor} {r r' : Reader α}
  {f f' : α → Reader β} {a a' : α} {Q Q' : α → Cursor → α → Cursor → Prop}
  {R : β → Cursor → β → Cursor → Prop} {W : α → Cursor → Prop}

theorem alike_of_ok (hr : r.run c = .ok (a, d)) (hr' : r'.run c' = .ok (a', d'))
    (h : Q a d a' d') : Alike closed D r r' c c' Q := by
  unfold Alike
  rw [hr]
  exact .inr ⟨a', d', hr', h⟩

theorem alike_of_cut (hr : r.run c = .ok (a, d)) (hopen : ¬ closed) (h : D d) :
    Alike closed D r r' c c' Q := by
  unfold Alike
  rw [hr]
  exact .inl ⟨hopen, h⟩

theorem alike_of_error {e : SyntaxError} (hr : r.run c = .error e)
    (h : closed → ∃ e, r'.run c' = .error e) : Alike closed D r r' c c' Q := by
  unfold Alike
  rw [hr]
  exact h

theorem Alike.of_ok (h : Alike closed D r r' c c' Q) (hr : r.run c = .ok (a, d)) :
    ¬ closed ∧ D d ∨ ∃ a' d', r'.run c' = .ok (a', d') ∧ Q a d a' d' := by
  unfold Alike at h
  rwa [hr] at h

theorem Alike.of_ok_nowhere (h : Alike closed Nowhere r r' c c' Q) (hr : r.run c = .ok (a, d)) :
    ∃ a' d', r'.run c' = .ok (a', d') ∧ Q a d a' d' :=
  (h.of_ok hr).resolve_left fun hcut => hcut.2

theorem Alike.of_error {e : SyntaxError} (h : Alike closed D r r' c c' Q)
    (hr : r.run c = .error e) : closed → ∃ e, r'.run c' = .error e := by
  unfold Alike at h
  rwa [hr] at h

theorem Alike.imp (h : Alike closed D r r' c c' Q)
    (hq : ∀ a d a' d', Q a d a' d' → Q' a d a' d') : Alike closed D r r' c c' Q' := by
  cases hr : r.run c with
  | error e => exact alike_of_error hr (h.of_error hr)
  | ok out =>
    obtain ⟨hopen, hcut⟩ | ⟨a', d', hr', hQ⟩ := h.of_ok hr
    · exact alike_of_cut hr hopen hcut
    · exact alike_of_ok hr hr' (hq _ _ _ _ hQ)

theorem Alike.ran (h : Alike closed D r r' c c' Q) :
    Alike closed D r r' c c' fun a d a' d' => Q a d a' d' ∧ r.run c = .ok (a, d) := by
  cases hr : r.run c with
  | error e => exact alike_of_error hr (h.of_error hr)
  | ok out =>
    obtain ⟨hopen, hcut⟩ | ⟨a', d', hr', hQ⟩ := h.of_ok hr
    · exact alike_of_cut hr hopen hcut
    · exact alike_of_ok hr hr' ⟨hQ, rfl⟩

/-- The first reader is known to go forward. -/
theorem Alike.walks (h : Alike closed D r r' c c' Q) (hw : Walks b r c W) :
    Alike closed D r r' c c' fun a d a' d' => Q a d a' d' ∧ c.Onward d ∧ W a d :=
  h.ran.imp fun _ _ _ _ ⟨hQ, hr⟩ => ⟨hQ, Ends.of_ok hw hr⟩

/-- Reading goes on from a point beyond repair to points of another kind. -/
theorem Alike.bind_cut (h : Alike closed D r r' c c' Q)
    (hD : ∀ a d, D d → Ends (f a) d (fun _ e => D' e) fun _ => True)
    (hf : ∀ a d a' d', Q a d a' d' → Alike closed D' (f a) (f' a') d d' R) :
    Alike closed D' (r >>= f) (r' >>= f') c c' R := by
  cases hr : r.run c with
  | error e =>
    refine alike_of_error (bind_run_of_error hr) fun hclosed => ?_
    obtain ⟨e', hr'⟩ := h.of_error hr hclosed
    exact ⟨e', bind_run_of_error hr'⟩
  | ok out =>
    obtain ⟨a, d⟩ := out
    have hrun := bind_run_of_ok (f := f) hr
    obtain ⟨hopen, hcut⟩ | ⟨a', d', hr', hQ⟩ := h.of_ok hr
    · cases hy : (f a).run d with
      | error e => exact alike_of_error (hrun.trans hy) fun hclosed => (hopen hclosed).elim
      | ok out => exact alike_of_cut (hrun.trans hy) hopen ((hD a d hcut).of_ok hy)
    · have hnext := hf a d a' d' hQ
      unfold Alike at hnext ⊢
      rwa [hrun, bind_run_of_ok hr']

theorem Alike.bind (h : Alike closed Nowhere r r' c c' Q)
    (hf : ∀ a d a' d', Q a d a' d' → Alike closed D (f a) (f' a') d d' R) :
    Alike closed D (r >>= f) (r' >>= f') c c' R :=
  h.bind_cut (fun _ _ hcut => hcut.elim) hf

theorem alike_pure (h : Q a c a' c') : Alike closed D (pure a) (pure a') c c' Q :=
  alike_of_ok rfl rfl h

theorem alike_fail (fault fault' : SyntaxFault) :
    Alike closed D (fail fault) (fail fault') c c' Q :=
  alike_of_error rfl fun _ => ⟨_, rfl⟩

theorem alike_failAt (place place' : Position) (fault fault' : SyntaxFault) :
    Alike closed D (failAt place fault) (failAt place' fault') c c' Q :=
  alike_of_error rfl fun _ => ⟨_, rfl⟩

theorem alike_get : Alike closed D get get c c' fun a d a' d' =>
    (a = c ∧ d = c) ∧ a' = c' ∧ d' = c' :=
  alike_of_ok rfl rfl ⟨⟨rfl, rfl⟩, rfl, rfl⟩

theorem alike_set : Alike closed D (set d : Reader PUnit) (set d' : Reader PUnit) c c'
    fun _ e _ e' => e = d ∧ e' = d' :=
  alike_of_ok rfl rfl ⟨rfl, rfl⟩

theorem alike_position : Alike closed D position position c c' fun p d p' d' =>
    (p = c.position ∧ d = c) ∧ p' = c'.position ∧ d' = c' :=
  alike_of_ok rfl rfl ⟨⟨rfl, rfl⟩, rfl, rfl⟩

theorem alike_rest : Alike closed D rest rest c c' fun x d x' d' =>
    (x = c.rest ∧ d = c) ∧ x' = c'.rest ∧ d' = c' :=
  alike_of_ok rfl rfl ⟨⟨rfl, rfl⟩, rfl, rfl⟩

theorem alike_next? : Alike closed D next? next? c c' fun next d next' d' =>
    (next = c.rest.head? ∧ d = c) ∧ next' = c'.rest.head? ∧ d' = c' :=
  alike_of_ok rfl rfl ⟨⟨rfl, rfl⟩, rfl, rfl⟩

theorem alike_advance : Alike closed D advance advance c c' fun _ d _ d' =>
    d = c.advance ∧ d' = c'.advance :=
  alike_of_ok rfl rfl ⟨rfl, rfl⟩

/-- Reading that repeats itself, by induction on what is left for the first reader. -/
theorem alike_fix {body body' : (σ → Reader α) → σ → Reader α}
    {T : σ → σ → Cursor → Cursor → Prop} {Q : σ → σ → Cursor → α → Cursor → α → Cursor → Prop}
    {s s' : σ}
    (hD : ∀ (again : σ → Reader α) s c, D c → Ends (body again s) c (fun _ e => D' e) fun _ => True)
    (h : ∀ (again again' : σ → Reader α) s s' c c',
      (∀ s d, D d → Ends (again s) d (fun _ e => D' e) fun _ => True) →
      (∀ s s' d d', d.rest.length < c.rest.length → d'.rest.length < c'.rest.length →
        T s s' d d' → Alike closed D' (again s) (again' s') d d' (Q s s' d)) →
      T s s' c c' → Alike closed D' (body again s) (body' again' s') c c' (Q s s' c))
    (hT : T s s' c c') : Alike closed D' (fix body s) (fix body' s') c c' (Q s s' c) := by
  have hcut (bound : Nat) (s : σ) (d : Cursor) (hd : D d) :
      Ends (guarded bound (fix body s)) d (fun _ e => D' e) fun _ => True := by
    change Gives (if _ then _ else _) _ _
    split
    · rw [fix_run]
      exact hD _ s d hd
    · trivial
  induction hn : c.rest.length using Nat.strongRecOn generalizing s s' c c' with
  | ind n ih =>
    subst hn
    have hagain (t t' : σ) (d d' : Cursor) (hlt : d.rest.length < c.rest.length)
        (hlt' : d'.rest.length < c'.rest.length) (hT' : T t t' d d') :
        Alike closed D' (guarded c.rest.length (fix body t))
          (guarded c'.rest.length (fix body' t')) d d' (Q t t' d) := by
      have hnext := ih _ hlt hT' rfl
      unfold Alike at hnext ⊢
      rwa [guarded_run_of_lt hlt, guarded_run_of_lt hlt']
    have hturn := h _ _ s s' c c' (hcut c.rest.length) hagain hT
    unfold Alike at hturn ⊢
    rwa [fix_run, fix_run]

end Rules

end ThriftIdl.Reader
