import Mathlib.Data.List.Forall2
import Mathlib.Data.List.Nodup
import Mathlib.Data.List.Perm.Subperm

namespace ThriftIdl

variable {ε σ α β : Type}

def exec (x : ExceptT ε (StateM σ) α) (s : σ) : Except ε α × σ := x.run s

variable {x : ExceptT ε (StateM σ) α} {f : α → ExceptT ε (StateM σ) β} {s s' s'' : σ}
  {a a' : α} {b : β} {e : ε}

theorem exec_bind (x : ExceptT ε (StateM σ) α) (f : α → ExceptT ε (StateM σ) β) (s : σ) :
    exec (x >>= f) s =
      match exec x s with
      | (.ok a, s') => exec (f a) s'
      | (.error e, s') => (.error e, s') := by
  change (match exec x s with | (r, t) => ExceptT.bindCont f r t) = _
  rcases exec x s with ⟨_ | _, _⟩ <;> rfl

@[simp] theorem exec_pure (a : α) (s : σ) :
    exec (pure a : ExceptT ε (StateM σ) α) s = (.ok a, s) := rfl

@[simp] theorem exec_get (s : σ) : exec (get : ExceptT ε (StateM σ) σ) s = (.ok s, s) := rfl

@[simp] theorem exec_modify (f : σ → σ) (s : σ) :
    exec (modify f : ExceptT ε (StateM σ) PUnit) s = (.ok ⟨⟩, f s) := rfl

@[simp] theorem exec_throw (e : ε) (s : σ) :
    exec (throw e : ExceptT ε (StateM σ) α) s = (.error e, s) := rfl

theorem exec_bind_of_ok (h : exec x s = (.ok a, s')) : exec (x >>= f) s = exec (f a) s' := by
  rw [exec_bind, h]

theorem exec_bind_of_error (h : exec x s = (.error e, s')) :
    exec (x >>= f) s = (.error e, s') := by
  rw [exec_bind, h]

theorem exec_bind_ok_iff : exec (x >>= f) s = (.ok b, s'') ↔
    ∃ a s', exec x s = (.ok a, s') ∧ exec (f a) s' = (.ok b, s'') := by
  rw [exec_bind]
  rcases exec x s with ⟨e | a, t⟩
  · simp
  · constructor
    · intro h
      exact ⟨a, t, rfl, h⟩
    · rintro ⟨_, _, hx, h⟩
      obtain ⟨rfl, rfl⟩ : a = _ ∧ t = _ := by simpa using hx
      exact h

theorem exec_pure_ok_iff :
    exec (pure a : ExceptT ε (StateM σ) α) s = (.ok a', s') ↔ a = a' ∧ s = s' := by
  simp

section Except

/-- A result has one property, or an error has another. -/
def Gives (r : Except ε α) (P : α → Prop) (Q : ε → Prop) : Prop :=
  match r with
  | .ok a => P a
  | .error e => Q e

namespace Gives

variable {P : α → Prop} {P' : β → Prop} {Q : ε → Prop} {r : Except ε α} {a : α} {e : ε}

theorem imp {P' : α → Prop} {Q' : ε → Prop} (h : Gives r P Q) (hp : ∀ a, P a → P' a)
    (hq : ∀ e, Q e → Q' e) : Gives r P' Q' := by
  cases r with
  | ok a => exact hp a h
  | error e => exact hq e h

theorem weaken (h : Gives r P Q) : Gives r P fun _ => True :=
  h.imp (fun _ hp => hp) fun _ _ => trivial

theorem bind {f : α → Except ε β} (h : Gives r P Q) (hf : ∀ a, P a → Gives (f a) P' Q) :
    Gives (r >>= f) P' Q := by
  cases r with
  | ok a => exact hf a h
  | error e => exact h

theorem of_ok (h : Gives r P Q) (hr : r = .ok a) : P a := by
  rw [hr] at h
  exact h

theorem of_error (h : Gives r P Q) (hr : r = .error e) : Q e := by
  rw [hr] at h
  exact h

theorem mapError {δ : Type} {x : Except δ α} {g : δ → ε}
    (h : ∀ fault, x = .error fault → Q (g fault)) :
    Gives (x.mapError g) (fun a => x = .ok a) Q := by
  cases x with
  | ok a => rfl
  | error fault => exact h fault rfl

theorem foldlM {γ : Type} {f : γ → α → Except ε γ} {xs : List α} {c : γ} (P : List α → γ → Prop)
    (h : P [] c) (step : ∀ seen x c, x ∈ xs → P seen c → Gives (f c x) (P (seen ++ [x])) Q) :
    Gives (xs.foldlM f c) (P xs) Q := by
  have hrun : ∀ todo seen c, (∀ x ∈ todo, x ∈ xs) → P seen c →
      Gives (todo.foldlM f c) (P (seen ++ todo)) Q := by
    intro todo
    induction todo with
    | nil =>
      intro seen c _ hc
      rw [List.append_nil]
      exact hc
    | cons x todo ih =>
      intro seen c hsub hc
      rw [List.foldlM_cons]
      apply bind (step seen x c (hsub x List.mem_cons_self) hc)
      intro c' hc'
      have happ : seen ++ x :: todo = seen ++ [x] ++ todo := by simp
      rw [happ]
      exact ih (seen ++ [x]) c' (fun y hy => hsub y (List.mem_cons_of_mem _ hy)) hc'
  exact hrun xs [] c (fun _ hx => hx) h

end Gives

end Except

section Aligned

variable {R : α → β → Prop} {xs : List α} {ys : List β}

theorem forall₂_mem_left (h : List.Forall₂ R xs ys) {x : α} (hx : x ∈ xs) :
    ∃ y, (x, y) ∈ xs.zip ys ∧ R x y := by
  induction h with
  | nil => simp at hx
  | cons hxy _ ih =>
    rcases List.mem_cons.1 hx with rfl | hx
    · exact ⟨_, List.mem_cons_self, hxy⟩
    · obtain ⟨y, hy, hxy⟩ := ih hx
      exact ⟨y, List.mem_cons_of_mem _ hy, hxy⟩

theorem forall₂_mem_right (h : List.Forall₂ R xs ys) {y : β} (hy : y ∈ ys) : ∃ x ∈ xs, R x y := by
  obtain ⟨x, hx, hxy⟩ := forall₂_mem_left h.flip hy
  exact ⟨x, (List.of_mem_zip hx).2, hxy⟩

theorem forall₂_and {S : α → β → Prop} (h : List.Forall₂ R xs ys) (h' : List.Forall₂ S xs ys) :
    List.Forall₂ (fun x y => R x y ∧ S x y) xs ys := by
  induction h with
  | nil => exact .nil
  | cons hxy _ ih =>
    cases h' with
    | cons hxy' hrest => exact .cons ⟨hxy, hxy'⟩ (ih hrest)

theorem forall₂_with_mem (h : List.Forall₂ R xs ys) :
    List.Forall₂ (fun x y => x ∈ xs ∧ y ∈ ys ∧ R x y) xs ys := by
  rw [List.forall₂_iff_zip] at h ⊢
  refine ⟨h.1, fun hm => ?_⟩
  obtain ⟨hx, hy⟩ := List.of_mem_zip hm
  exact ⟨hx, hy, h.2 hm⟩

theorem map_eq_map_of_forall₂ {γ : Type} {f : α → γ} {g : β → γ}
    (h : List.Forall₂ (fun x y => f x = g y) xs ys) : xs.map f = ys.map g := by
  induction h with
  | nil => rfl
  | cons hxy _ ih => rw [List.map_cons, List.map_cons, hxy, ih]

end Aligned

section Places

/-- Different places below a bound are no more than the bound. -/
theorem length_le_of_valid {places : List Nat} {count : Nat} (hnd : places.Nodup)
    (hvalid : ∀ i ∈ places, i < count) : places.length ≤ count := by
  have hsub : places ⊆ List.range count := by
    intro i hi
    exact List.mem_range.2 (hvalid i hi)
  have hle := List.Nodup.length_le_of_subset hnd hsub
  rwa [List.length_range] at hle

end Places

end ThriftIdl
