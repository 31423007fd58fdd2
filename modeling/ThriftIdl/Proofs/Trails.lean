import Mathlib.Data.List.Chain
import Mathlib.Data.List.Nodup
import ThriftIdl.Proofs.Runs
import ThriftIdl.Trail

namespace ThriftIdl.Trail

/-- A way back to its first place that passes none twice. -/
structure Circuit {α : Type} (R : α → α → Prop) (first : α) (places : List α) : Prop where
  nodup : places.Nodup
  starts : places.head? = some first
  chain : (places ++ [first]).IsChain R

section Circuits

variable {α β : Type} {f : α → Option β} {R : α → α → Prop} {S : β → β → Prop} {a : α}
  {places : List α}

theorem chain_filterMap
    (hstep : ∀ a a', R a a' → ∃ b b', f a = some b ∧ f a' = some b' ∧ S b b')
    (h : places.IsChain R) : (places.filterMap f).IsChain S := by
  induction places with
  | nil => exact .nil
  | cons a places ih =>
    cases places with
    | nil => cases hf : f a <;> simp [hf]
    | cons a' places =>
      obtain ⟨haa', h⟩ := List.isChain_cons_cons.1 h
      obtain ⟨b, b', hb, hb', hs⟩ := hstep a a' haa'
      have hrest := ih h
      rw [List.filterMap_cons_some hb'] at hrest
      rw [List.filterMap_cons_some hb, List.filterMap_cons_some hb']
      exact List.isChain_cons_cons.2 ⟨hs, hrest⟩

theorem Circuit.leaves (h : Circuit R a places) : ∃ a', R a a' := by
  have hchain := h.chain
  obtain ⟨rest, rfl⟩ := List.head?_eq_some_iff.1 h.starts
  cases rest with
  | nil => exact ⟨a, (List.isChain_cons_cons.1 hchain).1⟩
  | cons a' rest => exact ⟨a', (List.isChain_cons_cons.1 hchain).1⟩

theorem Circuit.filterMap (h : Circuit R a places)
    (hinj : ∀ a a' b, b ∈ f a → b ∈ f a' → a = a')
    (hstep : ∀ a a', R a a' → ∃ b b', f a = some b ∧ f a' = some b' ∧ S b b') :
    ∃ b, f a = some b ∧ Circuit S b (places.filterMap f) := by
  obtain ⟨a', haa'⟩ := h.leaves
  obtain ⟨b, -, hb, -⟩ := hstep a a' haa'
  refine ⟨b, hb, h.nodup.filterMap hinj, ?_, ?_⟩
  · obtain ⟨rest, rfl⟩ := List.head?_eq_some_iff.1 h.starts
    rw [List.filterMap_cons_some hb, List.head?_cons]
  · have hchain := chain_filterMap hstep h.chain
    rwa [List.filterMap_append, List.filterMap_cons_some hb, List.filterMap_nil] at hchain

end Circuits

open Relation (ReflTransGen TransGen)

variable {next : Nat → Option Nat} {count steps first current place i j : Nat}
  {visited : List Nat} {t : Trail}

def Leads (next : Nat → Option Nat) (i j : Nat) : Prop := next i = some j

section Chains

theorem succ_mem_of_chain (h : visited.IsChain (Leads next)) (hi : i ∈ visited)
    (hij : Leads next i j) : visited.getLast? = some i ∨ j ∈ visited := by
  induction visited with
  | nil => simp at hi
  | cons a rest ih =>
    cases rest with
    | nil =>
      left
      simpa using (List.mem_singleton.1 hi).symm
    | cons b rest =>
      obtain ⟨hab, h⟩ := List.isChain_cons_cons.1 h
      rw [List.getLast?_cons_cons]
      rcases List.mem_cons.1 hi with rfl | hi
      · obtain rfl : b = j := Option.some.inj (hab.symm.trans hij)
        exact .inr (by simp)
      · exact (ih h hi).imp_right (List.mem_cons_of_mem _)

theorem reaches_of_chain (h : visited.IsChain (Leads next)) (hhead : visited.head? = some i)
    (hj : j ∈ visited) : ReflTransGen (Leads next) i j := by
  apply h.induction (ReflTransGen (Leads next) i)
  · intro j k hjk hj
    exact hj.tail hjk
  · intro hne
    rw [List.head?_eq_some_head hne] at hhead
    rw [Option.some.inj hhead]
  · exact hj

/-- From a ring there is no way out. -/
theorem mem_of_ring (h : visited.IsChain (Leads next)) (hlast : visited.getLast?.bind next = some place)
    (hplace : place ∈ visited) (hi : i ∈ visited) (hij : ReflTransGen (Leads next) i j) :
    j ∈ visited := by
  induction hij with
  | refl => exact hi
  | @tail j k _ hjk ih =>
    rcases succ_mem_of_chain h ih hjk with he | hm
    · rw [he] at hlast
      obtain rfl : k = place := Option.some.inj (hjk.symm.trans hlast)
      exact hplace
    · exact hm

theorem leads_back (hcycle : TransGen (Leads next) i i) (hij : ReflTransGen (Leads next) i j) :
    TransGen (Leads next) j i := by
  induction hij with
  | refl => exact hcycle
  | @tail j k _ hjk ih =>
    obtain ⟨l, hjl, hback⟩ := TransGen.head'_iff.1 ih
    obtain rfl : l = k := Option.some.inj (hjl.symm.trans hjk)
    rcases Relation.reflTransGen_iff_eq_or_transGen.1 hback with rfl | hback
    · exact hcycle
    · exact hback

end Chains

/-- A trail that goes on until it ends or comes back. -/
structure Walked (next : Nat → Option Nat) (first : Nat) (t : Trail) : Prop where
  nodup : t.visited.Nodup
  chain : t.visited.IsChain (Leads next)
  first : t.visited.head? = some first
  last : t.visited.getLast?.bind next = t.reentry
  returns : ∀ place, t.reentry = some place → place ∈ t.visited

theorem extend_walked (hclosed : ∀ i j, Leads next i j → j < count) (hnd : visited.Nodup)
    (hchain : visited.IsChain (Leads next)) (hvalid : ∀ i ∈ visited, i < count)
    (hfirst : visited.head? = some first) (hlast : visited.getLast? = some current)
    (hsteps : count < steps + visited.length) :
    Walked next first (extend next steps visited current) := by
  induction steps generalizing visited current with
  | zero =>
    -- The steps are never used up, because the places visited differ.
    have hle := length_le_of_valid hnd hvalid
    omega
  | succ steps ih =>
    rw [extend]
    cases hn : next current with
    | none => exact ⟨hnd, hchain, hfirst, by rw [hlast]; exact hn, by simp⟩
    | some place =>
      by_cases hm : place ∈ visited
      · simp only [hm, if_true]
        refine ⟨hnd, hchain, hfirst, by rw [hlast]; exact hn, ?_⟩
        intro place' he
        obtain rfl := Option.some.inj he
        exact hm
      · simp only [hm, if_false]
        apply ih
        · exact List.nodup_append.2 ⟨hnd, List.nodup_singleton _, by grind⟩
        · refine List.isChain_append.2 ⟨hchain, List.isChain_singleton _, ?_⟩
          intro i hi j hj
          obtain rfl : current = i := by simpa [hlast] using hi
          obtain rfl : place = j := by simpa using hj
          exact hn
        · intro i hi
          rcases List.mem_append.1 hi with hi | hi
          · exact hvalid i hi
          · obtain rfl := List.mem_singleton.1 hi
            exact hclosed current i hn
        · rw [List.head?_append, hfirst]
          rfl
        · simp
        · rw [List.length_append, List.length_singleton]
          omega

theorem start_walked (hclosed : ∀ i j, Leads next i j → j < count) (hfirst : first < count) :
    Walked next first (start next count first) := by
  apply extend_walked hclosed (List.nodup_singleton _) (List.isChain_singleton _)
  · simpa using hfirst
  · rfl
  · rfl
  · rw [List.length_singleton]
    omega

namespace Walked

theorem last_mem (h : Walked next first t) : ∃ last, t.visited.getLast? = some last ∧
    ReflTransGen (Leads next) first last ∧ next last = t.reentry := by
  cases hl : t.visited.getLast? with
  | none =>
    have hf := h.first
    simp [List.getLast?_eq_none_iff.1 hl] at hf
  | some last =>
    refine ⟨last, rfl, reaches_of_chain h.chain h.first (List.mem_of_getLast? hl), ?_⟩
    rw [← h.last, hl]
    rfl

/-- A trail comes back to a place that lies on a cycle, which it passes once. -/
theorem splits (h : Walked next first t) (hr : t.reentry = some place) :
    ∃ before cycle, t.visited = before ++ place :: cycle ∧ (place :: cycle).IsChain (Leads next) ∧
      (place :: cycle).getLast?.bind next = some place := by
  obtain ⟨before, cycle, he, -⟩ := List.eq_append_cons_of_mem (h.returns place hr)
  have hchain := h.chain
  have hlast := h.last
  rw [he] at hchain
  rw [he, List.getLast?_append_cons, hr] at hlast
  exact ⟨before, cycle, he, hchain.right_of_append, hlast⟩

theorem circuit (h : Walked next first t) (hr : t.reentry = some place) :
    ∃ places, t.cycle? = some (places ++ [place]) ∧ Circuit (Leads next) place places := by
  obtain ⟨before, cycle, he, hchain, hlast⟩ := h.splits hr
  have hnd := h.nodup
  rw [he] at hnd
  obtain ⟨-, hnd, hapart⟩ := List.nodup_append.1 hnd
  refine ⟨place :: cycle, ?_, hnd, rfl, ?_⟩
  · unfold cycle?
    rw [hr, he, Option.map_some, List.dropWhile_append_of_pos]
    · simp
    · intro i hi
      simpa using hapart i hi place List.mem_cons_self
  · refine List.isChain_append.2 ⟨hchain, List.isChain_singleton _, ?_⟩
    intro last hl j hj
    obtain rfl : place = j := by simpa using hj
    obtain ⟨last', hl', hn⟩ := Option.bind_eq_some_iff.1 hlast
    obtain rfl : last' = last := Option.some.inj (hl'.symm.trans hl)
    exact hn

theorem returns_cycle (h : Walked next first t) (hr : t.reentry = some place) :
    TransGen (Leads next) place place := by
  obtain ⟨before, cycle, -, hchain, hlast⟩ := h.splits hr
  obtain ⟨last, hl, hn⟩ := Option.bind_eq_some_iff.1 hlast
  exact .tail' (reaches_of_chain hchain rfl (List.mem_of_getLast? hl)) hn

theorem returns_first_iff (h : Walked next first t) :
    t.reentry = some first ↔ TransGen (Leads next) first first := by
  constructor
  · exact h.returns_cycle
  · intro hcycle
    obtain ⟨last, -, hreach, hn⟩ := h.last_mem
    obtain ⟨place, hplace, hback⟩ := TransGen.head'_iff.1 (leads_back hcycle hreach)
    rw [← hn, show next last = some place from hplace]
    have hr : t.reentry = some place := hn.symm.trans hplace
    obtain ⟨before, cycle, he, hchain, hlast⟩ := h.splits hr
    have hm : first ∈ place :: cycle :=
      mem_of_ring hchain hlast List.mem_cons_self List.mem_cons_self hback
    cases before with
    | nil =>
      have hf := h.first
      rw [he] at hf
      simpa using hf
    | cons a before =>
      have hf := h.first
      have hnd := h.nodup
      rw [he] at hf hnd
      obtain rfl : a = first := by simpa using hf
      exact absurd (List.mem_append_right _ hm) (List.nodup_cons.1 hnd).1

theorem ends (h : Walked next first t) (hacyclic : ∀ i, ¬ TransGen (Leads next) i i) :
    ∃ last, ReflTransGen (Leads next) first last ∧ next last = none := by
  obtain ⟨last, -, hreach, hn⟩ := h.last_mem
  refine ⟨last, hreach, ?_⟩
  rw [hn]
  cases hr : t.reentry with
  | none => rfl
  | some place => exact absurd (h.returns_cycle hr) (hacyclic place)

end Walked

end ThriftIdl.Trail
