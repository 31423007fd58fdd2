import Mathlib.Data.List.Nodup
import ThriftIdl.Proofs.ReadingInStep
import ThriftIdl.Reader.Block

namespace ThriftIdl

theorem Numeral.le_of_fitsInt32 {number : Int} (h : fitsInt32 number = true) :
    number ≤ maxInt32 := by
  simp only [fitsInt32, Bool.and_eq_true, decide_eq_true_eq] at h
  exact h.2

theorem Numeral.fitsInt32_of_nonneg {number : Int} (hnonneg : 0 ≤ number)
    (h : number ≤ maxInt32) : fitsInt32 number = true := by
  have hmin : minInt32 ≤ 0 := by decide
  simp only [fitsInt32, Bool.and_eq_true, decide_eq_true_eq]
  exact ⟨Int.le_trans hmin hnonneg, h⟩

namespace Numbering

/-- One more than all numbers before, and no less than the first one. -/
def following (first : Int) (before : List Int) : Int := before.foldl max (first - 1) + 1

/-- The numbers of items that come after others: as they are written, or else the following ones. -/
def numbersAfter (first : Int) : List Int → List (Option Int) → List Int
  | _, [] => []
  | before, written :: more =>
    let number := written.getD (following first before)
    number :: numbersAfter first (before ++ [number]) more

/-- Why an item has no number after others: the one that is written is taken, or none is left. -/
inductive Clash (before : List Int) : Option Int → Fault → Prop
  | repeated {number : Int} (taken : number ∈ before) :
      Clash before (some number) (.repeated number)
  | outOfRange (last : Numeral.maxInt32 ∈ before) : Clash before none .outOfRange

def ClashesAt (first : Int) (before : List Int) (written : List (Option Int)) (i : Nat)
    (fault : Fault) : Prop :=
  ∃ w, written[i]? = some w ∧
    Clash (before ++ (numbersAfter first before written).take i) w fault

/-- The counter is just past everything that was given out. -/
structure Counts (first : Int) (before : List Int) (n : Numbering) : Prop where
  next : n.next = following first before
  used : ∀ number, number ∈ n.used ↔ number ∈ before
  fits : ∀ number ∈ before, number ≤ Numeral.maxInt32

section Counting

variable {first number : Int} {before : List Int} {written : Option Int}
  {more : List (Option Int)} {n : Numbering} {fault : Fault} {i : Nat}

theorem foldl_max_le_iff {xs : List Int} {start bound : Int} :
    xs.foldl max start ≤ bound ↔ start ≤ bound ∧ ∀ x ∈ xs, x ≤ bound := by
  induction xs generalizing start with
  | nil => simp
  | cons x xs ih => simp only [List.foldl_cons, ih, Int.max_le, List.forall_mem_cons, and_assoc]

theorem following_le_iff {bound : Int} :
    following first before ≤ bound ↔ first ≤ bound ∧ ∀ x ∈ before, x < bound := by
  have hshift : following first before ≤ bound ↔ before.foldl max (first - 1) ≤ bound - 1 := by
    unfold following
    omega
  rw [hshift, foldl_max_le_iff]
  simp only [Int.le_sub_one_iff]
  constructor
  · rintro ⟨h, hall⟩
    exact ⟨by omega, hall⟩
  · rintro ⟨h, hall⟩
    exact ⟨by omega, hall⟩

theorem lt_following (h : number ∈ before) : number < following first before :=
  (following_le_iff.1 (Int.le_refl _)).2 number h

theorem first_le_following : first ≤ following first before :=
  (following_le_iff.1 (Int.le_refl _)).1

theorem following_snoc : following first (before ++ [number]) =
    max (following first before) (number + 1) := by
  unfold following
  rw [List.foldl_append, List.foldl_cons, List.foldl_nil]
  omega

theorem following_eq_foldl (first : Int) (before : List Int) :
    following first before = (before.map (· + 1)).foldl max first := by
  have hshift (start : Int) : before.foldl max start + 1 =
      (before.map (· + 1)).foldl max (start + 1) := by
    induction before generalizing start with
    | nil => rfl
    | cons x before ih =>
      have hmax : max start x + 1 = max (start + 1) (x + 1) := by omega
      rw [List.foldl_cons, ih, hmax, List.map_cons, List.foldl_cons]
  rw [following, hshift, Int.sub_add_cancel]

theorem following_le_max (hfirst : first ≤ Numeral.maxInt32)
    (hfits : ∀ x ∈ before, x ≤ Numeral.maxInt32) :
    following first before ≤ Numeral.maxInt32 ↔ Numeral.maxInt32 ∉ before := by
  rw [following_le_iff]
  constructor
  · rintro ⟨-, hall⟩ hmem
    exact Int.lt_irrefl _ (hall _ hmem)
  · intro hmem
    refine ⟨hfirst, fun x hx => Int.lt_iff_le_and_ne.2 ⟨hfits x hx, ?_⟩⟩
    rintro rfl
    exact hmem hx

theorem clashesAt_zero : ClashesAt first before (written :: more) 0 fault ↔
    Clash before written fault := by
  simp [ClashesAt]

theorem clashesAt_succ : ClashesAt first before (written :: more) (i + 1) fault ↔
    ClashesAt first (before ++ [written.getD (following first before)]) more i fault := by
  simp [ClashesAt, numbersAfter]

theorem ClashesAt.unique {written : List (Option Int)} {fault' : Fault}
    (h : ClashesAt first before written i fault) (h' : ClashesAt first before written i fault') :
    fault' = fault := by
  obtain ⟨w, hw, hc⟩ := h
  obtain ⟨w', hw', hc'⟩ := h'
  obtain rfl := Option.some.inj (hw.symm.trans hw')
  cases hc with
  | repeated => cases hc' with | repeated => rfl
  | outOfRange => cases hc' with | outOfRange => rfl

theorem counts_startingAt (first : Int) : Counts first [] (startingAt first) :=
  ⟨by simp [startingAt, following], by simp [startingAt], by simp⟩

theorem Counts.snoc (h : Counts first before n) (hnumber : number ≤ Numeral.maxInt32) :
    Counts first (before ++ [number]) ⟨max n.next (number + 1), number :: n.used⟩ := by
  refine ⟨by rw [following_snoc, h.next], fun x => ?_, fun x hx => ?_⟩
  · rw [List.mem_cons, List.mem_append, List.mem_singleton, h.used, or_comm]
  · rcases List.mem_append.1 hx with hx | hx
    · exact h.fits x hx
    · rwa [List.mem_singleton.1 hx]

/-- The counter itself is never among the numbers that were given out. -/
theorem Counts.next_unused (h : Counts first before n) : n.next ∉ n.used := by
  rw [h.used, h.next]
  exact fun hmem => Int.lt_irrefl _ (lt_following hmem)

theorem Counts.assign_none (h : Counts first before n) (hfirst : first ≤ Numeral.maxInt32) :
    Gives (n.assign none) (fun out => Numeral.maxInt32 ∉ before ∧ out.1 = following first before ∧
      Counts first (before ++ [out.1]) out.2)
      fun fault => Numeral.maxInt32 ∈ before ∧ fault = .outOfRange := by
  have hmax := following_le_max hfirst h.fits
  simp only [assign, Option.getD_none, give, if_neg h.next_unused]
  rw [h.next]
  split
  · next hout =>
    exact ⟨by_contra fun hmem => absurd (hmax.2 hmem) (Int.not_le.2 hout), rfl⟩
  · next hin =>
    have hsnoc := h.snoc (Int.not_lt.1 hin)
    rw [h.next] at hsnoc
    exact ⟨hmax.1 (Int.not_lt.1 hin), rfl, hsnoc⟩

theorem Counts.assign_some (h : Counts first before n) (hnumber : number ≤ Numeral.maxInt32) :
    Gives (n.assign (some number)) (fun out => number ∉ before ∧ out.1 = number ∧
      Counts first (before ++ [out.1]) out.2)
      fun fault => number ∈ before ∧ fault = .repeated number := by
  simp only [assign, Option.getD_some, give, if_neg (Int.not_lt.2 hnumber), h.used]
  split
  · next hmem => exact ⟨hmem, rfl⟩
  · next hmem => exact ⟨hmem, rfl, h.snoc hnumber⟩

theorem Counts.assign (h : Counts first before n) (hfirst : first ≤ Numeral.maxInt32)
    (hwritten : ∀ number ∈ written, number ≤ Numeral.maxInt32) :
    Gives (n.assign written) (fun out => (∀ fault, ¬ Clash before written fault) ∧
      out.1 = written.getD (following first before) ∧ Counts first (before ++ [out.1]) out.2)
      (Clash before written) := by
  cases written with
  | none =>
    refine (h.assign_none hfirst).imp ?_ ?_
    · rintro out ⟨hlast, hout⟩
      refine ⟨?_, hout⟩
      rintro _ ⟨⟩
      contradiction
    · rintro _ ⟨hlast, rfl⟩
      exact .outOfRange hlast
  | some number =>
    refine (h.assign_some (hwritten number rfl)).imp ?_ ?_
    · rintro out ⟨htaken, hout⟩
      refine ⟨?_, hout⟩
      rintro _ ⟨⟩
      contradiction
    · rintro _ ⟨htaken, rfl⟩
      exact .repeated htaken

theorem getD_of_no_clash (hfirst : first ≤ Numeral.maxInt32)
    (hfits : ∀ x ∈ before, x ≤ Numeral.maxInt32)
    (hwritten : ∀ number ∈ written, number ≤ Numeral.maxInt32)
    (h : ∀ fault, ¬ Clash before written fault) :
    written.getD (following first before) ∉ before ∧
      written.getD (following first before) ≤ Numeral.maxInt32 := by
  cases written with
  | none =>
    exact ⟨fun hmem => Int.lt_irrefl _ (lt_following hmem),
      (following_le_max hfirst hfits).2 fun hlast => h _ (.outOfRange hlast)⟩
  | some number => exact ⟨fun htaken => h _ (.repeated htaken), hwritten number rfl⟩

theorem length_numbersAfter (first : Int) (before : List Int) (written : List (Option Int)) :
    (numbersAfter first before written).length = written.length := by
  induction written generalizing before with
  | nil => rfl
  | cons w written ih => simp [numbersAfter, ih]

theorem getElem?_numbersAfter (first : Int) (before : List Int) (written : List (Option Int))
    (i : Nat) : (numbersAfter first before written)[i]? = written[i]?.map
      (·.getD (following first (before ++ (numbersAfter first before written).take i))) := by
  induction written generalizing before i with
  | nil => rfl
  | cons w written ih =>
    cases i with
    | zero => simp [numbersAfter]
    | succ i => simp [numbersAfter, ih]

/-- An item without a number comes after the last one exactly if it would need a greater one. -/
theorem last_mem_iff {written : List (Option Int)} (hfirst : first ≤ Numeral.maxInt32)
    (hwritten : ∀ w ∈ written, ∀ number ∈ w, number ≤ Numeral.maxInt32) (i : Nat) :
    Numeral.maxInt32 ∈ (numbersAfter first [] written).take i ↔
      Numeral.maxInt32 < following first ((numbersAfter first [] written).take i) := by
  have hfits (hlast : Numeral.maxInt32 ∉ (numbersAfter first [] written).take i) :
      ∀ x ∈ (numbersAfter first [] written).take i, x ≤ Numeral.maxInt32 := by
    induction i with
    | zero => simp
    | succ i ih =>
      rw [List.take_add_one, List.mem_append, not_or] at hlast
      intro x hx
      rw [List.take_add_one, List.mem_append] at hx
      rcases hx with hx | hx
      · exact ih hlast.1 x hx
      · rw [Option.mem_toList, getElem?_numbersAfter] at hx
        obtain ⟨w, hw, rfl⟩ := Option.map_eq_some_iff.1 hx
        cases w with
        | none => exact (following_le_max hfirst (ih hlast.1)).2 hlast.1
        | some number => exact hwritten _ (List.mem_of_getElem? hw) number rfl
  constructor
  · exact lt_following
  · intro hlt
    by_contra hlast
    exact Int.not_lt.2 ((following_le_max hfirst (hfits hlast)).2 hlast) hlt

/-- Without a clash all numbers are different, and none is too great. -/
theorem numbers_apart {written : List (Option Int)} (hfirst : first ≤ Numeral.maxInt32)
    (hwritten : ∀ w ∈ written, ∀ number ∈ w, number ≤ Numeral.maxInt32)
    (h : ∀ i fault, ¬ ClashesAt first before written i fault) (hbefore : before.Nodup)
    (hfits : ∀ x ∈ before, x ≤ Numeral.maxInt32) :
    (before ++ numbersAfter first before written).Nodup ∧
      ∀ x ∈ before ++ numbersAfter first before written, x ≤ Numeral.maxInt32 := by
  induction written generalizing before with
  | nil => simpa [numbersAfter] using ⟨hbefore, hfits⟩
  | cons w written ih =>
    have hhead := getD_of_no_clash hfirst hfits (hwritten w List.mem_cons_self)
      fun fault hc => h 0 fault (clashesAt_zero.2 hc)
    have hnodup : (before ++ [w.getD (following first before)]).Nodup := by
      simpa using hbefore.concat hhead.1
    have hnext := ih (fun w hw => hwritten w (List.mem_cons_of_mem _ hw))
      (fun i fault hc => h (i + 1) fault (clashesAt_succ.2 hc)) hnodup
      (fun x hx => by
        rcases List.mem_append.1 hx with hx | hx
        · exact hfits x hx
        · exact (List.mem_singleton.1 hx) ▸ hhead.2)
    rwa [List.append_assoc] at hnext

/-- What holds of the numbers that are written, and from the first one on, holds of all. -/
theorem numbers_within {P : Int → Prop} {written : List (Option Int)}
    (hfirst : first ≤ Numeral.maxInt32) (hle : ∀ x, P x → x ≤ Numeral.maxInt32)
    (hfrom : ∀ x, first ≤ x → x ≤ Numeral.maxInt32 → P x)
    (hwritten : ∀ w ∈ written, ∀ number ∈ w, P number)
    (h : ∀ i fault, ¬ ClashesAt first [] written i fault) :
    (numbersAfter first [] written).Nodup ∧ ∀ x ∈ numbersAfter first [] written, P x := by
  have hmax : ∀ w ∈ written, ∀ number ∈ w, number ≤ Numeral.maxInt32 :=
    fun w hw number hnumber => hle number (hwritten w hw number hnumber)
  obtain ⟨hnodup, hfits⟩ := numbers_apart hfirst hmax h List.nodup_nil (by simp)
  refine ⟨hnodup, fun x hx => ?_⟩
  obtain ⟨i, hi⟩ := List.getElem?_of_mem hx
  rw [getElem?_numbersAfter] at hi
  obtain ⟨w, hw, rfl⟩ := Option.map_eq_some_iff.1 hi
  cases w with
  | none => exact hfrom _ first_le_following (hfits _ hx)
  | some number => exact hwritten _ (List.mem_of_getElem? hw) number rfl

end Counting

/-- Numbers for several items, one after another. -/
def assignAll (n : Numbering) (written : List (Option Int)) : Except Fault Numbering :=
  written.foldlM (fun n w => (n.assign w).map Prod.snd) n

theorem assignAll_counts {first : Int} {written : List (Option Int)} {n : Numbering}
    (hfirst : first ≤ Numeral.maxInt32) (h : (startingAt first).assignAll written = .ok n) :
    ∃ before, Counts first before n := by
  have hrun : Gives ((startingAt first).assignAll written)
      (fun n => ∃ before, Counts first before n) fun _ => True := by
    refine Gives.foldlM (fun _ n => ∃ before, Counts first before n)
      ⟨[], counts_startingAt first⟩ ?_
    rintro _ w n - ⟨before, hn⟩
    by_cases hw : ∀ number ∈ w, number ≤ Numeral.maxInt32
    · have hassign := hn.assign hfirst hw
      cases hres : n.assign w with
      | ok out => exact ⟨_, (hassign.of_ok hres).2.2⟩
      | error fault => trivial
    · obtain ⟨number, hnumber⟩ := not_forall.1 hw
      obtain ⟨rfl, hgreat⟩ := Classical.not_imp.1 hnumber
      simp [assign, give, Int.not_le.1 hgreat, Except.map, Gives]
  exact hrun.of_ok h

/-- An item without a number is never told that its number is taken. -/
theorem assign_none_ne_repeated {first : Int} {written : List (Option Int)} {n : Numbering}
    (hfirst : first ≤ Numeral.maxInt32) (h : (startingAt first).assignAll written = .ok n)
    (number : Int) : n.assign none ≠ .error (.repeated number) := by
  intro hc
  obtain ⟨before, hcounts⟩ := assignAll_counts hfirst h
  obtain ⟨-, hfault⟩ := (hcounts.assign_none hfirst).of_error hc
  cases hfault

/-- How items are numbered once they have been read. -/
structure Scheme (α : Type) where
  first : Int
  written : α → Option Int
  number : Int → α → α
  place : α → Position
  fault : Fault → SyntaxFault

namespace Scheme

variable {α : Type} (k : Scheme α)

def read (plain : String → Reader α) (doc : String) (n : Numbering) : Reader (α × Numbering) := do
  let item ← plain doc
  match n.assign (k.written item) with
  | .ok (number, n) => return (k.number number item, n)
  | .error fault => Reader.failAt (k.place item) (k.fault fault)

def numberAll : Numbering → List α → Except SyntaxError (List α)
  | _, [] => .ok []
  | n, item :: items =>
    match n.assign (k.written item) with
    | .ok (number, n) => (numberAll n items).map (k.number number item :: ·)
    | .error fault => .error ⟨k.place item, k.fault fault⟩

theorem numberAll_cons_ok {n n' : Numbering} {item : α} {number : Int} (items : List α)
    (h : n.assign (k.written item) = .ok (number, n')) :
    k.numberAll n (item :: items) =
      (k.numberAll n' items).map (k.number number item :: ·) := by
  rw [numberAll, h]

theorem numberAll_cons_error {n : Numbering} {item : α} {fault : Fault} (items : List α)
    (h : n.assign (k.written item) = .error fault) :
    k.numberAll n (item :: items) = .error ⟨k.place item, k.fault fault⟩ := by
  rw [numberAll, h]

/-- Numbering ends at the first item that has no number, or else gives each item its own. -/
theorem numberAll_gives {before : List Int} {n : Numbering} {items : List α}
    (hn : Counts k.first before n) (hfirst : k.first ≤ Numeral.maxInt32)
    (hwritten : ∀ item ∈ items, ∀ number ∈ k.written item, number ≤ Numeral.maxInt32) :
    Gives (k.numberAll n items)
      (fun out => (∀ i fault, ¬ ClashesAt k.first before (items.map k.written) i fault) ∧
        out = List.zipWith k.number (numbersAfter k.first before (items.map k.written)) items)
      (fun e => ∃ i item fault, items[i]? = some item ∧
        ClashesAt k.first before (items.map k.written) i fault ∧
        (∀ j < i, ∀ fault, ¬ ClashesAt k.first before (items.map k.written) j fault) ∧
        e = ⟨k.place item, k.fault fault⟩) := by
  induction items generalizing before n with
  | nil => exact ⟨fun i fault ⟨w, hw, _⟩ => by simp at hw, rfl⟩
  | cons item items ih =>
    have hassign := hn.assign hfirst (hwritten item List.mem_cons_self)
    cases heq : n.assign (k.written item) with
    | ok out =>
      obtain ⟨number, n'⟩ := out
      obtain ⟨hclash, hnumber, hcounts⟩ := hassign.of_ok heq
      dsimp only at hnumber hcounts
      subst hnumber
      rw [k.numberAll_cons_ok items heq]
      have hrest := ih hcounts fun item hm => hwritten item (List.mem_cons_of_mem _ hm)
      cases hall : k.numberAll n' items with
      | ok out =>
        obtain ⟨hfree, rfl⟩ := hrest.of_ok hall
        refine ⟨fun i fault hc => ?_, rfl⟩
        cases i with
        | zero => exact hclash fault (clashesAt_zero.1 hc)
        | succ i => exact hfree i fault (clashesAt_succ.1 hc)
      | error e =>
        obtain ⟨i, later, fault, hi, hc, hearlier, rfl⟩ := hrest.of_error hall
        refine ⟨i + 1, later, fault, hi, clashesAt_succ.2 hc, fun j hj fault hcj => ?_, rfl⟩
        cases j with
        | zero => exact hclash fault (clashesAt_zero.1 hcj)
        | succ j => exact hearlier j (Nat.lt_of_succ_lt_succ hj) fault (clashesAt_succ.1 hcj)
    | error fault =>
      rw [k.numberAll_cons_error items heq]
      exact ⟨0, item, fault, rfl, clashesAt_zero.2 (hassign.of_error heq),
        fun j hj => absurd hj (Nat.not_lt_zero j), rfl⟩

section Outcomes

variable {before : List Int} {n : Numbering} {items out : List α}
  (hn : Counts k.first before n) (hfirst : k.first ≤ Numeral.maxInt32)
  (hwritten : ∀ item ∈ items, ∀ number ∈ k.written item, number ≤ Numeral.maxInt32)

include hn hfirst hwritten

theorem numberAll_ok (h : k.numberAll n items = .ok out) :
    (∀ i fault, ¬ ClashesAt k.first before (items.map k.written) i fault) ∧
      out = List.zipWith k.number (numbersAfter k.first before (items.map k.written)) items :=
  (k.numberAll_gives hn hfirst hwritten).of_ok h

theorem numberAll_ok_iff : (∃ out, k.numberAll n items = .ok out) ↔
    ∀ i fault, ¬ ClashesAt k.first before (items.map k.written) i fault := by
  constructor
  · rintro ⟨out, hout⟩
    exact (k.numberAll_ok hn hfirst hwritten hout).1
  · intro hfree
    cases hall : k.numberAll n items with
    | ok out => exact ⟨out, rfl⟩
    | error e =>
      obtain ⟨i, item, fault, -, hc, -⟩ := (k.numberAll_gives hn hfirst hwritten).of_error hall
      exact (hfree i fault hc).elim

/-- Only the first clash is reported. -/
theorem numberAll_error_iff {e : SyntaxError} : k.numberAll n items = .error e ↔
    ∃ i, ∃ item, ∃ fault, items[i]? = some item ∧
      ClashesAt k.first before (items.map k.written) i fault ∧
      (∀ j < i, ∀ fault, ¬ ClashesAt k.first before (items.map k.written) j fault) ∧
      e = ⟨k.place item, k.fault fault⟩ := by
  constructor
  · intro hall
    exact (k.numberAll_gives hn hfirst hwritten).of_error hall
  · rintro ⟨i, item, fault, hi, hc, hearlier, rfl⟩
    cases hall : k.numberAll n items with
    | ok out => exact ((k.numberAll_ok hn hfirst hwritten hall).1 i fault hc).elim
    | error e =>
      obtain ⟨j, item', fault', hj, hcj, hearlier', rfl⟩ :=
        (k.numberAll_gives hn hfirst hwritten).of_error hall
      obtain hlt | rfl | hlt := Nat.lt_trichotomy i j
      · exact (hearlier' i hlt fault hc).elim
      · obtain rfl := Option.some.inj (hi.symm.trans hj)
        rw [hc.unique hcj]
      · exact (hearlier j hlt fault' hcj).elim

end Outcomes

/-- Items with their numbers. -/
def numbered (items : List α) : List α :=
  List.zipWith k.number (numbersAfter k.first [] (items.map k.written)) items

section Numbered

variable {items : List α} {item : α} {i : Nat} {shown : α → Int}

theorem getElem?_numbered (h : (k.numbered items)[i]? = some item) :
    ∃ plain number, items[i]? = some plain ∧
      (numbersAfter k.first [] (items.map k.written))[i]? = some number ∧
      item = k.number number plain := by
  obtain ⟨number, plain, hnumber, hplain, rfl⟩ := List.getElem?_zipWith_eq_some.1 h
  exact ⟨plain, number, hplain, hnumber, rfl⟩

theorem length_numbered (items : List α) : (k.numbered items).length = items.length := by
  simp [numbered, length_numbersAfter]

variable (hshown : ∀ number item, shown (k.number number item) = number)

include hshown

theorem map_numbered (items : List α) :
    (k.numbered items).map shown = numbersAfter k.first [] (items.map k.written) := by
  refine List.ext_getElem? fun i => ?_
  rw [List.getElem?_map]
  cases hitem : (k.numbered items)[i]? with
  | none =>
    have hlen := List.getElem?_eq_none_iff.1 hitem
    rw [length_numbered] at hlen
    rw [List.getElem?_eq_none (by rwa [length_numbersAfter, List.length_map])]
    rfl
  | some item =>
    obtain ⟨plain, number, -, hnumber, rfl⟩ := k.getElem?_numbered hitem
    rw [Option.map_some, hshown, hnumber]

theorem numbered_same (items : List α) :
    List.Forall₂ (fun plain item => item = k.number (shown item) plain) items
      (k.numbered items) := by
  refine List.forall₂_iff_get.2 ⟨(k.length_numbered items).symm, fun i hi hi' => ?_⟩
  obtain ⟨plain, number, hplain, -, hitem⟩ :=
    k.getElem?_numbered (List.getElem?_eq_getElem hi')
  rw [List.getElem?_eq_getElem hi, Option.some.injEq] at hplain
  simp [hplain, hitem, hshown]

theorem numbered_shown (hkept : ∀ number item, k.written (k.number number item) = k.written item)
    (h : (k.numbered items)[i]? = some item) :
    shown item =
      (k.written item).getD (following k.first (((k.numbered items).take i).map shown)) := by
  obtain ⟨plain, number, hplain, hnumber, rfl⟩ := k.getElem?_numbered h
  rw [getElem?_numbersAfter, List.getElem?_map, hplain] at hnumber
  rw [List.map_take, k.map_numbered hshown, hshown, hkept]
  exact (Option.some.inj hnumber).symm

end Numbered

end Scheme

end Numbering

namespace Reader

open ThriftIdl.Numbering (Scheme)

variable {α : Type} {c d : Cursor}

section Turns

variable {β σ : Type} {close next : Char} {item : String → σ → Reader (α × σ)}
  {again : List α × σ → Reader (List α)} {state : List α × σ} {doc : String} {c₁ c₂ : Cursor}
  {out : List α × Cursor}

/-- One turn of reading items. -/
def itemsStep (close : Char) (item : String → σ → Reader (α × σ))
    (again : List α × σ → Reader (List α)) (state : List α × σ) : Reader (List α) := do
  let doc ← documentation
  if (← peek true) = close then
    advance
    return state.1
  else
    let (value, s) ← item doc state.2
    again (state.1 ++ [value], s)

theorem itemsUntil_eq_fix (close : Char) (item : String → σ → Reader (α × σ)) (s : σ) :
    itemsUntil close item s = fix (itemsStep close item) ([], s) := rfl

theorem itemsStep_run_close (hdoc : documentation.run c = .ok (doc, c₁))
    (hnext : (peek true).run c₁ = .ok (close, c₂)) :
    (itemsStep close item again state).run c = .ok (state.1, c₂.advance) := by
  unfold itemsStep
  rw [bind_run_of_ok hdoc, bind_run_of_ok hnext, if_pos rfl]
  rfl

theorem itemsStep_run_item (hdoc : documentation.run c = .ok (doc, c₁))
    (hnext : (peek true).run c₁ = .ok (next, c₂)) (hne : next ≠ close) :
    (itemsStep close item again state).run c =
      (item doc state.2 >>= fun out => again (state.1 ++ [out.1], out.2)).run c₂ := by
  unfold itemsStep
  rw [bind_run_of_ok hdoc, bind_run_of_ok hnext, if_neg hne]

theorem itemsStep_run_ok (h : (itemsStep close item again state).run c = .ok out) :
    ∃ doc next c₁ c₂, documentation.run c = .ok (doc, c₁) ∧
      (peek true).run c₁ = .ok (next, c₂) ∧
      ((next = close ∧ out = (state.1, c₂.advance)) ∨ (next ≠ close ∧
        ∃ value s c₃, (item doc state.2).run c₂ = .ok ((value, s), c₃) ∧
          (again (state.1 ++ [value], s)).run c₃ = .ok out)) := by
  obtain ⟨doc, c₁, hdoc, -⟩ := bind_run_ok h
  obtain ⟨next, c₂, hnext, -⟩ := bind_run_ok ((bind_run_of_ok hdoc).symm.trans h)
  refine ⟨doc, next, c₁, c₂, hdoc, hnext, ?_⟩
  by_cases hclose : next = close
  · subst hclose
    rw [itemsStep_run_close hdoc hnext] at h
    exact .inl ⟨rfl, (Except.ok.inj h).symm⟩
  · rw [itemsStep_run_item hdoc hnext hclose] at h
    obtain ⟨⟨value, s⟩, c₃, hitem, hagain⟩ := bind_run_ok h
    exact .inr ⟨hclose, value, s, c₃, hitem, hagain⟩

end Turns

section Numbered

variable (k : Scheme α) {plain : String → Reader α} {n n' : Numbering} {item : α} {number : Int}
  {doc : String} {fault : Numbering.Fault}

theorem scheme_read_run_ok (hitem : (plain doc).run c = .ok (item, d))
    (h : n.assign (k.written item) = .ok (number, n')) :
    (k.read plain doc n).run c = .ok ((k.number number item, n'), d) := by
  unfold Scheme.read
  rw [bind_run_of_ok hitem, h]
  rfl

theorem scheme_read_run_error (hitem : (plain doc).run c = .ok (item, d))
    (h : n.assign (k.written item) = .error fault) :
    (k.read plain doc n).run c = .error ⟨k.place item, k.fault fault⟩ := by
  unfold Scheme.read
  rw [bind_run_of_ok hitem, h]
  rfl

/-- An item as it is written, with no state to pass on. -/
def stateless (plain : String → Reader α) (doc : String) (_ : Unit) : Reader (α × Unit) := do
  return (← plain doc, ())

theorem stateless_run_ok {s : Unit} (h : (stateless plain doc s).run c = .ok ((item, s), d)) :
    (plain doc).run c = .ok (item, d) := by
  obtain ⟨item', d', hitem, hpure⟩ := bind_run_ok h
  cases hpure
  exact hitem

/-- Items as they are written, up to a closing character. -/
def plainItems (close : Char) (plain : String → Reader α) : Reader (List α) :=
  itemsUntil close (stateless plain) ()

/-- Numbering each item as it is read is numbering them all once they have been read. -/
theorem fix_itemsStep_numbered (close : Char) (n : Numbering) (found found' : List α)
    {items : List α}
    (h : StateT.run (fix (itemsStep close (stateless plain)) (found, ())) c = .ok (items, d)) :
    ∃ more, items = found ++ more ∧
      StateT.run (fix (itemsStep close (k.read plain)) (found', n)) c =
        (k.numberAll n more).map fun out => (found' ++ out, d) := by
  -- Both readings take the same steps, each of which leaves less of the text.
  induction hlen : c.rest.length using Nat.strongRecOn generalizing n found found' c with
  | ind length ih =>
    subst hlen
    rw [fix_run] at h ⊢
    obtain ⟨doc, next, c₁, c₂, hdoc, hnext, ⟨rfl, hout⟩ | ⟨hne, item, s, c₃, hitem, hagain⟩⟩ :=
      itemsStep_run_ok h
    · obtain ⟨rfl, rfl⟩ := Prod.mk.inj hout
      refine ⟨[], (List.append_nil _).symm, ?_⟩
      rw [itemsStep_run_close hdoc hnext]
      simp [Scheme.numberAll, Except.map]
    · have hplain := stateless_run_ok hitem
      obtain ⟨hlt, hagain⟩ := guarded_run_ok hagain
      rw [itemsStep_run_item hdoc hnext hne]
      cases hassign : n.assign (k.written item) with
      | error fault =>
        obtain ⟨more, rfl, -⟩ := ih _ hlt n _ found' hagain rfl
        refine ⟨item :: more, by simp, ?_⟩
        rw [StateT.run_bind, scheme_read_run_error k hplain hassign,
          k.numberAll_cons_error more hassign]
        rfl
      | ok out =>
        obtain ⟨number, n'⟩ := out
        obtain ⟨more, rfl, hmore⟩ := ih _ hlt n' _ (found' ++ [k.number number item]) hagain rfl
        refine ⟨item :: more, by simp, ?_⟩
        rw [bind_run_of_ok (scheme_read_run_ok k hplain hassign), guarded_run_of_lt hlt, hmore,
          k.numberAll_cons_ok more hassign]
        cases k.numberAll n' more with
        | ok out => simp [Except.map]
        | error e => rfl

theorem itemsUntil_numbered (close : Char) (n : Numbering) {items : List α}
    (h : (plainItems close plain).run c = .ok (items, d)) :
    (itemsUntil close (k.read plain) n).run c = (k.numberAll n items).map (·, d) := by
  rw [plainItems, itemsUntil_eq_fix] at h
  rw [itemsUntil_eq_fix]
  obtain ⟨more, rfl, hmore⟩ := fix_itemsStep_numbered k close n [] [] h
  exact hmore

theorem itemsUntil_numbered_ok_iff (close : Char) (n : Numbering) {items : List α}
    (h : (plainItems close plain).run c = .ok (items, d)) {found : List α} {e : Cursor} :
    (itemsUntil close (k.read plain) n).run c = .ok (found, e) ↔
      k.numberAll n items = .ok found ∧ e = d := by
  rw [itemsUntil_numbered k close n h]
  cases k.numberAll n items with
  | ok out => simp [Except.map, eq_comm]
  | error e => simp [Except.map]

theorem itemsUntil_numbered_error_iff (close : Char) (n : Numbering) {items : List α}
    (h : (plainItems close plain).run c = .ok (items, d)) {e : SyntaxError} :
    (itemsUntil close (k.read plain) n).run c = .error e ↔ k.numberAll n items = .error e := by
  rw [itemsUntil_numbered k close n h]
  cases k.numberAll n items with
  | ok out => simp [Except.map]
  | error e => simp [Except.map]

end Numbered

end Reader

end ThriftIdl
