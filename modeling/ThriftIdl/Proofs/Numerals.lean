import Mathlib.Data.List.Forall2
import Mathlib.Data.Nat.Digits.Defs
import ThriftIdl.Proofs.CursorMovement
import ThriftIdl.Reader.Lexeme

namespace ThriftIdl

namespace Numeral

/-- A digit of a base with its value. Digits above nine are letters of either case. -/
def IsDigit (base : Nat) (c : Char) (d : Nat) : Prop :=
  d < base ∧ (c = d.digitChar ∨ c = d.digitChar.toUpper)

/-- Digits with the number that they stand for, the first of them the highest. -/
inductive Unsigned : List Char → Nat → Prop
  | decimal {cs : List Char} {ds : List Nat} (hne : cs ≠ []) (h : List.Forall₂ (IsDigit 10) cs ds) :
      Unsigned cs (Nat.ofDigits 10 ds.reverse)
  | hexadecimal {x : Char} {cs : List Char} {ds : List Nat} (hx : x = 'x' ∨ x = 'X') (hne : cs ≠ [])
      (h : List.Forall₂ (IsDigit 16) cs ds) : Unsigned ('0' :: x :: cs) (Nat.ofDigits 16 ds.reverse)

/-- A number behind one sign at most. -/
inductive Signed : List Char → Int → Prop
  | unsigned {cs : List Char} {n : Nat} (h : Unsigned cs n) : Signed cs n
  | plus {cs : List Char} {n : Nat} (h : Unsigned cs n) : Signed ('+' :: cs) n
  | minus {cs : List Char} {n : Nat} (h : Unsigned cs n) : Signed ('-' :: cs) (-n)

section Digits

variable {base d n : Nat} {c : Char} {cs : List Char}

theorem digit?_of_isDigit (hbase : base ≤ 16) (h : IsDigit base c d) : digit? base c = some d := by
  have hvalue : ∀ d < 16,
      digit? 16 d.digitChar = some d ∧ digit? 16 d.digitChar.toUpper = some d := by
    decide
  obtain ⟨hd, hc⟩ := h
  have h16 : digit? 16 c = some d := by
    obtain rfl | rfl := hc
    · exact (hvalue d (by omega)).1
    · exact (hvalue d (by omega)).2
  unfold digit? at h16 ⊢
  split_ifs at h16 ⊢ <;> simp_all

theorem isDigit_of_digit? (h : digit? base c = some d) : IsDigit base c d := by
  have hlower : ∀ k < 6, (k + 10).digitChar.toNat = 97 + k := by decide
  have hupper : ∀ k < 6, (k + 10).digitChar.toUpper.toNat = 65 + k := by decide
  unfold digit? at h
  simp only [Bool.and_eq_true, decide_eq_true_eq, Option.ite_none_right_eq_some,
    Option.some.injEq] at h
  obtain ⟨hlt, rfl⟩ := h
  refine ⟨hlt, ?_⟩
  split_ifs at hlt ⊢ with hdigit hletter hcapital
  · change 48 ≤ c.toNat ∧ c.toNat ≤ 57 at hdigit
    refine .inl (Char.toNat_inj.1 ?_)
    rw [Nat.toNat_digitChar_of_lt_ten (by simp; omega)]
    simp; omega
  · change 97 ≤ c.toNat ∧ c.toNat ≤ 102 at hletter
    refine .inl (Char.toNat_inj.1 ?_)
    rw [hlower _ (by simp; omega)]
    simp; omega
  · change 65 ≤ c.toNat ∧ c.toNat ≤ 70 at hcapital
    refine .inr (Char.toNat_inj.1 ?_)
    rw [hupper _ (by simp; omega)]
    simp; omega
  · exact absurd hlt (Nat.lt_irrefl _)

theorem foldlM_digits_eq_some_iff (hbase : base ≤ 16) (start : Nat) :
    cs.foldlM (fun n c => (digit? base c).map (n * base + ·)) start = some n ↔
      ∃ ds, List.Forall₂ (IsDigit base) cs ds ∧ ds.foldl (fun n d => d + base * n) start = n := by
  induction cs generalizing start with
  | nil =>
    simp only [List.foldlM_nil, List.forall₂_nil_left_iff, exists_eq_left, List.foldl_nil]
    exact Option.some_inj
  | cons c cs ih =>
    rw [List.foldlM_cons]
    constructor
    · intro h
      obtain ⟨m, hm, hmore⟩ := Option.bind_eq_some_iff.1 h
      obtain ⟨d, hd, rfl⟩ := Option.map_eq_some_iff.1 hm
      obtain ⟨ds, hds, hn⟩ := (ih _).1 hmore
      refine ⟨d :: ds, .cons (isDigit_of_digit? hd) hds, ?_⟩
      rw [List.foldl_cons, Nat.mul_comm, Nat.add_comm]
      exact hn
    · rintro ⟨_, hds, hn⟩
      cases hds with
      | @cons _ d _ ds hd hds =>
        rw [List.foldl_cons, Nat.mul_comm, Nat.add_comm] at hn
        rw [digit?_of_isDigit hbase hd]
        exact (ih _).2 ⟨ds, hds, hn⟩

/-- Digits are read from the first one on, each time in the next lower place. -/
theorem digits?_eq_some_iff (hbase : base ≤ 16) : digits? base cs = some n ↔
    ∃ ds, List.Forall₂ (IsDigit base) cs ds ∧ Nat.ofDigits base ds.reverse = n := by
  have hvalue (ds : List Nat) :
      Nat.ofDigits base ds.reverse = ds.foldl (fun n d => d + base * n) 0 := by
    rw [Nat.ofDigits_eq_foldr, List.foldr_reverse]
    rfl
  simp only [digits?, foldlM_digits_eq_some_iff hbase, hvalue]

end Digits

section Numbers

variable {n : Nat} {i : Int} {cs : List Char}

theorem not_isDigit_ten {x : Char} (hx : x = 'x' ∨ x = 'X' ∨ x = '+' ∨ x = '-') (d : Nat) :
    ¬ IsDigit 10 x d := by
  intro h
  have hnone : digit? 10 x = none := by
    obtain rfl | rfl | rfl | rfl := hx <;> rfl
  rw [digit?_of_isDigit (by decide) h] at hnone
  cases hnone

theorem magnitude?_of_unsigned (h : Unsigned cs n) : magnitude? cs = some n := by
  cases h with
  | decimal hne h =>
    have hdigits := (digits?_eq_some_iff (by decide)).2 ⟨_, h, rfl⟩
    have hprefix {x : Char} (hx : x = 'x' ∨ x = 'X') (rest : List Char) :
        cs ≠ '0' :: x :: rest := by
      rintro rfl
      cases h with
      | cons _ h =>
        cases h with
        | cons h _ => exact not_isDigit_ten (hx.imp_right .inl) _ h
    rw [magnitude?, if_neg (by simpa using hne), hdigits]
    · exact hprefix (.inl rfl)
    · exact hprefix (.inr rfl)
  | hexadecimal hx hne h =>
    have hdigits := (digits?_eq_some_iff (by decide)).2 ⟨_, h, rfl⟩
    obtain rfl | rfl := hx
    · rw [magnitude?, if_neg (by simpa using hne), hdigits]
    · rw [magnitude?, if_neg (by simpa using hne), hdigits]

theorem unsigned_of_magnitude? (h : magnitude? cs = some n) : Unsigned cs n := by
  unfold magnitude? at h
  split at h
  all_goals
    rw [Option.ite_none_left_eq_some, List.isEmpty_iff] at h
    obtain ⟨ds, hds, rfl⟩ := (digits?_eq_some_iff (by decide)).1 h.2
  · exact .hexadecimal (.inl rfl) h.1 hds
  · exact .hexadecimal (.inr rfl) h.1 hds
  · exact .decimal h.1 hds

theorem Unsigned.no_sign {sign : Char} (hsign : sign = '+' ∨ sign = '-') (cs : List Char) :
    ¬ Unsigned (sign :: cs) n := by
  intro h
  cases h with
  | decimal _ h =>
    cases h with
    | cons h _ => exact not_isDigit_ten (by simp [hsign]) _ h
  | hexadecimal => simp at hsign

theorem signed?_of_signed (h : Signed cs i) : signed? cs = some i := by
  cases h with
  | unsigned h =>
    rw [signed?, magnitude?_of_unsigned h]
    · rfl
    · rintro cs rfl
      exact h.no_sign (.inr rfl)
    · rintro cs rfl
      exact h.no_sign (.inl rfl)
  | plus h => rw [signed?, magnitude?_of_unsigned h]; rfl
  | minus h => rw [signed?, magnitude?_of_unsigned h]; rfl

theorem signed_of_signed? (h : signed? cs = some i) : Signed cs i := by
  unfold signed? at h
  split at h
  all_goals
    obtain ⟨_, hvalue, rfl⟩ := Option.map_eq_some_iff.1 h
    obtain ⟨n, hn, hcast⟩ := Option.bind_eq_some_iff.1 hvalue
    obtain rfl := Option.some.inj hcast
  · exact .minus (unsigned_of_magnitude? hn)
  · exact .plus (unsigned_of_magnitude? hn)
  · exact .unsigned (unsigned_of_magnitude? hn)

theorem fitsInt32_iff (i : Int) : fitsInt32 i = true ↔ -2 ^ 31 ≤ i ∧ i ≤ 2 ^ 31 - 1 := by
  rw [fitsInt32, Bool.and_eq_true, decide_eq_true_eq, decide_eq_true_eq]
  rfl

theorem int32?_eq_some_iff : int32? cs = some i ↔ Signed cs i ∧ -2 ^ 31 ≤ i ∧ i ≤ 2 ^ 31 - 1 := by
  rw [int32?, Option.filter_eq_some_iff, fitsInt32_iff]
  exact and_congr_left fun _ => ⟨signed_of_signed?, signed?_of_signed⟩

end Numbers

section Wide

/-- The result of an operation in 64 bits, if there is room for it. -/
def wide? (n : Int) : Option Int64 :=
  if -2 ^ 63 ≤ n ∧ n < 2 ^ 63 then some (.ofInt n) else none

def wideStep? (base : Nat) (n : Int64) (c : Char) : Option Int64 := do
  let shifted ← wide? (n.toInt * base)
  let d ← digit? base c
  wide? (shifted.toInt + d)

def wideDigits? (base : Nat) (cs : List Char) : Option Int64 :=
  cs.foldlM (wideStep? base) 0

def wideMagnitude? : List Char → Option Int64
  | '0' :: 'x' :: cs | '0' :: 'X' :: cs => if cs.isEmpty then none else wideDigits? 16 cs
  | cs => if cs.isEmpty then none else wideDigits? 10 cs

def wideSigned? : List Char → Option Int64
  | '-' :: cs => (wideMagnitude? cs).bind fun n => wide? (-n.toInt)
  | '+' :: cs => wideMagnitude? cs
  | cs => wideMagnitude? cs

/-- The 32-bit integer that a numeral stands for, computed in 64 bits. -/
def wideInt32? (cs : List Char) : Option Int :=
  ((wideSigned? cs).map Int64.toInt).filter fitsInt32

variable {i : Int} {m : Int64} {base start d n : Nat} {c : Char} {cs : List Char}

theorem wide?_eq_some_iff : wide? i = some m ↔ m.toInt = i := by
  unfold wide?
  constructor
  · intro h
    obtain ⟨⟨hmin, hmax⟩, h⟩ := Option.ite_none_right_eq_some.1 h
    rw [← Option.some.inj h, Int64.toInt_ofInt_of_le hmin hmax]
  · rintro rfl
    rw [if_pos ⟨m.le_toInt, m.toInt_lt⟩, Int64.ofInt_toInt]

theorem wide?_of_lt (h : n < 2 ^ 63) : wide? n = some (.ofInt n) := if_pos (by omega)

theorem wide?_of_le (h : 2 ^ 63 ≤ n) : wide? n = none := if_neg (by omega)

/-- A number that is shifted out of 64 bits does not come back by adding a digit. -/
theorem wideStep?_eq (hm : m.toInt = start) (hd : digit? base c = some d) :
    wideStep? base m c = wide? (start * base + d : Nat) := by
  have hshift : m.toInt * base = (start * base : Nat) := by
    rw [hm, Nat.cast_mul]
  rw [wideStep?, hshift, hd]
  by_cases hlt : start * base < 2 ^ 63
  · have hvalue := wide?_eq_some_iff.1 (wide?_of_lt hlt)
    rw [wide?_of_lt hlt]
    change wide? (Int64.toInt _ + d) = _
    rw [hvalue, Nat.cast_add]
  · have hge : 2 ^ 63 ≤ start * base := Nat.le_of_not_lt hlt
    rw [wide?_of_le hge, wide?_of_le (Nat.le_add_right_of_le hge)]
    rfl

theorem le_of_foldlM_digits (hbase : 0 < base)
    (h : cs.foldlM (fun n c => (digit? base c).map (n * base + ·)) start = some n) : start ≤ n := by
  induction cs generalizing start with
  | nil => exact Nat.le_of_eq (Option.some.inj h)
  | cons c cs ih =>
    rw [List.foldlM_cons] at h
    obtain ⟨m, hm, hmore⟩ := Option.bind_eq_some_iff.1 h
    obtain ⟨d, -, rfl⟩ := Option.map_eq_some_iff.1 hm
    have hstart := Nat.le_mul_of_pos_right start hbase
    exact (hstart.trans (Nat.le_add_right _ _)).trans (ih hmore)

/-- Once there is no room for a number, there is none for those that begin with its digits. -/
theorem foldlM_wideStep? (hbase : 0 < base) (hm : m.toInt = start) :
    cs.foldlM (wideStep? base) m =
      (cs.foldlM (fun n c => (digit? base c).map (n * base + ·)) start).bind fun n => wide? n := by
  induction cs generalizing start m with
  | nil =>
    rw [List.foldlM_nil, List.foldlM_nil, Option.pure_def, Option.pure_def, Option.bind_some,
      wide?_eq_some_iff.2 hm]
  | cons c cs ih =>
    simp only [List.foldlM_cons, Option.bind_eq_bind]
    cases hd : digit? base c with
    | none =>
      have hnone : wideStep? base m c = none := by
        rw [wideStep?, hd]
        cases wide? (m.toInt * base) <;> rfl
      simp only [hnone, Option.map_none, Option.bind_none]
    | some d =>
      rw [wideStep?_eq hm hd, Option.map_some, Option.bind_some]
      by_cases hlt : start * base + d < 2 ^ 63
      · rw [← ih (wide?_eq_some_iff.1 (wide?_of_lt hlt)), wide?_of_lt hlt, Option.bind_some]
      · have hge : 2 ^ 63 ≤ start * base + d := Nat.le_of_not_lt hlt
        rw [wide?_of_le hge]
        refine (Option.bind_eq_none_iff.2 fun n hn => ?_).symm
        exact wide?_of_le (hge.trans (le_of_foldlM_digits hbase hn))

theorem wideMagnitude?_eq (cs : List Char) :
    wideMagnitude? cs = (magnitude? cs).bind fun n => wide? n := by
  have hdigits (base : Nat) (hbase : 0 < base) (cs : List Char) :
      (if cs.isEmpty then none else wideDigits? base cs) =
        (if cs.isEmpty then none else digits? base cs).bind fun n => wide? n := by
    split
    · rfl
    · exact foldlM_wideStep? hbase rfl
  unfold wideMagnitude?
  split
  · exact hdigits 16 (by decide) _
  · exact hdigits 16 (by decide) _
  · next hx hX =>
    rw [magnitude?]
    · exact hdigits 10 (by decide) _
    · exact hx
    · exact hX

theorem wideMagnitude?_of_unsigned (h : Unsigned cs n) (hlt : n < 2 ^ 63) :
    ∃ m, wideMagnitude? cs = some m ∧ m.toInt = n := by
  have hwide := wide?_of_lt hlt
  refine ⟨_, ?_, wide?_eq_some_iff.1 hwide⟩
  rw [wideMagnitude?_eq, magnitude?_of_unsigned h, Option.bind_some, hwide]

theorem unsigned_of_wideMagnitude? (h : wideMagnitude? cs = some m) :
    ∃ n : Nat, Unsigned cs n ∧ m.toInt = n := by
  rw [wideMagnitude?_eq] at h
  obtain ⟨n, hn, hm⟩ := Option.bind_eq_some_iff.1 h
  exact ⟨n, unsigned_of_magnitude? hn, wide?_eq_some_iff.1 hm⟩

theorem signed_of_wideSigned? (h : wideSigned? cs = some m) : Signed cs m.toInt := by
  unfold wideSigned? at h
  split at h
  · obtain ⟨k, hk, hm⟩ := Option.bind_eq_some_iff.1 h
    obtain ⟨n, hn, hvalue⟩ := unsigned_of_wideMagnitude? hk
    rw [wide?_eq_some_iff.1 hm, hvalue]
    exact .minus hn
  · obtain ⟨n, hn, hvalue⟩ := unsigned_of_wideMagnitude? h
    exact hvalue ▸ .plus hn
  · obtain ⟨n, hn, hvalue⟩ := unsigned_of_wideMagnitude? h
    exact hvalue ▸ .unsigned hn

theorem wideSigned?_of_signed (h : Signed cs i) (hmin : -2 ^ 63 < i) (hmax : i < 2 ^ 63) :
    ∃ m, wideSigned? cs = some m ∧ m.toInt = i := by
  cases h with
  | unsigned h =>
    rw [wideSigned?]
    · exact wideMagnitude?_of_unsigned h (by omega)
    · rintro cs rfl
      exact h.no_sign (.inr rfl)
    · rintro cs rfl
      exact h.no_sign (.inl rfl)
  | plus h => exact wideMagnitude?_of_unsigned h (by omega)
  | @minus _ n h =>
    obtain ⟨k, hk, hvalue⟩ := wideMagnitude?_of_unsigned h (by omega)
    have hnegated : wide? (-k.toInt) = some (.ofInt (-n)) := by
      rw [hvalue]
      exact if_pos (by omega)
    refine ⟨_, ?_, (wide?_eq_some_iff.1 hnegated).trans (by rw [hvalue])⟩
    rw [wideSigned?, hk, Option.bind_some, hnegated]

/-- To compute in 64 bits makes no difference for integers of 32 bits. -/
theorem wideInt32?_eq (cs : List Char) : wideInt32? cs = int32? cs := by
  ext i
  rw [int32?_eq_some_iff, wideInt32?, Option.filter_eq_some_iff, Option.map_eq_some_iff,
    fitsInt32_iff]
  refine and_congr_left fun hrange => ?_
  constructor
  · rintro ⟨m, hm, rfl⟩
    exact signed_of_wideSigned? hm
  · intro h
    exact wideSigned?_of_signed h (by omega) (by omega)

end Wide

end Numeral

namespace Reader

theorem isBlank_eq : isBlank = fun ch => decide (ch ∈ [' ', '\t', '\r', '\n']) := by
  funext ch
  rw [Bool.eq_iff_iff]
  simp [isBlank, or_assoc]

theorem isNumeralChar_eq : isNumeralChar = fun ch => ch.isAlphanum || ch ∈ ['+', '-', '.'] := by
  funext ch
  rw [Bool.eq_iff_iff]
  simp [isNumeralChar, or_assoc]

theorem integer_run {c start : Cursor} {run : List Char}
    (hstart : start = c.passAll (c.rest.takeWhile isBlank))
    (hrun : run = start.rest.takeWhile isNumeralChar) :
    integer.run c =
      match Numeral.int32? run with
      | some n => .ok (n, start.passAll run)
      | none => .error ⟨start.position,
          if run = [] then .expectedInteger else .malformedInteger (String.ofList run)⟩ := by
  have hskip : skipBlanks.run c = .ok ((), start) := hstart ▸ skipWhile_run isBlank c
  have htake : (takeWhile isNumeralChar).run start = .ok (run, start.passAll run) :=
    hrun ▸ takeWhile_run isNumeralChar start
  have hsteps : integer.run c = (if run = [] then fail .expectedInteger else
      match Numeral.int32? run with
      | some n => return n
      | none => failAt start.position (.malformedInteger (String.ofList run)) : Reader Int).run
        (start.passAll run) := by
    refine (bind_run_of_ok hskip).trans ?_
    refine (bind_run_of_ok (a := start.position) (d := start) rfl).trans ?_
    exact bind_run_of_ok htake
  rw [hsteps]
  by_cases hempty : run = []
  · have hnone : Numeral.int32? run = none := by rw [hempty]; rfl
    rw [if_pos hempty, if_pos hempty, hnone, hempty]
    rfl
  · rw [if_neg hempty, if_neg hempty]
    cases Numeral.int32? run with
    | none => rfl
    | some n => rfl

/-- Integers are read exactly where a numeral stands for a number of 32 bits, and computing them in
64 bits never leaves the range. -/
theorem integer_numerals :
    (∀ c : Cursor,
      let blanks := c.rest.takeWhile (· ∈ [' ', '\t', '\r', '\n'])
      let start := c.passAll blanks
      let run := start.rest.takeWhile fun ch => ch.isAlphanum || ch ∈ ['+', '-', '.']
      (∀ n d, integer.run c = .ok (n, d) ↔
        Numeral.Signed run n ∧ (-2 ^ 31 ≤ n ∧ n ≤ 2 ^ 31 - 1) ∧ d = start.passAll run) ∧
      (∀ e, integer.run c = .error e ↔
        (¬ ∃ n, Numeral.Signed run n ∧ -2 ^ 31 ≤ n ∧ n ≤ 2 ^ 31 - 1) ∧
          e = ⟨start.position,
            if run = [] then .expectedInteger else .malformedInteger (String.ofList run)⟩) ∧
      ∀ text before, Cursor.At text before c →
        start.position = .behind (before ++ blanks) ∧
          Cursor.At text (before ++ blanks ++ run) (start.passAll run)) ∧
    (∀ cs, Numeral.wideInt32? cs = Numeral.int32? cs) ∧
    ∀ i m, Numeral.wide? i = some m ↔ m.toInt = i := by
  refine ⟨?_, Numeral.wideInt32?_eq, fun _ _ => Numeral.wide?_eq_some_iff⟩
  intro c blanks start run
  have hrun : integer.run c = _ := @integer_run c start run
    (by rw [isBlank_eq]) (by rw [isNumeralChar_eq])
  have hnone : Numeral.int32? run = none ↔
      ¬ ∃ n, Numeral.Signed run n ∧ -2 ^ 31 ≤ n ∧ n ≤ 2 ^ 31 - 1 := by
    rw [Option.eq_none_iff_forall_ne_some, not_exists]
    exact forall_congr' fun n => not_congr Numeral.int32?_eq_some_iff
  refine ⟨fun n d => ?_, fun e => ?_, fun text before hat => ?_⟩
  · rw [hrun, ← and_assoc, ← Numeral.int32?_eq_some_iff]
    cases Numeral.int32? run with
    | none => simp only [reduceCtorEq, false_and]
    | some m => simp only [Except.ok.injEq, Prod.mk.injEq, Option.some.injEq, eq_comm]
  · rw [hrun, ← hnone]
    cases Numeral.int32? run with
    | none => simp only [Except.error.injEq, true_and, eq_comm]
    | some m => simp only [reduceCtorEq, false_and]
  · have hstart : Cursor.At text (before ++ blanks) start := hat.passAll (List.takeWhile_prefix _)
    exact ⟨hstart.position_eq, hstart.passAll (List.takeWhile_prefix _)⟩

/-- The least integer, on a line of its own and with zeros in front. -/
theorem leastInteger_read :
    let text := "=\t\n-0x0080000000;".toList
    let equals := (Cursor.ofList text).passAll ['=']
    let numeral := "-0x0080000000".toList
    Cursor.At text ['='] equals ∧ Numeral.Signed numeral (-2147483648) ∧
      integer.run equals = .ok (-2147483648, equals.passAll ("\t\n".toList ++ numeral)) ∧
      (equals.passAll "\t\n".toList).position = ⟨2, 1⟩ := by
  intro text equals numeral
  have hat : Cursor.At text ['='] equals := ⟨rfl, rfl⟩
  obtain ⟨hok, -, hplaces⟩ := integer_numerals.1 equals
  have hblanks : equals.rest.takeWhile (· ∈ [' ', '\t', '\r', '\n']) = "\t\n".toList := by decide
  have hrun : (equals.passAll "\t\n".toList).rest.takeWhile
      (fun ch => ch.isAlphanum || ch ∈ ['+', '-', '.']) = numeral := by decide
  simp only [hblanks, hrun] at hok hplaces
  have hsigned : Numeral.Signed numeral (-2147483648) :=
    (Numeral.int32?_eq_some_iff.1 (by decide)).1
  refine ⟨hat, hsigned, ?_, ?_⟩
  · rw [Cursor.passAll_append]
    exact (hok _ _).2 ⟨hsigned, by decide, rfl⟩
  · rw [(hplaces text ['='] hat).1]
    decide

end Reader

end ThriftIdl
