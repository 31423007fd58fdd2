import Mathlib.Data.Nat.Digits.Defs
import ThriftIdl.Document.Canonical
import ThriftIdl.Proofs.ReaderRuns
import ThriftIdl.Reader.Lexeme

namespace ThriftIdl

namespace Numeral

theorem digits?_toDigits (n : Nat) : digits? 10 (Nat.toDigits 10 n) = some n := by
  induction n using Nat.strongRecOn with
  | ind n ih =>
    have hdigit : ∀ d < 10, digit? 10 (Nat.digitChar d) = some d := by decide
    by_cases hn : n < 10
    · rw [Nat.toDigits_of_lt_base hn]
      simp [digits?, hdigit n hn]
    · have hlast : n % 10 < 10 := Nat.mod_lt _ (by decide)
      have hsplit : 10 * (n / 10) + n % 10 = n := Nat.div_add_mod n 10
      have hpos : 0 < n / 10 := Nat.div_pos (Nat.le_of_not_lt hn) (by decide)
      have happ := Nat.toDigits_append_toDigits (b := 10) (by decide) hpos hlast
      rw [hsplit] at happ
      have hih := ih (n / 10) (Nat.div_lt_self (by omega) (by decide))
      rw [← happ, Nat.toDigits_of_lt_base hlast]
      unfold digits? at hih ⊢
      rw [List.foldlM_append, hih]
      simp [hdigit _ hlast]
      omega

theorem magnitude?_toDigits (n : Nat) : magnitude? (Nat.toDigits 10 n) = some n := by
  have hdigits : ∀ c ∈ Nat.toDigits 10 n, c.isDigit = true :=
    fun c hc => Nat.isDigit_of_mem_toDigits (by decide) (by decide) hc
  have hne : (Nat.toDigits 10 n).isEmpty = false := by simp
  unfold magnitude?
  split
  · next h => exact absurd (hdigits 'x' (by simp [h])) (by decide)
  · next h => exact absurd (hdigits 'X' (by simp [h])) (by decide)
  · rw [hne]
    exact digits?_toDigits n

theorem toList_toString_ofNat (n : Nat) :
    (toString (Int.ofNat n)).toList = Nat.toDigits 10 n := by
  change (toString n).toList = _
  simp

theorem toList_toString_negSucc (n : Nat) :
    (toString (Int.negSucc n)).toList = '-' :: Nat.toDigits 10 (n + 1) := by
  change ("-" ++ toString (n + 1)).toList = _
  simp

theorem signed?_toString (n : Int) : signed? (toString n).toList = some n := by
  cases n with
  | ofNat n =>
    have hdigits : ∀ c ∈ Nat.toDigits 10 n, c.isDigit = true :=
      fun c hc => Nat.isDigit_of_mem_toDigits (by decide) (by decide) hc
    rw [toList_toString_ofNat]
    unfold signed?
    split
    · next h => exact absurd (hdigits '-' (by simp [h])) (by decide)
    · next h => exact absurd (hdigits '+' (by simp [h])) (by decide)
    · rw [magnitude?_toDigits]
      rfl
  | negSucc n =>
    rw [toList_toString_negSucc, signed?, magnitude?_toDigits]
    rfl

theorem toList_toString_ne_nil (n : Int) : (toString n).toList ≠ [] := by
  cases n with
  | ofNat n =>
    rw [toList_toString_ofNat]
    exact Nat.toDigits_ne_nil
  | negSucc n =>
    rw [toList_toString_negSucc]
    exact List.cons_ne_nil _ _

theorem isDigit_or_of_mem_toString {n : Int} {c : Char} (h : c ∈ (toString n).toList) :
    c.isDigit = true ∨ c = '-' := by
  cases n with
  | ofNat n =>
    rw [toList_toString_ofNat] at h
    exact .inl (Nat.isDigit_of_mem_toDigits (by decide) (by decide) h)
  | negSucc n =>
    rw [toList_toString_negSucc] at h
    rcases List.mem_cons.1 h with rfl | h
    · exact .inr rfl
    · exact .inl (Nat.isDigit_of_mem_toDigits (by decide) (by decide) h)

theorem int32?_toString {n : Int} (h : fitsInt32 n = true) :
    int32? (toString n).toList = some n := by
  unfold int32?
  rw [signed?_toString]
  simp [h]

theorem fitsInt32_of_int32? {cs : List Char} {n : Int} (h : int32? cs = some n) :
    fitsInt32 n = true :=
  (Option.filter_eq_some_iff.1 h).2

end Numeral

namespace Reader

structure IsWord (w : String) : Prop where
  nonempty : w.toList ≠ []
  chars : ∀ c ∈ w.toList, isWordChar c = true

instance (w : String) : Decidable (IsWord w) :=
  decidable_of_iff (w.toList ≠ [] ∧ w.toList.all isWordChar = true)
    ⟨fun h => ⟨h.1, List.all_eq_true.1 h.2⟩, fun h => ⟨h.nonempty, List.all_eq_true.2 h.chars⟩⟩

structure IsIdentifier (hyphens : Bool) (w : String) : Prop where
  start : w.toList.head?.any isIdentifierStart = true
  chars : ∀ c ∈ w.toList, isIdentifierChar hyphens c = true

/-- Blanks and comments begin like this. -/
def beginsGap (c : Char) : Bool := isBlank c || c == '/' || c == '#'

variable {x y gap : List Char} {ch : Char} {w : String} {hyphens : Bool}

theorem blank_nil : ∀ c ∈ ([] : List Char), isBlank c = true := by simp

theorem blank_space : ∀ c ∈ [' '], isBlank c = true := by simp [isBlank]

theorem beginsGap_of_isWordChar (h : isWordChar ch = true) : beginsGap ch = false := by
  rw [Bool.eq_false_iff]
  intro hgap
  have hcases : ch = ' ' ∨ ch = '\t' ∨ ch = '\r' ∨ ch = '\n' ∨ ch = '/' ∨ ch = '#' := by
    simpa [beginsGap, isBlank, or_assoc] using hgap
  rcases hcases with rfl | rfl | rfl | rfl | rfl | rfl <;> revert h <;> decide

theorem isBlank_of_isNumeralChar (h : isNumeralChar ch = true) : isBlank ch = false := by
  rw [Bool.eq_false_iff]
  intro hblank
  have hcases : ch = ' ' ∨ ch = '\t' ∨ ch = '\r' ∨ ch = '\n' := by
    simpa [isBlank, or_assoc] using hblank
  rcases hcases with rfl | rfl | rfl | rfl <;> revert h <;> decide

theorem isWordChar_of_isIdentifierStart (h : isIdentifierStart ch = true) :
    isWordChar ch = true := by
  simp only [isIdentifierStart, isWordChar, Char.isAlphanum, Bool.or_eq_true] at h ⊢
  rcases h with h | h
  · simp [h]
  · simp [h]

theorem isIdentifierChar_of_isIdentifierStart (h : isIdentifierStart ch = true) :
    isIdentifierChar hyphens ch = true := by
  simp only [isIdentifierStart, isIdentifierChar, Char.isAlphanum, Bool.or_eq_true] at h ⊢
  rcases h with h | h
  · simp [h]
  · simp [h]

theorem Stops.blank (h : Stops beginsGap x) : Stops isBlank x := by
  intro c hc
  have hgap := h c hc
  simp only [beginsGap, Bool.or_eq_false_iff] at hgap
  exact hgap.1.1

theorem Stops.lineGap (h : Stops beginsGap x) : Stops isLineGap x := by
  intro c hc
  have hblank := h.blank c hc
  simp only [isBlank, Bool.or_eq_false_iff] at hblank
  simp [isLineGap, hblank.1.1]

/-- A text that starts with some word. -/
def BeginsWord (text : List Char) : Prop := ∃ ch ∈ text.head?, isWordChar ch = true

theorem BeginsWord.append (h : BeginsWord x) : BeginsWord (x ++ y) := by
  obtain ⟨ch, hch, hw⟩ := h
  exact ⟨ch, by simp [Option.mem_def.1 hch], hw⟩

theorem BeginsWord.stops (h : BeginsWord x) : Stops beginsGap x := by
  obtain ⟨ch, hch, hw⟩ := h
  intro c hc
  obtain rfl : ch = c := Option.some.inj (hch.symm.trans hc)
  exact beginsGap_of_isWordChar hw

theorem BeginsWord.length_pos (h : BeginsWord x) : 0 < x.length := by
  obtain ⟨ch, hch, -⟩ := h
  exact List.length_pos_of_mem (List.mem_of_mem_head? hch)

theorem beginsWord_of_ne_nil (hne : x ≠ []) (h : ∀ c ∈ x, isWordChar c = true) : BeginsWord x :=
  ⟨x.head hne, List.head?_eq_some_head hne, h _ (List.head_mem hne)⟩

theorem IsWord.begins (h : IsWord w) : BeginsWord w.toList :=
  beginsWord_of_ne_nil h.nonempty h.chars

theorem IsIdentifier.begins (h : IsIdentifier hyphens w) : BeginsWord w.toList := by
  obtain ⟨ch, hch, hstart⟩ := (Option.any_eq_true _ _).1 h.start
  exact ⟨ch, hch, isWordChar_of_isIdentifierStart hstart⟩

theorem beginsWord_toString (n : Int) : BeginsWord (toString n).toList := by
  refine beginsWord_of_ne_nil (Numeral.toList_toString_ne_nil n) fun c hc => ?_
  rcases Numeral.isDigit_or_of_mem_toString hc with hdigit | rfl
  · simp [isWordChar, Char.isAlphanum, hdigit]
  · decide

/-- How a character stands in a literal. -/
def escaping (c : Char) : List Char := if c = '"' ∨ c = '\\' then ['\\', c] else [c]

theorem toList_quoted (text : String) :
    (quoted text).toList = '"' :: (text.toList.flatMap escaping ++ ['"']) := by
  rw [quoted, String.toList_ofList]
  rfl

theorem reads_escaped (h : ch = '"' ∨ ch = '\\') : Reads (escaped '"') (ch :: x) x (· = ch) := by
  refine reads_next?.then ((reads_advance ch).bind fun _ _ => ?_)
  rcases h with rfl | rfl
  · exact reads_pure rfl
  · exact reads_pure rfl

theorem reads_literalTail (start : Position) (found todo : List Char) :
    Reads (literalTail start '"' found) (todo.flatMap escaping ++ '"' :: x) x
      (· = String.ofList (found.reverse ++ todo)) := by
  unfold literalTail
  induction todo generalizing found with
  | nil =>
    refine Reads.fix (reads_next?.then ((reads_advance '"').bind fun _ _ => reads_pure ?_))
    rw [List.append_nil]
  | cons c todo ih =>
    have hlast : String.ofList ((c :: found).reverse ++ todo) =
        String.ofList (found.reverse ++ c :: todo) := by simp
    by_cases hc : c = '"' ∨ c = '\\'
    · have htext : (c :: todo).flatMap escaping ++ '"' :: x =
          '\\' :: c :: (todo.flatMap escaping ++ '"' :: x) := by
        simp [escaping, hc]
      rw [htext]
      refine Reads.fix (reads_next?.then ((reads_advance '\\').bind fun _ _ =>
        (reads_escaped hc).then ?_))
      exact hlast ▸ (ih (c :: found)).guarded (by simp only [List.length_cons]; omega)
    · have htext : (c :: todo).flatMap escaping ++ '"' :: x =
          c :: (todo.flatMap escaping ++ '"' :: x) := by
        simp [escaping, hc]
      rw [htext]
      refine Reads.fix (reads_next?.then ?_)
      simp only [List.head?_cons]
      rw [if_neg fun h => hc (.inl h), if_neg fun h => hc (.inr h)]
      exact (reads_pass c c).bind fun _ _ => hlast ▸ (ih (c :: found)).guarded (Nat.lt_succ_self _)

/-- A comment up to the end of its line or to its closing mark. -/
inductive IsComment : List Char → Prop
  | line {mark line : List Char} (hmark : mark = ['#'] ∨ mark = ['/', '/']) (hline : '\n' ∉ line) :
      IsComment (mark ++ (line ++ ['\n']))
  | block {body : List Char} (hbody : ¬ ['*', '/'] <:+: body) :
      IsComment ('/' :: '*' :: (body ++ ['*', '/']))

/-- Blanks, with any comments among them. -/
inductive Gap : List Char → Prop
  | blanks {run : List Char} (hrun : ∀ c ∈ run, isBlank c = true) : Gap run
  | comment {run text gap : List Char} (hrun : ∀ c ∈ run, isBlank c = true)
      (htext : IsComment text) (hgap : Gap gap) : Gap (run ++ (text ++ gap))

theorem gap_nil : Gap [] := .blanks blank_nil

theorem gap_space : Gap [' '] := .blanks blank_space

theorem IsComment.head? {text : List Char} (h : IsComment text) :
    text.head? = some '#' ∨ text.head? = some '/' := by
  cases h with
  | line hmark _ => rcases hmark with rfl | rfl <;> simp
  | block _ => exact .inr rfl

theorem IsComment.ne_nil {text : List Char} (h : IsComment text) : text ≠ [] := by
  rintro rfl
  simpa using h.head?

theorem IsComment.stops {p : Char → Bool} {text : List Char} (h : IsComment text)
    (hhash : p '#' = false) (hslash : p '/' = false) (x : List Char) : Stops p (text ++ x) := by
  refine Stops.append ?_ h.ne_nil x
  intro ch hch
  rcases h.head? with hc | hc <;> rw [hc] at hch <;> obtain rfl := Option.some.inj hch <;>
    assumption

/-- A run of characters that no gap begins with goes no further than the gap behind it. -/
theorem Gap.stops {p : Char → Bool} (h : Gap gap) (hp : ∀ ch, beginsGap ch = true → p ch = false)
    (hx : Stops p x) : Stops p (gap ++ x) := by
  have hrun {run y : List Char} (hrun : ∀ c ∈ run, isBlank c = true) (hy : Stops p y) :
      Stops p (run ++ y) := by
    cases run with
    | nil => exact hy
    | cons ch run => exact stops_cons (hp ch (by simp [beginsGap, hrun ch List.mem_cons_self]))
  cases h with
  | blanks hblank => exact hrun hblank hx
  | comment hblank htext _ =>
    rw [List.append_assoc, List.append_assoc]
    exact hrun hblank (htext.stops (hp _ (by decide)) (hp _ (by decide)) _)

section Comments

theorem reads_passIf (ch : Char) (x : List Char) :
    Reads (passIf ch) x (if x.head? = some ch then x.tail else x) fun _ => True := by
  refine reads_next?.then ?_
  cases x with
  | nil => exact reads_pure trivial
  | cons first x =>
    simp only [List.head?_cons, Option.some.injEq, List.tail_cons]
    split
    · exact reads_pass ch first
    · exact reads_pure trivial

theorem reads_restOfLine {line : List Char} (hline : '\n' ∉ line) :
    Reads restOfLine (line ++ '\n' :: x) x fun _ => True := by
  have hchars : ∀ c ∈ line, (c != '\n') = true := by
    intro c hc
    rw [bne_iff_ne]
    rintro rfl
    exact hline hc
  exact (reads_takeWhile hchars (stops_cons rfl)).bind fun _ _ =>
    (reads_passIf '\n' ('\n' :: x)).bind fun _ _ => reads_pure trivial

theorem reads_lineComment {line : List Char} (hline : '\n' ∉ line) :
    Reads lineComment (line ++ '\n' :: x) x fun _ => True := by
  refine (reads_passIf ' ' _).bind fun _ _ => ?_
  -- One blank in front of the text of the comment is passed on its own.
  have hrest : ∃ line', '\n' ∉ line' ∧ (if (line ++ '\n' :: x).head? = some ' ' then
      (line ++ '\n' :: x).tail else line ++ '\n' :: x) = line' ++ '\n' :: x := by
    cases line with
    | nil => exact ⟨[], hline, rfl⟩
    | cons first line =>
      split
      · exact ⟨line, fun hm => hline (List.mem_cons_of_mem _ hm), rfl⟩
      · exact ⟨first :: line, hline, rfl⟩
  obtain ⟨line', hline', he⟩ := hrest
  rw [he]
  exact (reads_restOfLine hline').bind fun _ _ => reads_pure trivial

theorem reads_passAll (text : List Char) (x : List Char) :
    Reads (passAll text) (text ++ x) x fun _ => True := by
  intro c hc
  refine ⟨?_, trivial⟩
  change (c.passAll text).rest = x
  rw [Cursor.rest_passAll, hc, List.drop_left]

theorem reads_comment {text : List Char} (h : IsComment text) :
    Reads comment (text ++ x) x fun _ => True := by
  cases h with
  | line hmark hline =>
    rw [List.append_assoc, List.append_assoc, List.singleton_append]
    rcases hmark with rfl | rfl
    · exact reads_rest.then ((reads_pass '#' '#').bind fun _ _ => reads_lineComment hline)
    · exact reads_rest.then
        ((reads_passAll ['/', '/'] _).bind fun _ _ => reads_lineComment hline)
  | @block body hbody =>
    refine reads_rest.then ?_
    have hclose : CommentText.beforeClose (body ++ ['*', '/'] ++ x) = some body := by
      simpa using CommentText.beforeClose_of_not_infix hbody x
    simp only [List.cons_append, hclose]
    have hpass := reads_passAll (['/', '*'] ++ body ++ ['*', '/']) x
    simp only [List.cons_append, List.nil_append] at hpass
    exact hpass.bind fun _ _ => reads_pure trivial

theorem reads_comments (hgap : Gap gap) (hx : Stops beginsGap x) :
    Reads comments (gap ++ x) x fun _ => True := by
  unfold comments
  refine reads_fix (g := ()) (T := fun _ _ text => ∃ gap, Gap gap ∧ text = gap ++ x)
    (P := fun _ _ _ => True) ?_ ⟨gap, hgap, rfl⟩
  rintro again _ found _ hagain ⟨gap, hgap, rfl⟩
  cases hgap with
  | blanks hrun =>
    refine (reads_skipWhile hrun hx.blank).bind fun _ _ => reads_next?.then ?_
    split
    · next h => exact absurd (hx '/' h) (by decide)
    · next h => exact absurd (hx '#' h) (by decide)
    · exact reads_pure trivial
  | @comment run text gap hrun htext hgap =>
    rw [List.append_assoc, List.append_assoc] at hagain ⊢
    refine (reads_skipWhile hrun (htext.stops rfl rfl _)).bind fun _ _ => reads_next?.then ?_
    have hlt : (gap ++ x).length < (run ++ (text ++ (gap ++ x))).length := by
      have hpos := List.length_pos_iff.2 htext.ne_nil
      simp only [List.length_append]
      omega
    have hcomment : Reads (do
        let text ← comment
        again (found ++ [text])) (text ++ (gap ++ x)) x fun _ => True :=
      (reads_comment htext).bind fun _ _ => hagain () _ _ hlt ⟨gap, hgap, rfl⟩
    rw [List.head?_append_of_ne_nil _ htext.ne_nil]
    rcases htext.head? with hc | hc <;> rw [hc] <;> exact hcomment

end Comments

section Gaps

variable (hgap : Gap gap)

include hgap

theorem reads_skipGap (hx : Stops beginsGap x) : Reads skipGap (gap ++ x) x fun _ => True := by
  change Reads (comments >>= fun _ => pure ()) (gap ++ x) x fun _ => True
  exact (reads_comments hgap hx).bind fun _ _ => reads_pure trivial

theorem reads_expect (fault : SyntaxFault) (hch : beginsGap ch = false) :
    Reads (expect ch fault) (gap ++ ch :: x) x fun _ => True := by
  refine reads_position.bind fun _ _ => ?_
  have hpeek : Reads (peek true) (gap ++ ch :: x) (ch :: x) (· = ch) :=
    (reads_skipGap hgap (stops_cons hch)).bind fun _ _ => reads_next?.then (reads_pure rfl)
  have hread : Reads read (gap ++ ch :: x) x (· = ch) :=
    hpeek.then ((reads_advance ch).bind fun _ _ => reads_pure rfl)
  refine hread.then ?_
  rw [if_pos rfl]
  exact reads_pure trivial

theorem reads_word (hw : IsWord w) (hx : Stops isWordChar x) :
    Reads word (gap ++ (w.toList ++ x)) x (· = w) := by
  refine (reads_skipGap hgap hw.begins.append.stops).bind fun _ _ =>
    (reads_takeWhile hw.chars hx).then ?_
  rw [if_neg hw.nonempty]
  exact reads_pure String.ofList_toList

theorem reads_identifier (hw : IsIdentifier hyphens w) (hx : Stops (isIdentifierChar hyphens) x) :
    Reads (identifier hyphens) (gap ++ (w.toList ++ x)) x (· = w) := by
  refine (reads_skipGap hgap hw.begins.append.stops).bind fun _ _ => reads_next?.then ?_
  have hstart : (w.toList ++ x).head?.any isIdentifierStart = true := by
    have h := hw.start
    cases hl : w.toList with
    | nil => simp [hl] at h
    | cons first rest => simpa [hl] using h
  rw [if_pos hstart]
  exact (reads_takeWhile hw.chars hx).then (reads_pure String.ofList_toList)

theorem reads_literal (text : String) :
    Reads literal (gap ++ ((quoted text).toList ++ x)) x (· = text) := by
  rw [toList_quoted, List.cons_append, List.append_assoc]
  refine (reads_skipGap hgap (stops_cons (by decide))).bind fun _ _ =>
    reads_position.bind fun start _ => reads_next?.then ?_
  change Reads (advance >>= fun _ => literalTail start '"' []) _ _ _
  refine (reads_advance '"').bind fun _ _ => ?_
  refine (reads_literalTail start [] text.toList).imp fun found hfound => ?_
  rw [hfound]
  exact String.ofList_toList

end Gaps

section Blanks

variable (hgap : ∀ c ∈ gap, isBlank c = true)

include hgap

theorem reads_noComments (hx : Stops beginsGap x) : Reads comments (gap ++ x) x (· = []) := by
  unfold comments
  apply Reads.fix
  refine (reads_skipWhile hgap hx.blank).bind fun _ _ => reads_next?.then ?_
  split
  · next h => exact absurd (hx '/' h) (by decide)
  · next h => exact absurd (hx '#' h) (by decide)
  · exact reads_pure rfl

theorem reads_documentation (hx : Stops beginsGap x) :
    Reads documentation (gap ++ x) x (· = "") :=
  (reads_noComments hgap hx).then (reads_pure rfl)

theorem reads_peek (acrossComments : Bool) (hx : Stops beginsGap x) (hch : x.head? = some ch) :
    Reads (peek acrossComments) (gap ++ x) x (· = ch) := by
  have hskip : Reads (skip acrossComments) (gap ++ x) x fun _ => True := by
    cases acrossComments with
    | true => exact reads_skipGap (.blanks hgap) hx
    | false => exact reads_skipWhile hgap hx.blank
  refine hskip.bind fun _ _ => reads_next?.then ?_
  rw [hch]
  exact reads_pure rfl

theorem reads_integer {n : Int} (hn : Numeral.fitsInt32 n = true) (hx : Stops isNumeralChar x) :
    Reads integer (gap ++ ((toString n).toList ++ x)) x (· = n) := by
  have hchars : ∀ c ∈ (toString n).toList, isNumeralChar c = true := by
    intro c hc
    rcases Numeral.isDigit_or_of_mem_toString hc with hdigit | rfl
    · simp [isNumeralChar, Char.isAlphanum, hdigit]
    · decide
  have hblank : Stops isBlank ((toString n).toList ++ x) :=
    stops_append (Numeral.toList_toString_ne_nil n) fun c hc =>
      isBlank_of_isNumeralChar (hchars c hc)
  refine (reads_skipWhile hgap hblank).bind fun _ _ => reads_position.bind fun _ _ =>
    (reads_takeWhile hchars hx).then ?_
  rw [if_neg (Numeral.toList_toString_ne_nil n), Numeral.int32?_toString hn]
  exact reads_pure rfl

end Blanks

/-- The end of an item, up to the next one. -/
theorem reads_trailing (hx : Stops beginsGap x) :
    Reads (trailing true) (';' :: ' ' :: x) x (· = "") := by
  have hnone : ∀ c ∈ ([] : List Char), isLineGap c = true := by simp
  have hspace : ∀ c ∈ [' '], isLineGap c = true := by simp [isLineGap]
  have hseparator : Reads (skipSeparator true) (';' :: ' ' :: x) x fun _ => True := by
    refine (reads_skipWhile hnone (stops_cons (by decide))).bind fun _ _ => reads_next?.then ?_
    exact (reads_advance ';').bind fun _ _ => reads_skipWhile hspace hx.lineGap
  refine hseparator.bind fun _ _ => reads_rest.then ?_
  split
  · exact absurd (hx '#' rfl) (by decide)
  · exact absurd (hx '/' rfl) (by decide)
  · exact absurd (hx '/' rfl) (by decide)
  · exact absurd (hx '/' rfl) (by decide)
  · exact reads_pure rfl

section Found

theorem ends_comments (c : Cursor) :
    Ends comments c (fun _ c' => Stops beginsGap c'.rest) fun _ => True := by
  refine ends_fix (Q := fun _ _ _ c' => Stops beginsGap c'.rest) ?_ _ _
  intro again hagain found c
  refine (ends_skipWhile isBlank c).bind fun _ c hblank => ends_next?.bind fun _ c' hnext => ?_
  obtain ⟨rfl, rfl⟩ := hnext
  split
  · exact (ends_true comment c').bind fun _ c _ => hagain _ c
  · exact (ends_true comment c').bind fun _ c _ => hagain _ c
  · next hslash hhash =>
    intro ch hch
    have hb := hblank ch hch
    simp only [beginsGap, hb, Bool.false_or, Bool.or_eq_false_iff, beq_eq_false_iff_ne]
    constructor
    · rintro rfl
      exact hslash hch
    · rintro rfl
      exact hhash hch

theorem ends_skipGap (c : Cursor) :
    Ends skipGap c (fun _ c' => Stops beginsGap c'.rest) fun _ => True := by
  change Ends (comments >>= fun _ => pure ()) c _ _
  exact (ends_comments c).bind fun _ c' hstops => hstops

theorem ends_peek (c : Cursor) :
    Ends (peek true) c (fun ch c' => Stops beginsGap c'.rest ∧ c'.rest.head? = some ch)
      fun _ => True := by
  refine (ends_skipGap c).bind fun _ c hstops => ends_next?.bind fun _ c' hnext => ?_
  obtain ⟨rfl, rfl⟩ := hnext
  split
  · next ch hch => exact ⟨hstops, hch⟩
  · trivial

theorem ends_word (c : Cursor) :
    Ends word c (fun w _ => IsWord w ∧ (Stops beginsGap c.rest → w.toList.head? = c.rest.head?))
      fun _ => True := by
  have hskip : Ends skipGap c (fun _ c' => Stops beginsGap c.rest → c'.rest = c.rest)
      fun _ => True := by
    by_cases hc : Stops beginsGap c.rest
    · exact (reads_skipGap gap_nil hc c rfl).imp (fun _ _ h _ => h.1) fun _ _ => trivial
    · exact (ends_true skipGap c).imp (fun _ _ _ h => absurd h hc) fun _ _ => trivial
  refine hskip.bind fun _ c' hrest => (ends_takeWhile isWordChar c').bind fun run _ hrun => ?_
  split
  · trivial
  · next hne =>
    refine ⟨⟨?_, ?_⟩, fun hc => ?_⟩
    · rwa [String.toList_ofList]
    · rw [String.toList_ofList]
      exact hrun.1
    · have hch := List.head?_eq_some_head hne
      rw [String.toList_ofList, ← hrest hc, hch]
      exact (Option.filter_eq_some_iff.1 (hrun.2.symm.trans hch)).1.symm

theorem yields_identifier (hyphens : Bool) :
    Yields (identifier hyphens) (IsIdentifier hyphens) := by
  refine yields_bind _ fun _ c => ends_next?.bind fun _ c' hnext => ?_
  obtain ⟨rfl, rfl⟩ := hnext
  split
  · next hstart =>
    refine (ends_takeWhile _ c').bind fun run _ hrun => ⟨?_, ?_⟩
    · obtain ⟨ch, hch, hbegins⟩ := (Option.any_eq_true _ _).1 hstart
      have hkept : c'.rest.head?.filter (isIdentifierChar hyphens) = some ch :=
        Option.filter_eq_some_iff.2 ⟨hch, isIdentifierChar_of_isIdentifierStart hbegins⟩
      rw [String.toList_ofList, hrun.2, hkept]
      exact hbegins
    · rw [String.toList_ofList]
      exact hrun.1
  · trivial

theorem yields_integer : Yields integer (Numeral.fitsInt32 · = true) := by
  refine yields_bind _ fun _ => yields_bind _ fun _ => yields_bind _ fun run => ?_
  split
  · exact yields_fail _
  · split
    · next hvalue => exact yields_pure (Numeral.fitsInt32_of_int32? hvalue)
    · exact yields_failAt _ _

end Found

end Reader

end ThriftIdl
