import ThriftIdl.Proofs.CommentRuns
import ThriftIdl.Proofs.Layout
import ThriftIdl.Proofs.ReadingInStep

namespace ThriftIdl

open Layout

namespace Cursor

/-- Two points in front of the same text in two layouts, within some angle brackets. -/
def Abreast (depth : Nat) (c c' : Cursor) : Prop := Relaid true depth c.rest c'.rest

/-- Abreast, but for the blanks that come first. -/
def Loose (depth : Nat) (c c' : Cursor) : Prop :=
  Relaid true depth (c.rest.dropWhile Reader.isBlank) (c'.rest.dropWhile Reader.isBlank)

variable {depth : Nat} {c c' : Cursor} {ch : Char} {x : List Char}

theorem Abreast.loose (h : Abreast depth c c') : Loose depth c c' := h.dropBlanks

theorem Abreast.advance (h : Abreast depth c c') (hx : c.rest = ch :: x)
    (hch : isPlain ch = true) : Abreast (depthAfter depth ch) c.advance c'.advance := by
  unfold Abreast at h
  rw [hx] at h
  obtain ⟨-, x', hx', hrest⟩ := h.of_cons hch
  simpa [Abreast, Cursor.advance, hx, hx'] using hrest

theorem Abreast.head?_eq (h : Abreast depth c c') (hc : Reader.Stops Reader.isBlank c.rest) :
    c'.rest.head? = c.rest.head? :=
  Relaid.head?_eq h hc

end Cursor

namespace Reader

variable {depth : Nat} {c c' d e : Cursor} {x y body : List Char} {quote ch : Char}
  {fault : SyntaxFault}

open Cursor (Abreast Loose)

section Comments

theorem inStep_skipBlanks (h : Loose depth c c') : InStep skipBlanks skipBlanks c c'
    fun _ d _ d' => Abreast depth d d' ∧ Stops isBlank d.rest := by
  refine inStep_skipWhile.imp fun _ d _ d' hd => ?_
  obtain ⟨hd, hd'⟩ := hd
  unfold Abreast
  rw [hd, hd']
  exact ⟨h, stops_dropWhile _ _⟩

theorem fails_comment (hx : c.rest = '/' :: x) (hslash : Stops (fun c => c == '/' || c == '*') x) :
    Fails comment c := by
  refine Ends.bind (Q := fun text _ => text = '/' :: x) hx ?_
  rintro _ d rfl
  split
  · next h => cases h
  · next h =>
    cases h
    cases hslash '/' rfl
  · next h =>
    cases h
    cases hslash '*' rfl
  · exact fails_fail _

/-- Without comments nothing but blanks is passed. -/
theorem inStep_comments (h : Loose depth c c') : InStep comments comments c c'
    fun found d found' d' => (found = [] ∧ found' = []) ∧
      Abreast depth d d' ∧ Stops isBlank d.rest := by
  unfold comments
  refine inStep_fix (γ := Unit) (g := ()) (D := fun _ => False) (fun _ _ _ h => h.elim)
    (T := fun _ found found' c c' => (found = [] ∧ found' = []) ∧ Loose depth c c')
    (Q := fun _ _ _ found d found' d' => (found = [] ∧ found' = []) ∧
      Abreast depth d d' ∧ Stops isBlank d.rest) ?_ ⟨⟨rfl, rfl⟩, h⟩
  rintro again again' _ _ _ c c' - - ⟨⟨rfl, rfl⟩, h⟩
  refine (inStep_skipBlanks h).bind fun _ d _ d' hd => ?_
  obtain ⟨hd, hstops⟩ := hd
  refine inStep_next?.bind fun next e next' e' hnext => ?_
  obtain ⟨⟨rfl, rfl⟩, hnext', rfl⟩ := hnext
  rw [hd.head?_eq hstops] at hnext'
  rw [hnext']
  split
  · next hhead =>
    obtain ⟨x, hx⟩ := List.head?_eq_some_iff.1 hhead
    unfold Abreast at hd
    rw [hx] at hd
    exact (fails_comment hx ((hd.of_cons rfl).1 rfl)).bind.inStep
  · next hhead =>
    obtain ⟨x, hx⟩ := List.head?_eq_some_iff.1 hhead
    unfold Abreast at hd
    rw [hx] at hd
    exact hd.head_ne_hash.elim
  · exact inStep_pure ⟨⟨rfl, rfl⟩, hd, hstops⟩

theorem inStep_documentation (h : Loose depth c c') : InStep documentation documentation c c'
    fun doc d doc' d' => (doc = "" ∧ doc' = "") ∧ Abreast depth d d' ∧ Stops isBlank d.rest := by
  refine (inStep_comments h).bind fun found d found' d' hd => ?_
  obtain ⟨⟨rfl, rfl⟩, hd⟩ := hd
  exact inStep_pure ⟨⟨rfl, rfl⟩, hd⟩

theorem inStep_skipGap (h : Loose depth c c') : InStep skipGap skipGap c c'
    fun _ d _ d' => Abreast depth d d' ∧ Stops isBlank d.rest := by
  change InStep (comments >>= fun _ => pure ()) (comments >>= fun _ => pure ()) c c' _
  exact (inStep_comments h).bind fun _ _ _ _ hd => inStep_pure hd.2

theorem inStep_skip (acrossComments : Bool) (h : Loose depth c c') :
    InStep (skip acrossComments) (skip acrossComments) c c'
      fun _ d _ d' => Abreast depth d d' ∧ Stops isBlank d.rest := by
  cases acrossComments with
  | true => exact inStep_skipGap h
  | false => exact inStep_skipBlanks h

end Comments

section Lexemes

theorem inStep_peek (acrossComments : Bool) (h : Loose depth c c') :
    InStep (peek acrossComments) (peek acrossComments) c c' fun ch d ch' d' =>
      (ch' = ch ∧ ∃ x, d.rest = ch :: x) ∧ Abreast depth d d' ∧ Stops isBlank d.rest := by
  refine (inStep_skip acrossComments h).bind fun _ d _ d' hd => ?_
  refine inStep_next?.bind fun next e next' e' hnext => ?_
  obtain ⟨⟨rfl, rfl⟩, hnext', rfl⟩ := hnext
  rw [hd.1.head?_eq hd.2] at hnext'
  rw [hnext']
  split
  · next hhead => exact inStep_pure ⟨⟨rfl, List.head?_eq_some_iff.1 hhead⟩, hd⟩
  · exact (fails_fail _).inStep

theorem inStep_expect (hplain : isPlain ch = true) (h : Loose depth c c') :
    InStep (expect ch fault) (expect ch fault) c c'
      fun _ d _ d' => Abreast (depthAfter depth ch) d d' := by
  refine inStep_position.bind fun _ e _ e' he => ?_
  obtain ⟨rfl, rfl⟩ := he
  have hread : InStep read read e e' fun found d found' d' =>
      found' = found ∧ (found = ch → Abreast (depthAfter depth ch) d d') := by
    refine (inStep_peek true h).bind fun found d found' d' hd => ?_
    obtain ⟨⟨rfl, x, hx⟩, hd, -⟩ := hd
    refine inStep_advance.bind fun _ f _ f' hf => ?_
    obtain ⟨rfl, rfl⟩ := hf
    exact inStep_pure ⟨rfl, fun hfound => (hfound ▸ hd.advance hx (hfound ▸ hplain) :)⟩
  refine hread.bind fun found d found' d' hd => ?_
  obtain ⟨rfl, hd⟩ := hd
  split
  · next hfound => exact inStep_pure (hd hfound)
  · exact (fails_failAt _ _).inStep

theorem inStep_takeWhile_inert {p : Char → Bool} (hp : Inert p) (h : Abreast depth c c') :
    InStep (takeWhile p) (takeWhile p) c c' fun run d run' d' =>
      run' = run ∧ Abreast depth d d' := by
  refine inStep_takeWhile.imp fun run d run' d' hd => ?_
  obtain ⟨⟨rfl, hd⟩, rfl, hd'⟩ := hd
  obtain ⟨hrun, hrest⟩ := Relaid.runs h hp
  unfold Abreast
  rw [hd, hd']
  exact ⟨hrun, hrest⟩

theorem inert_isWordChar : Inert isWordChar := by
  intro ch hch
  refine ⟨?_, ?_, ?_, ?_⟩
  · exact (stops_cons (beginsGap_of_isWordChar hch) : Stops beginsGap [ch]).blank ch rfl
  · by_contra hquote
    simp only [Bool.not_eq_false, isQuote, Bool.or_eq_true, beq_iff_eq] at hquote
    obtain rfl | rfl := hquote <;> cases hch
  · rintro rfl
    cases hch
  · rintro rfl
    cases hch

theorem inert_isIdentifierChar (hyphens : Bool) : Inert (isIdentifierChar hyphens) := by
  refine inert_isWordChar.of_imp fun ch hch => ?_
  unfold isIdentifierChar at hch
  unfold isWordChar
  grind

theorem inert_isNumeralChar : Inert isNumeralChar := by
  refine inert_isWordChar.of_imp fun ch hch => ?_
  unfold isNumeralChar at hch
  unfold isWordChar
  grind

theorem inStep_word (h : Loose depth c c') : InStep word word c c' fun w d w' d' =>
    w' = w ∧ Abreast depth d d' := by
  refine (inStep_skipGap h).bind fun _ d _ d' hd => ?_
  refine (inStep_takeWhile_inert inert_isWordChar hd.1).bind fun run e run' e' he => ?_
  obtain ⟨rfl, he⟩ := he
  split
  · exact (fails_fail _).inStep
  · exact inStep_pure ⟨rfl, he⟩

theorem inStep_identifier (hyphens : Bool) (h : Loose depth c c') :
    InStep (identifier hyphens) (identifier hyphens) c c' fun w d w' d' =>
      w' = w ∧ Abreast depth d d' := by
  refine (inStep_skipGap h).bind fun _ d _ d' hd => ?_
  refine inStep_next?.bind fun next e next' e' hnext => ?_
  obtain ⟨⟨rfl, rfl⟩, hnext', rfl⟩ := hnext
  rw [hd.1.head?_eq hd.2] at hnext'
  rw [hnext']
  split
  · refine (inStep_takeWhile_inert (inert_isIdentifierChar hyphens) hd.1).bind
      fun run e run' e' he => ?_
    obtain ⟨rfl, he⟩ := he
    exact inStep_pure ⟨rfl, he⟩
  · exact (fails_fail _).inStep

theorem inStep_integer (h : Loose depth c c') : InStep integer integer c c' fun n d n' d' =>
    n' = n ∧ Abreast depth d d' := by
  refine (inStep_skipBlanks h).bind fun _ d _ d' hd => ?_
  refine inStep_position.bind fun _ e _ e' he => ?_
  obtain ⟨rfl, rfl⟩ := he
  refine (inStep_takeWhile_inert inert_isNumeralChar hd.1).bind fun run f run' f' hf => ?_
  obtain ⟨rfl, hf⟩ := hf
  split
  · exact (fails_fail _).inStep
  · split
    · exact inStep_pure ⟨rfl, hf⟩
    · exact (fails_failAt _ _).inStep

theorem inStep_scopeName (h : Loose depth c c') :
    InStep scopeName scopeName c c' fun w d w' d' => w' = w ∧ Abreast depth d d' := by
  refine (inStep_skipGap h).bind fun _ d _ d' hd => ?_
  refine inStep_next?.bind fun next e next' e' hnext => ?_
  obtain ⟨⟨rfl, rfl⟩, hnext', rfl⟩ := hnext
  rw [hd.1.head?_eq hd.2] at hnext'
  rw [hnext']
  split
  · exact (fails_fail _).inStep
  · next hhead =>
    obtain ⟨x, hx⟩ := List.head?_eq_some_iff.1 hhead
    refine inStep_advance.bind fun _ f _ f' hf => ?_
    obtain ⟨rfl, rfl⟩ := hf
    exact inStep_pure ⟨rfl, hd.1.advance hx rfl⟩
  · exact inStep_word hd.1.loose

end Lexemes

section Literals

variable {x' : List Char}

theorem inStep_escaped (quote : Char) (hc : c.rest = ch :: x) (hc' : c'.rest = ch :: x') :
    InStep (escaped quote) (escaped quote) c c' fun value d value' d' =>
      value' = value ∧ d.rest = x ∧ d'.rest = x' := by
  refine inStep_next?.bind fun next d next' d' hnext => ?_
  obtain ⟨⟨rfl, rfl⟩, rfl, rfl⟩ := hnext
  rw [hc, hc', List.head?_cons, List.head?_cons]
  refine inStep_advance.bind fun _ e _ e' he => ?_
  obtain ⟨rfl, rfl⟩ := he
  split
  · exact inStep_pure ⟨rfl, by simp [Cursor.advance, hc], by simp [Cursor.advance, hc']⟩
  · exact (fails_fail _).inStep

theorem inStep_literalTail {start start' : Position} (hquote : isQuote quote = true)
    (hbody : LiteralBody quote body) (hc : c.rest = body ++ quote :: x)
    (hc' : c'.rest = body ++ quote :: x') (found : List Char) :
    InStep (literalTail start quote found) (literalTail start' quote found) c c'
      fun text d text' d' => text' = text ∧ d.rest = x ∧ d'.rest = x' := by
  have hne : quote ≠ '\n' ∧ quote ≠ '\\' := by
    constructor <;> (rintro rfl; cases hquote)
  unfold literalTail
  refine inStep_fix (D := fun _ => False) (fun _ _ _ h => h.elim)
    (T := fun body found found' c c' => found' = found ∧ LiteralBody quote body ∧
      c.rest = body ++ quote :: x ∧ c'.rest = body ++ quote :: x')
    (Q := fun _ _ _ text d text' d' => text' = text ∧ d.rest = x ∧ d'.rest = x')
    ?_ ⟨rfl, hbody, hc, hc'⟩
  rintro again again' body _ found c c' - hagain ⟨rfl, hbody, hc, hc'⟩
  refine inStep_next?.bind fun next d next' d' hnext => ?_
  obtain ⟨⟨rfl, rfl⟩, rfl, rfl⟩ := hnext
  cases hbody with
  | nil =>
    simp only [hc, hc', List.nil_append, List.head?_cons, if_pos]
    refine inStep_advance.bind fun _ e _ e' he => ?_
    obtain ⟨rfl, rfl⟩ := he
    exact inStep_pure ⟨rfl, by simp [Cursor.advance, hc], by simp [Cursor.advance, hc']⟩
  | @escape body ch rest =>
    simp only [hc, hc', List.cons_append, List.head?_cons, if_neg hne.2.symm, if_pos]
    refine inStep_advance.bind fun _ e _ e' he => ?_
    obtain ⟨rfl, rfl⟩ := he
    have hpast : d'.Past d'.advance :=
      Cursor.advance_eq_pass (show '\\' ≠ '\n' by decide) ▸ .pass hc'
    have hrest : d.advance.rest = ch :: (body ++ quote :: x) := by simp [Cursor.advance, hc]
    have hrest' : d'.advance.rest = ch :: (body ++ quote :: x') := by simp [Cursor.advance, hc']
    have hescaped := inStep_escaped quote hrest hrest'
    refine (hescaped.walks (walks_escaped hne.1 (.refl _))).bind fun value f value' f' hf => ?_
    obtain ⟨⟨rfl, hf, hf'⟩, hwalked, -⟩ := hf
    exact hagain body _ _ f f' (hpast.trans hwalked) ⟨rfl, rest, hf, hf'⟩
  | @char ch body hquote hescape rest =>
    simp only [hc, hc', List.cons_append, List.head?_cons, if_neg hquote, if_neg hescape]
    refine inStep_pass.bind fun _ e _ e' he => ?_
    obtain ⟨rfl, rfl⟩ := he
    exact hagain body _ _ _ _ (.pass hc') ⟨rfl, rest, by simp [Cursor.rest_pass, hc],
      by simp [Cursor.rest_pass, hc']⟩

theorem inStep_literal (h : Loose depth c c') : InStep literal literal c c'
    fun text d text' d' => text' = text ∧ Abreast depth d d' := by
  refine (inStep_skipGap h).bind fun _ d _ d' hd => ?_
  refine inStep_position.bind fun _ e _ e' he => ?_
  obtain ⟨rfl, rfl⟩ := he
  refine inStep_next?.bind fun next f next' f' hnext => ?_
  obtain ⟨⟨rfl, rfl⟩, hnext', rfl⟩ := hnext
  rw [hd.1.head?_eq hd.2] at hnext'
  rw [hnext']
  split
  · next quote hhead =>
    obtain ⟨hhead, hquote⟩ := Option.filter_eq_some_iff.1 hhead
    obtain ⟨y, hy⟩ := List.head?_eq_some_iff.1 hhead
    have habreast := hd.1
    unfold Abreast at habreast
    rw [hy] at habreast
    obtain ⟨body, z, z', hbody, rfl, hy', hz⟩ := habreast.of_quote hquote
    refine inStep_advance.bind fun _ g _ g' hg => ?_
    obtain ⟨rfl, rfl⟩ := hg
    have hrest : f.advance.rest = body ++ quote :: z := by simp [Cursor.advance, hy]
    have hrest' : f'.advance.rest = body ++ quote :: z' := by simp [Cursor.advance, hy']
    refine (inStep_literalTail hquote hbody hrest hrest' []).imp fun text g text' g' hg => ?_
    obtain ⟨rfl, hg, hg'⟩ := hg
    refine ⟨rfl, ?_⟩
    unfold Abreast
    rwa [hg, hg']
  · exact (fails_fail _).inStep

end Literals

section Trailing

/-- In front of something that begins no item and is no comment. -/
def Doomed (c : Cursor) : Prop :=
  ∃ ch x, c.rest.dropWhile isBlank = ch :: x ∧
    (isSeparator ch = true ∨ ch = '/' ∧ Stops (fun c => c == '/' || c == '*') x)

theorem dropWhile_lineGap (x : List Char) :
    (x.dropWhile isLineGap).dropWhile isBlank = x.dropWhile isBlank := by
  induction x with
  | nil => rfl
  | cons ch x ih =>
    cases hch : isLineGap ch with
    | true => simpa [hch, Layout.isBlank_of_isLineGap hch] using ih
    | false => simp [hch]

theorem dropWhile_isBlank_cons (hx : c.rest = ch :: x) (hch : isBlank ch = false) :
    c.rest.dropWhile isBlank = ch :: x := by
  rw [hx, List.dropWhile_cons_of_neg (by simp [hch])]

theorem reads_skipLineGap (x : List Char) :
    Reads (skipWhile isLineGap) x (x.dropWhile isLineGap) fun _ => True := by
  rintro c rfl
  exact ⟨rest_passAll_takeWhile _ _, trivial⟩

theorem reads_skipSeparator (hx : x.dropWhile isLineGap = ch :: y) (hch : isSeparator ch = true) :
    Reads (skipSeparator true) x (y.dropWhile isLineGap) fun _ => True := by
  refine (reads_skipLineGap x).bind fun _ _ => ?_
  rw [hx]
  refine reads_next?.then ?_
  simp only [isSeparator, Bool.or_eq_true, beq_iff_eq] at hch
  obtain rfl | rfl := hch <;> exact (reads_advance _).bind fun _ _ => reads_skipLineGap y

theorem reads_skipSeparator_none (hx : Stops isSeparator (x.dropWhile isLineGap)) :
    Reads (skipSeparator true) x (x.dropWhile isLineGap) fun _ => True := by
  refine (reads_skipLineGap x).bind fun _ _ => reads_next?.then ?_
  split
  · next h => cases hx _ h
  · next h => cases hx _ h
  · exact reads_pure trivial

theorem stops_separator (h : ∀ ch y, isSeparator ch = true → x.dropWhile isLineGap = ch :: y →
    x.dropWhile isBlank ≠ ch :: y) : Stops isSeparator (x.dropWhile isLineGap) := by
  intro ch hch
  obtain ⟨y, hy⟩ := List.head?_eq_some_iff.1 hch
  cases hs : isSeparator ch with
  | false => rfl
  | true =>
    refine absurd ?_ (h ch y hs hy)
    rw [← dropWhile_lineGap, hy, List.dropWhile_cons_of_neg (by simp [isSeparator_blank hs])]

theorem inStepOr_skipSeparator (h : Abreast 0 c c') :
    InStepOr Doomed (skipSeparator true) (skipSeparator true) c c'
      fun _ d _ d' => Loose 0 d d' := by
  by_cases hseparator : ∃ ch ∈ (c.rest.dropWhile isBlank).head?, isSeparator ch = true
  · obtain ⟨ch, hch, hs⟩ := hseparator
    obtain ⟨x, hx⟩ := List.head?_eq_some_iff.1 hch
    have hafter : Relaid true 0 (ch :: x) (c'.rest.dropWhile isBlank) := hx ▸ h.loose
    obtain ⟨hplain, hdepth⟩ := isSeparator_plain 0 hs
    obtain ⟨-, x', hx', hrest⟩ := hafter.of_cons hplain
    rw [hdepth] at hrest
    by_cases hline : c.rest.dropWhile isLineGap = ch :: x
    · have hline' := (Relaid.dropWhile_lineGap h ⟨ch, hch, hs⟩).trans hx'
      refine (Reads.inStep (reads_skipSeparator hline hs) (reads_skipSeparator hline' hs)).or.imp ?_
      rintro _ d _ d' ⟨⟨hd, -⟩, hd', -⟩
      unfold Loose
      rw [hd, hd', dropWhile_lineGap, dropWhile_lineGap]
      exact hrest.dropBlanks
    · -- The separator stands on a later line, and is left for an item that it cannot begin.
      have hnone : Stops isSeparator (c.rest.dropWhile isLineGap) := by
        refine stops_separator fun ch' y _ hy hy' => hline ?_
        rw [hy, ← hy', hx]
      refine inStepOr_of_ends ((reads_skipSeparator_none hnone c rfl).imp ?_ fun _ he => he.elim)
      rintro _ d ⟨hd, -⟩
      exact ⟨ch, x, by rw [hd, dropWhile_lineGap, hx], .inl hs⟩
  · have hhead : (c'.rest.dropWhile isBlank).head? = (c.rest.dropWhile isBlank).head? :=
      Relaid.head?_eq h.loose (stops_dropWhile _ _)
    have hnone {x : List Char} (hx : (x.dropWhile isBlank).head? = (c.rest.dropWhile isBlank).head?) :
        Stops isSeparator (x.dropWhile isLineGap) := by
      refine stops_separator fun ch y hs _ hy => hseparator ⟨ch, ?_, hs⟩
      rw [← hx, hy, List.head?_cons, Option.mem_some]
    refine (Reads.inStep (reads_skipSeparator_none (hnone rfl))
      (reads_skipSeparator_none (hnone hhead))).or.imp ?_
    rintro _ d _ d' ⟨⟨hd, -⟩, hd', -⟩
    unfold Loose
    rw [hd, hd', dropWhile_lineGap, dropWhile_lineGap]
    exact h.loose

/-- No comment begins a text, though a slash may. -/
def Uncommented (text : List Char) : Prop :=
  ∀ ch x, text = ch :: x → ch ≠ '#' ∧ (ch = '/' → Stops (fun c => c == '/' || c == '*') x)

theorem Uncommented.of_dropWhile (h : Uncommented (x.dropWhile isBlank)) : Uncommented x := by
  rintro ch y rfl
  cases hch : isBlank ch with
  | true =>
    constructor
    · rintro rfl
      cases hch
    · rintro rfl
      cases hch
  | false => exact h ch y (List.dropWhile_cons_of_neg (by simp [hch]))

theorem Doomed.uncommented (h : Doomed c) : Uncommented c.rest := by
  obtain ⟨ch, x, hx, hch⟩ := h
  refine .of_dropWhile fun ch' x' hx' => ?_
  obtain ⟨rfl, rfl⟩ := List.cons.inj (hx.symm.trans hx')
  obtain hs | ⟨rfl, hslash⟩ := hch
  · constructor
    · rintro rfl
      cases hs
    · rintro rfl
      cases hs
  · exact ⟨by decide, fun _ => hslash⟩

theorem uncommented_of_loose (h : Loose 0 c c') : Uncommented c.rest := by
  refine .of_dropWhile fun ch x hx => ?_
  unfold Loose at h
  rw [hx] at h
  refine ⟨?_, ?_⟩
  · rintro rfl
    exact h.head_ne_hash
  · rintro rfl
    exact (h.of_cons rfl).1 rfl

theorem ends_trailing (hskip : (skipSeparator true).run c = .ok ((), d))
    (hd : Uncommented d.rest) :
    Ends (trailing true) c (fun doc e => doc = "" ∧ e = d) fun _ => True := by
  refine Ends.bind (Q := fun _ e => e = d) ?_ ?_
  · unfold Ends
    rw [hskip]
    rfl
  rintro _ d rfl
  refine Ends.bind (Q := fun text e => text = d.rest ∧ e = d) ⟨rfl, rfl⟩ ?_
  rintro _ _ ⟨rfl, rfl⟩
  split
  · next hx => exact absurd rfl (hd _ _ hx).1
  · next hx => cases (hd _ _ hx).2 rfl '/' rfl
  · next hx => cases (hd _ _ hx).2 rfl '*' rfl
  · trivial
  · exact ⟨rfl, rfl⟩

/-- There is no comment behind an item, nor behind its separator. -/
theorem inStepOr_trailing (h : Abreast 0 c c') :
    InStepOr Doomed (trailing true) (trailing true) c c'
      fun doc d doc' d' => (doc = "" ∧ doc' = "") ∧ Loose 0 d d' := by
  intro doc e hr
  obtain ⟨⟨⟩, d, hskip, -⟩ := bind_run_ok (r := skipSeparator true) hr
  rcases inStepOr_skipSeparator h _ _ hskip with hdoomed | ⟨⟨⟩, d', hskip', hd⟩
  · obtain ⟨-, rfl⟩ := (ends_trailing hskip hdoomed.uncommented).of_ok hr
    exact .inl hdoomed
  · obtain ⟨rfl, rfl⟩ := (ends_trailing hskip (uncommented_of_loose hd)).of_ok hr
    have hhead : (d'.rest.dropWhile isBlank).head? = (e.rest.dropWhile isBlank).head? :=
      Relaid.head?_eq hd (stops_dropWhile _ _)
    have hbehind {ch : Char} {y : List Char} (hy : d'.rest = ch :: y) (hch : isBlank ch = false) :
        ∃ x, e.rest.dropWhile isBlank = ch :: x := by
      rw [dropWhile_isBlank_cons hy hch] at hhead
      exact List.head?_eq_some_iff.1 hhead.symm
    unfold Loose at hd
    by_cases hslash : ∃ x, e.rest.dropWhile isBlank = '/' :: x
    · obtain ⟨x, hx⟩ := hslash
      rw [hx] at hd
      exact .inl ⟨'/', x, hx, .inr ⟨rfl, (hd.of_cons rfl).1 rfl⟩⟩
    · refine .inr ⟨"", d', trailing_run_bare hskip' ?_, ⟨rfl, rfl⟩, hd⟩
      rintro ch hch
      obtain ⟨y, hy⟩ := List.head?_eq_some_iff.1 hch
      rw [Bool.or_eq_false_iff, beq_eq_false_iff_ne, beq_eq_false_iff_ne]
      refine ⟨?_, ?_⟩
      · rintro rfl
        obtain ⟨x, hx⟩ := hbehind hy rfl
        rw [hx] at hd
        exact hd.head_ne_hash
      · rintro rfl
        exact hslash (hbehind hy rfl)

end Trailing

section Types

theorem inStep_expect_walks (hplain : isPlain ch = true) (hfault : fault.inPlace = true)
    (h : Loose depth c c') : InStep (expect ch fault) (expect ch fault) c c'
      fun _ d _ d' => Abreast (depthAfter depth ch) d d' ∧ c'.Past d' :=
  ((inStep_expect hplain h).walks (walks_expect ch hfault (.refl _))).imp
    fun _ _ _ _ hd => ⟨hd.1, hd.2.2⟩

theorem inStep_parameter {inner inner' : Reader TypeExpr} {missing unclosed : SyntaxFault}
    (wrap : TypeExpr → TypeExpr) (hmissing : missing.inPlace = true)
    (hunclosed : unclosed.inPlace = true) (h : Loose depth c c')
    (hinner : ∀ d d', c'.Past d' → Loose (depth + 1) d d' → InStep inner inner' d d'
      fun t e t' e' => (t' = t ∧ Abreast (depth + 1) e e') ∧ d'.Onward e') :
    InStep (do
      expect '<' missing
      let element ← inner
      expect '>' unclosed
      return wrap element) (do
      expect '<' missing
      let element ← inner'
      expect '>' unclosed
      return wrap element) c c'
        fun t d t' d' => (t' = t ∧ Abreast depth d d') ∧ c'.Onward d' := by
  refine (inStep_expect_walks rfl hmissing h).bind fun _ d _ d' hd => ?_
  refine (hinner d d' hd.2 hd.1.loose).bind fun element e element' e' he => ?_
  obtain ⟨⟨rfl, he⟩, honward⟩ := he
  refine (inStep_expect_walks rfl hunclosed he.loose).bind fun _ f _ f' hf => ?_
  exact inStep_pure ⟨⟨rfl, hf.1⟩, hd.2.onward.trans (honward.trans hf.2.onward)⟩

theorem inStep_typeExpr (h : Loose depth c c') : InStep typeExpr typeExpr c c'
    fun t d t' d' => t' = t ∧ Abreast depth d d' := by
  unfold typeExpr
  refine (inStep_fix (D := fun _ => False) (fun _ _ _ h => h.elim) (g := (depth, c'))
    (T := fun (g : Nat × Cursor) _ _ c c' => g.2 = c' ∧ Loose g.1 c c')
    (Q := fun g _ _ t d t' d' => (t' = t ∧ Abreast g.1 d d') ∧ g.2.Onward d')
    ?_ ⟨rfl, h⟩).imp fun _ _ _ _ hd => hd.1
  rintro again again' ⟨depth, _⟩ _ _ c c' - hagain ⟨rfl, h⟩
  refine ((inStep_word h).walks (walks_word (.refl _))).bind fun w d w' d' hd => ?_
  obtain ⟨⟨rfl, hd⟩, -, hpast, -⟩ := hd
  have hinner (e e' : Cursor) (hpast' : d'.Past e') (he : Loose (depth + 1) e e') :
      InStep (again ()) (again' ()) e e'
        fun t f t' f' => (t' = t ∧ Abreast (depth + 1) f f') ∧ e'.Onward f' :=
    hagain (depth + 1, e') () () e e' (hpast.trans hpast'.onward) ⟨rfl, he⟩
  split
  · exact (inStep_parameter .list rfl rfl hd.loose hinner).imp
      fun _ _ _ _ he => ⟨he.1, hpast.onward.trans he.2⟩
  · exact (inStep_parameter .set rfl rfl hd.loose hinner).imp
      fun _ _ _ _ he => ⟨he.1, hpast.onward.trans he.2⟩
  · refine (inStep_expect_walks rfl rfl hd.loose).bind fun _ d₁ _ d₁' h₁ => ?_
    refine (hinner d₁ d₁' h₁.2 h₁.1.loose).bind fun key d₂ key' d₂' h₂ => ?_
    obtain ⟨⟨rfl, h₂⟩, honward₂⟩ := h₂
    have hpast₂ := h₁.2.trans honward₂
    refine (inStep_expect_walks rfl rfl h₂.loose).bind fun _ d₃ _ d₃' h₃ => ?_
    have hpast₃ := hpast₂.trans h₃.2.onward
    refine (hinner d₃ d₃' hpast₃ h₃.1.loose).bind fun value d₄ value' d₄' h₄ => ?_
    obtain ⟨⟨rfl, h₄⟩, honward₄⟩ := h₄
    have hpast₄ := hpast₃.trans honward₄
    refine (inStep_expect_walks rfl rfl h₄.loose).bind fun _ d₅ _ d₅' h₅ => ?_
    exact inStep_pure ⟨⟨rfl, h₅.1⟩, hpast.onward.trans (hpast₄.trans h₅.2.onward).onward⟩
  · exact inStep_pure ⟨⟨rfl, hd⟩, hpast.onward⟩

end Types

end Reader

end ThriftIdl
