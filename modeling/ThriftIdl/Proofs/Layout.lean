import ThriftIdl.Proofs.Lexemes

namespace ThriftIdl

namespace Layout

open Reader (isBlank isQuote isLineGap Stops)

/-- Part of no blank, no literal and no comment, except that a slash may begin one. -/
def isPlain (ch : Char) : Bool :=
  !isBlank ch && !isQuote ch && ch != '#'

def isSeparator (ch : Char) : Bool :=
  ch == ',' || ch == ';'

/-- The angle brackets that are open behind a character. -/
def depthAfter (depth : Nat) (ch : Char) : Nat :=
  if ch = '<' then depth + 1 else if ch = '>' then depth - 1 else depth

/-- What stands between two quotes. -/
inductive LiteralBody (quote : Char) : List Char → Prop
  | nil : LiteralBody quote []
  | escape {body : List Char} (ch : Char) (rest : LiteralBody quote body) :
      LiteralBody quote ('\\' :: ch :: body)
  | char {ch : Char} {body : List Char} (hquote : ch ≠ quote) (hescape : ch ≠ '\\')
      (rest : LiteralBody quote body) : LiteralBody quote (ch :: body)

/-- A text without comments, and the same text with other blanks in place of its runs of blanks
outside of literals. Where separators stay, a run in front of one that stands outside of angle
brackets becomes one of spaces and tabs. -/
inductive Relaid (separatorsStay : Bool) : Nat → List Char → List Char → Prop
  | nil {depth : Nat} : Relaid separatorsStay depth [] []
  | plain {depth : Nat} {ch : Char} {x x' : List Char} (hch : isPlain ch = true)
      (hslash : ch = '/' → Stops (fun c => c == '/' || c == '*') x)
      (rest : Relaid separatorsStay (depthAfter depth ch) x x') :
      Relaid separatorsStay depth (ch :: x) (ch :: x')
  | literal {depth : Nat} {quote : Char} {body x x' : List Char} (hquote : isQuote quote = true)
      (hbody : LiteralBody quote body) (rest : Relaid separatorsStay depth x x') :
      Relaid separatorsStay depth (quote :: (body ++ quote :: x)) (quote :: (body ++ quote :: x'))
  | gap {depth : Nat} {gap gap' x x' : List Char} (hne : gap ≠ []) (hne' : gap' ≠ [])
      (hgap : ∀ c ∈ gap, isBlank c = true) (hgap' : ∀ c ∈ gap', isBlank c = true)
      (hstops : Stops isBlank x)
      (hseparator : separatorsStay = true → depth = 0 → (∃ c ∈ x.head?, isSeparator c = true) →
        ∀ c ∈ gap', isLineGap c = true)
      (rest : Relaid separatorsStay depth x x') :
      Relaid separatorsStay depth (gap ++ x) (gap' ++ x')

section Characters

variable {ch : Char} {depth : Nat}

theorem isPlain_blank (h : isPlain ch = true) : isBlank ch = false := by
  simp only [isPlain, Bool.and_eq_true, Bool.not_eq_true'] at h
  exact h.1.1

theorem isPlain_quote (h : isPlain ch = true) : isQuote ch = false := by
  simp only [isPlain, Bool.and_eq_true, Bool.not_eq_true'] at h
  exact h.1.2

theorem isQuote_blank (h : isQuote ch = true) : isBlank ch = false := by
  simp only [isQuote, Bool.or_eq_true, beq_iff_eq] at h
  obtain rfl | rfl := h <;> rfl

theorem isBlank_of_isLineGap (h : isLineGap ch = true) : isBlank ch = true := by
  simp only [isLineGap, Bool.or_eq_true, beq_iff_eq] at h
  obtain rfl | rfl := h <;> rfl

theorem isSeparator_blank (h : isSeparator ch = true) : isBlank ch = false := by
  simp only [isSeparator, Bool.or_eq_true, beq_iff_eq] at h
  obtain rfl | rfl := h <;> rfl

theorem isSeparator_plain (depth : Nat) (h : isSeparator ch = true) :
    isPlain ch = true ∧ depthAfter depth ch = depth := by
  simp only [isSeparator, Bool.or_eq_true, beq_iff_eq] at h
  obtain rfl | rfl := h <;> exact ⟨rfl, rfl⟩

theorem depthAfter_of_ne (hl : ch ≠ '<') (hr : ch ≠ '>') : depthAfter depth ch = depth := by
  simp [depthAfter, hl, hr]

/-- Characters whose runs are read alike in every layout. -/
def Inert (p : Char → Bool) : Prop :=
  ∀ ch, p ch = true → isBlank ch = false ∧ isQuote ch = false ∧ ch ≠ '<' ∧ ch ≠ '>'

theorem Inert.of_imp {p q : Char → Bool} (hq : Inert q)
    (h : ∀ ch, p ch = true → q ch = true) : Inert p :=
  fun ch hch => hq ch (h ch hch)

end Characters

namespace Relaid

variable {stay : Bool} {depth : Nat} {ch quote : Char} {x x' y : List Char} {p : Char → Bool}

theorem head?_eq (h : Relaid stay depth x x') (hx : Stops isBlank x) : x'.head? = x.head? := by
  cases h with
  | nil => rfl
  | plain => rfl
  | literal => rfl
  | @gap _ gap _ _ _ hne _ hgap =>
    obtain ⟨ch, gap, rfl⟩ := List.exists_cons_of_ne_nil hne
    have hblank := hgap ch List.mem_cons_self
    rw [hx ch rfl] at hblank
    cases hblank

theorem stops (h : Relaid stay depth x x') (hx : Stops isBlank x) : Stops isBlank x' := by
  unfold Stops
  rw [h.head?_eq hx]
  exact hx

theorem dropWhile_of_stops (hx : Stops p x) : x.dropWhile p = x := by
  cases x with
  | nil => rfl
  | cons ch x => exact List.dropWhile_cons_of_neg (by simp [hx ch rfl])

theorem dropWhile_gap {gap : List Char} (hgap : ∀ c ∈ gap, p c = true) (hx : Stops p x) :
    (gap ++ x).dropWhile p = x := by
  rw [List.dropWhile_append_of_pos hgap, dropWhile_of_stops hx]

theorem isBlank_of_gap {gap : List Char} (hne : gap ≠ []) (hgap : ∀ c ∈ gap, isBlank c = true)
    (h : ch :: y = gap ++ x) : isBlank ch = true := by
  obtain ⟨c, gap, rfl⟩ := List.exists_cons_of_ne_nil hne
  obtain ⟨rfl, -⟩ := List.cons.inj h
  exact hgap ch List.mem_cons_self

theorem dropBlanks (h : Relaid stay depth x x') :
    Relaid stay depth (x.dropWhile isBlank) (x'.dropWhile isBlank) := by
  cases h with
  | nil => exact .nil
  | plain hch hslash rest =>
    rw [List.dropWhile_cons_of_neg (by simp [isPlain_blank hch]),
      List.dropWhile_cons_of_neg (by simp [isPlain_blank hch])]
    exact .plain hch hslash rest
  | literal hquote hbody rest =>
    rw [List.dropWhile_cons_of_neg (by simp [isQuote_blank hquote]),
      List.dropWhile_cons_of_neg (by simp [isQuote_blank hquote])]
    exact .literal hquote hbody rest
  | gap _ _ hgap hgap' hstops _ rest =>
    rwa [dropWhile_gap hgap hstops, dropWhile_gap hgap' (rest.stops hstops)]

theorem of_cons (h : Relaid stay depth (ch :: y) x') (hch : isPlain ch = true) :
    (ch = '/' → Stops (fun c => c == '/' || c == '*') y) ∧
      ∃ y', x' = ch :: y' ∧ Relaid stay (depthAfter depth ch) y y' := by
  generalize hx : ch :: y = x at h
  cases h with
  | nil => cases hx
  | plain hch hslash rest =>
    cases hx
    exact ⟨hslash, _, rfl, rest⟩
  | literal hquote =>
    cases hx
    rw [isPlain_quote hch] at hquote
    cases hquote
  | gap hne _ hgap =>
    have hblank := isBlank_of_gap hne hgap hx
    rw [isPlain_blank hch] at hblank
    cases hblank

theorem of_quote (h : Relaid stay depth (quote :: y) x') (hquote : isQuote quote = true) :
    ∃ body z z', LiteralBody quote body ∧ y = body ++ quote :: z ∧
      x' = quote :: (body ++ quote :: z') ∧ Relaid stay depth z z' := by
  generalize hx : quote :: y = x at h
  cases h with
  | nil => cases hx
  | plain hch =>
    cases hx
    rw [isPlain_quote hch] at hquote
    cases hquote
  | literal _ hbody rest =>
    cases hx
    exact ⟨_, _, _, hbody, rfl, rfl, rest⟩
  | gap hne _ hgap =>
    have hblank := isBlank_of_gap hne hgap hx
    rw [isQuote_blank hquote] at hblank
    cases hblank

theorem head_ne_hash (h : Relaid stay depth ('#' :: y) x') : False := by
  generalize hx : '#' :: y = x at h
  cases h with
  | nil => cases hx
  | plain hch =>
    cases hx
    cases hch
  | literal hquote =>
    cases hx
    cases hquote
  | gap hne _ hgap => cases isBlank_of_gap hne hgap hx

theorem runs (h : Relaid stay depth x x') (hp : Inert p) :
    x'.takeWhile p = x.takeWhile p ∧ Relaid stay depth (x.dropWhile p) (x'.dropWhile p) := by
  induction h with
  | nil => exact ⟨rfl, .nil⟩
  | @plain depth ch x x' hch hslash rest ih =>
    cases hpc : p ch with
    | true =>
      obtain ⟨-, -, hl, hr⟩ := hp ch hpc
      rw [depthAfter_of_ne hl hr] at ih
      simpa [hpc] using ih
    | false =>
      simp only [List.takeWhile_cons, List.dropWhile_cons, hpc]
      exact ⟨rfl, .plain hch hslash rest⟩
  | @literal depth quote body x x' hquote hbody rest ih =>
    have hpc : p quote = false := by
      by_contra hpc
      simp [(hp quote (by simpa using hpc)).2.1] at hquote
    simp only [List.takeWhile_cons, List.dropWhile_cons, hpc]
    exact ⟨rfl, .literal hquote hbody rest⟩
  | @gap depth gap gap' x x' hne hne' hgap hgap' hstops hseparator rest ih =>
    have hhead {ch : Char} (hch : isBlank ch = true) : p ch = false := by
      by_contra hpc
      simp [(hp ch (by simpa using hpc)).1] at hch
    have hall := Relaid.gap hne hne' hgap hgap' hstops hseparator rest
    obtain ⟨ch, gap, rfl⟩ := List.exists_cons_of_ne_nil hne
    obtain ⟨ch', gap', rfl⟩ := List.exists_cons_of_ne_nil hne'
    simp only [List.cons_append, List.takeWhile_cons, List.dropWhile_cons,
      hhead (hgap ch List.mem_cons_self), hhead (hgap' ch' List.mem_cons_self)]
    exact ⟨rfl, hall⟩

theorem plains {run : List Char}
    (hrun : ∀ ch ∈ run, isPlain ch = true ∧ ch ≠ '/' ∧ depthAfter depth ch = depth)
    (h : Relaid stay depth x x') : Relaid stay depth (run ++ x) (run ++ x') := by
  induction run with
  | nil => exact h
  | cons ch run ih =>
    obtain ⟨hch, hslash, hdepth⟩ := hrun ch List.mem_cons_self
    refine .plain hch (fun he => absurd he hslash) ?_
    rw [hdepth]
    exact ih fun c hc => hrun c (List.mem_cons_of_mem _ hc)

theorem unspaced (run : List Char)
    (hrun : run.all (fun c => isPlain c && c != '/' && depthAfter depth c == depth) = true)
    (h : Relaid stay depth x x') : Relaid stay depth (run ++ x) (run ++ x') := by
  refine .plains (fun c hc => ?_) h
  simpa [and_assoc] using List.all_eq_true.1 hrun c hc

theorem spaced (run gap gap' : List Char)
    (hrun : run.all (fun c => isPlain c && c != '/' && depthAfter depth c == depth) = true)
    (hgap : gap ≠ [] ∧ gap.all isBlank = true) (hgap' : gap' ≠ [] ∧ gap'.all isBlank = true)
    (hch : isBlank ch = false)
    (hstay : stay = false ∨ isSeparator ch = false ∨ gap'.all isLineGap = true)
    (h : Relaid stay depth (ch :: x) (ch :: x')) :
    Relaid stay depth (run ++ (gap ++ ch :: x)) (run ++ (gap' ++ ch :: x')) := by
  refine .unspaced run hrun (.gap hgap.1 hgap'.1 (List.all_eq_true.1 hgap.2)
    (List.all_eq_true.1 hgap'.2) (Reader.stops_cons hch) ?_ h)
  intro hs _ hsep
  obtain rfl | hother | hline := hstay
  · cases hs
  · simp [hother] at hsep
  · exact List.all_eq_true.1 hline

/-- A separator that stays has nothing but spaces and tabs in front of it. -/
theorem dropWhile_lineGap (h : Relaid true 0 x x')
    (hseparator : ∃ ch ∈ (x.dropWhile isBlank).head?, isSeparator ch = true) :
    x'.dropWhile isLineGap = x'.dropWhile isBlank := by
  have hstop {x : List Char} (hx : Stops isBlank x) :
      x.dropWhile isLineGap = x.dropWhile isBlank := by
    rw [dropWhile_of_stops hx, dropWhile_of_stops (hx.of_imp fun _ => isBlank_of_isLineGap)]
  cases h with
  | nil => rfl
  | plain hch => exact hstop (Reader.stops_cons (isPlain_blank hch))
  | literal hquote => exact hstop (Reader.stops_cons (isQuote_blank hquote))
  | gap _ _ hgap hgap' hstops hstay rest =>
    rw [dropWhile_gap hgap hstops] at hseparator
    have hx' := rest.stops hstops
    rw [dropWhile_gap hgap' hx', dropWhile_gap (hstay rfl rfl hseparator)
      (hx'.of_imp fun _ => isBlank_of_isLineGap)]

end Relaid

end Layout

end ThriftIdl
