import Mathlib
import ThriftIdl.Proofs.HarvestedComments
import ThriftIdl.Proofs.TrailingComments

namespace ThriftIdl

namespace Text

/-- A text with nothing to be taken off at its ends. -/
structure Trimmed (p : Char → Bool) (text : List Char) : Prop where
  opens : ∀ ch ∈ text.head?, p ch = false
  closes : ∀ ch ∈ text.getLast?, p ch = false

variable {p : Char → Bool} {text after : List Char}

theorem trim_trimmed (p : Char → Bool) (text : List Char) : Trimmed p (trim p text) := by
  obtain ⟨after, hafter⟩ : trim p text <+: text.dropWhile p := List.rdropWhile_prefix p _
  constructor
  · intro ch hch
    apply Reader.stops_dropWhile p text
    rw [← hafter]
    exact List.mem_head?_append_of_mem_head? hch
  · intro ch hch
    obtain ⟨hne, rfl⟩ := List.mem_getLast?_eq_getLast hch
    rw [← Bool.not_eq_true]
    exact List.rdropWhile_last_not p _ hne

theorem exists_trim (p : Char → Bool) (text : List Char) : ∃ before after,
    text = before ++ (trim p text ++ after) ∧ (∀ ch ∈ before, p ch = true) ∧
      ∀ ch ∈ after, p ch = true := by
  refine ⟨text.takeWhile p, (text.dropWhile p).rtakeWhile p, ?_, ?_, ?_⟩
  · have hsplit : trim p text ++ (text.dropWhile p).rtakeWhile p = text.dropWhile p :=
      List.rdropWhile_append_rtakeWhile
    rw [hsplit, List.takeWhile_append_dropWhile]
  · exact fun ch => List.mem_takeWhile_imp
  · exact fun ch => List.mem_rtakeWhile_imp

theorem trim_append (h : Trimmed p text) (hne : text ≠ []) (hafter : ∀ ch ∈ after, p ch = true) :
    trim p (text ++ after) = text := by
  have hopens : (text ++ after).dropWhile p = text ++ after := by
    obtain ⟨ch, rest, rfl⟩ := List.exists_cons_of_ne_nil hne
    rw [List.cons_append, List.dropWhile_cons_of_neg (by simp [h.opens ch rfl])]
  have hcloses : text.rdropWhile p = text := by
    rw [List.rdropWhile_eq_self_iff]
    intro hne
    simp [h.closes _ (List.getLast?_eq_some_getLast hne)]
  change List.rdropWhile p ((text ++ after).dropWhile p) = text
  rw [hopens, List.rdropWhile, List.reverse_append,
    List.dropWhile_append_of_pos (by simpa using hafter)]
  exact hcloses

end Text

namespace CommentText

theorem isWhiteSpace_of_isLineBlank {ch : Char} (h : isLineBlank ch = true) :
    Text.isWhiteSpace ch = true := by
  simp only [isLineBlank, Bool.or_eq_true, beq_iff_eq] at h
  obtain (rfl | rfl) | rfl := h <;> rfl

/-- What a comment says in the same way wherever it stands, the blanks around it apart: nothing
else is taken off at its ends, no star begins it, and no carriage return stands within. -/
structure SaidAlike (text : List Char) : Prop where
  trimmed : Text.Trimmed Text.isWhiteSpace text
  unstarred : ∀ ch ∈ text.head?, ch ≠ '*'
  unreturned : '\r' ∉ text

variable {text body before after : List Char}

theorem blockText_line (h : '\n' ∉ body) :
    blockText body = Text.trim Text.isWhiteSpace (ofBlockLine body) := by
  have hline : ofBlockLines body = ofBlockLine body := by
    rw [ofBlockLines, List.splitOn_eq_singleton h, List.map_singleton, List.intercalate_singleton]
  rw [blockText, hline]
  rfl

theorem dropStar_of_head {x : List Char} (h : ∀ ch ∈ x.head?, ch ≠ '*') : dropStar x = x := by
  rw [dropStar]
  · rintro rest rfl
    exact h '*' rfl rfl
  · rintro rest rfl
    exact h '*' rfl rfl

theorem dropStar_sublist (x : List Char) : (dropStar ('*' :: x)).Sublist x := by
  rw [dropStar.eq_def]
  split
  · next line heq =>
    rw [(List.cons.inj heq).2]
    exact List.sublist_cons_self _ _
  · next line _ heq =>
    rw [(List.cons.inj heq).2]
  · next h => exact absurd rfl (h x)

section Ends

variable (hbefore : ∀ ch ∈ before, Text.isWhiteSpace ch = true)
  (hafter : ∀ ch ∈ after, Text.isWhiteSpace ch = true)

include hbefore hafter

theorem trim_ofBlockLine (h : SaidAlike text) :
    Text.trim Text.isWhiteSpace (ofBlockLine (before ++ (text ++ after))) = text := by
  rw [ofBlockLine, List.dropWhile_append_of_pos hbefore]
  cases text with
  | nil =>
    rw [List.nil_append, List.dropWhile_eq_nil_iff.2 hafter]
    rfl
  | cons ch rest =>
    have hopens : ¬ Text.isWhiteSpace ch = true := by simp [h.trimmed.opens ch rfl]
    have hkept : (ch :: rest).filter (· ≠ '\r') = ch :: rest := by
      rw [List.filter_eq_self]
      rintro ch' hch'
      rw [decide_eq_true_iff]
      rintro rfl
      exact h.unreturned hch'
    have hbare : dropStar (ch :: (rest ++ after)) = ch :: rest ++ after :=
      dropStar_of_head fun _ hch => h.unstarred _ hch
    rw [List.cons_append, List.dropWhile_cons_of_neg hopens, hbare, List.filter_append, hkept]
    apply Text.trim_append h.trimmed (List.cons_ne_nil _ _)
    exact fun ch' hch' => hafter ch' (List.mem_of_mem_filter hch')

theorem saidAlike_of_trim_ofBlockLine
    (h : Text.trim Text.isWhiteSpace (ofBlockLine (before ++ (text ++ after))) = text) :
    SaidAlike text := by
  have hsub : text.Sublist (ofBlockLine (before ++ (text ++ after))) := by
    obtain ⟨_, _, hsplit, -, -⟩ := Text.exists_trim Text.isWhiteSpace
      (ofBlockLine (before ++ (text ++ after)))
    rw [h] at hsplit
    rw [hsplit]
    exact (List.sublist_append_left _ _).trans (List.sublist_append_right _ _)
  refine ⟨h ▸ Text.trim_trimmed _ _, ?_, ?_⟩
  · -- A star at the beginning is taken off, and then there is one less.
    rintro _ hch rfl
    obtain ⟨rest, rfl⟩ := List.head?_eq_some_iff.1 hch
    have hrest := hsub.trans List.filter_sublist
    rw [List.dropWhile_append_of_pos hbefore, List.cons_append,
      List.dropWhile_cons_of_neg (by decide)] at hrest
    have hcount := (hrest.trans (dropStar_sublist _)).count_le '*'
    have hafter : after.count '*' = 0 := by
      rw [List.count_eq_zero]
      exact fun hmem => absurd (hafter '*' hmem) (by decide)
    rw [List.count_cons_self, List.count_append, hafter] at hcount
    omega
  · intro hmem
    have hkept := List.of_mem_filter (hsub.subset hmem)
    simp at hkept

end Ends

/-- Behind a declaration and in front of one, a comment on one line says the same exactly if only
blanks are to be taken off. -/
theorem trim_eq_blockText_iff (h : '\n' ∉ body) :
    Text.trim isLineBlank body = blockText body ↔ SaidAlike (Text.trim isLineBlank body) := by
  obtain ⟨before, after, hbody, hbefore, hafter⟩ := Text.exists_trim isLineBlank body
  have hblanks := fun ch hch => isWhiteSpace_of_isLineBlank (hbefore ch hch)
  have hblanks' := fun ch hch => isWhiteSpace_of_isLineBlank (hafter ch hch)
  rw [blockText_line h, eq_comm]
  constructor
  · intro heq
    apply saidAlike_of_trim_ofBlockLine hblanks hblanks'
    rwa [← hbody]
  · intro hsaid
    have heq := trim_ofBlockLine hblanks hblanks' hsaid
    rwa [← hbody] at heq

end CommentText

namespace Reader

/-- A block comment as it is written. -/
def blockComment (body : List Char) : List Char := ['/', '*'] ++ body ++ ['*', '/']

variable {separator : Bool} {c d : Cursor}
  {body tail gap ending after front back behind run written : List Char}
  {texts others : List (List Char)}

section Behind

/-- A comment is not passed over for its beginning. -/
theorem Passable.longest (h : Passable separator run) (hrun : run <+: gap ++ '/' :: after) :
    run <+: gap := by
  obtain hle | ⟨more, rfl⟩ := List.prefix_or_prefix_of_prefix hrun (List.prefix_append gap _)
  · exact hle
  cases more with
  | nil => simp
  | cons ch more =>
    have hch := (List.prefix_append_right_inj gap).1 hrun
    obtain rfl := (List.cons_prefix_cons.1 hch).1
    obtain hgap | hgap := h.chars '/' (by simp)
    · exact absurd hgap (by decide)
    · exact absurd hgap (by decide)

theorem trailing_run_blockComment (hgap : Passable separator gap) (hline : '\n' ∉ body)
    (hbody : ¬ ['*', '/'] <:+: body) (htail : ∀ ch ∈ tail, CommentText.isLineBlank ch = true)
    (hend : LineEnd ending after)
    (hc : c.rest = gap ++ (blockComment body ++ (tail ++ (ending ++ after)))) :
    (trailing separator).run c = .ok (String.ofList (Text.trim CommentText.isLineBlank body),
      c.passAll (gap ++ (blockComment body ++ (tail ++ ending)))) := by
  have hsplit : blockComment body ++ tail = '/' :: '*' :: (body ++ '*' :: '/' :: tail) := by
    simp [blockComment]
  have hwritten : '\n' ∉ blockComment body ++ tail := by
    have htail' : '\n' ∉ tail := fun hmem => absurd (htail _ hmem) (by decide)
    simp [blockComment, hline, htail']
  have h : LineSplit separator c.rest (gap ++ (blockComment body ++ tail)) ending after gap
      (blockComment body ++ tail) := by
    refine ⟨?_, ?_, hend, rfl, hgap, ?_⟩
    · rw [hc]
      simp only [List.append_assoc]
    · rw [List.mem_append, not_or]
      exact ⟨hgap.unbroken, hwritten⟩
    · intro run hrun hpass
      rw [hsplit] at hrun
      exact hpass.longest hrun
  rw [hsplit] at h
  rw [h.run (.closed hbody htail), ← hsplit]
  simp only [List.append_assoc]
  rfl

end Behind

section InFront

theorem Commentary.blanks_append (hrun : ∀ ch ∈ run, isBlank ch = true)
    (h : Commentary gap texts after) : Commentary (run ++ gap) texts after := by
  cases h with
  | blanks hgap => exact .blanks (List.forall_mem_append.2 ⟨hrun, hgap⟩) after
  | comment hgap hsaid rest =>
    rw [← List.append_assoc]
    exact .comment (List.forall_mem_append.2 ⟨hrun, hgap⟩) hsaid rest

theorem Commentary.append (h : Commentary front texts (gap ++ after))
    (h' : Commentary gap others after) : Commentary (front ++ gap) (texts ++ others) after := by
  generalize hx : gap ++ after = x at h
  induction h with
  | blanks hrun => exact h'.blanks_append hrun
  | @comment run written gap' _ text texts hrun hsaid _ ih =>
    subst hx
    rw [List.append_assoc, List.append_assoc, List.cons_append]
    refine .comment hrun ?_ (ih rfl)
    rwa [List.append_assoc]

/-- One comment among others is harvested for what it says. -/
theorem documentation_run_blockComment (hbody : ¬ ['*', '/'] <:+: body)
    (hd : d.rest = front ++ (blockComment body ++ (back ++ behind)))
    (hfront : Commentary front texts (blockComment body ++ (back ++ behind)))
    (hback : Commentary back others behind) (hstops : Stops beginsGap behind) :
    documentation.run d =
      .ok (String.ofList (['\n'].intercalate (texts ++ CommentText.blockText body :: others)),
        d.passAll (front ++ (blockComment body ++ back))) := by
  have hblock : Commentary ([] ++ (blockComment body ++ back)) (CommentText.blockText body :: others)
      behind := .comment blank_nil (.block hbody _) hback
  refine documentation_run ?_ ?_ hstops
  · refine Commentary.append ?_ hblock
    simpa only [List.nil_append, List.append_assoc] using hfront
  · rw [hd]
    simp only [List.append_assoc]

end InFront

/-- A block comment on one line is read behind a declaration and in front of one, and says the same
in both places exactly if only blanks stand around what is said. -/
theorem blockComment_alike_iff (hline : '\n' ∉ body) (hbody : ¬ ['*', '/'] <:+: body)
    (htail : ∀ ch ∈ tail, CommentText.isLineBlank ch = true) (hgap : Passable separator gap)
    (hend : LineEnd ending after)
    (hc : c.rest = gap ++ (blockComment body ++ (tail ++ (ending ++ after))))
    (hfront : Commentary front texts (blockComment body ++ (back ++ behind)))
    (hback : Commentary back others behind) (hstops : Stops beginsGap behind)
    (hd : d.rest = front ++ (blockComment body ++ (back ++ behind))) :
    (trailing separator).run c = .ok (String.ofList (Text.trim CommentText.isLineBlank body),
        c.passAll (gap ++ (blockComment body ++ (tail ++ ending)))) ∧
      documentation.run d =
        .ok (String.ofList (['\n'].intercalate (texts ++ CommentText.blockText body :: others)),
          d.passAll (front ++ (blockComment body ++ back))) ∧
      (Text.trim CommentText.isLineBlank body = CommentText.blockText body ↔
        CommentText.SaidAlike (Text.trim CommentText.isLineBlank body)) :=
  ⟨trailing_run_blockComment hgap hline hbody htail hend hc,
    documentation_run_blockComment hbody hd hfront hback hstops,
    CommentText.trim_eq_blockText_iff hline⟩

/-- A block comment on one line, behind a separator and behind another comment. -/
theorem metres_alike : ∃ c d,
    (trailing true).run (.ofList "; /* m */ \n".toList) = .ok (String.ofList ['m'], c) ∧
      documentation.run (.ofList "# h\n/* m */\nx".toList) =
        .ok (String.ofList ['h', '\n', 'm'], d) ∧ CommentText.SaidAlike ['m'] := by
  have hline : '\n' ∉ [' ', 'm', ' '] := by decide
  have hbody : ¬ ['*', '/'] <:+: [' ', 'm', ' '] := by decide
  have hgap : Passable true [';', ' '] :=
    (passable_separator rfl).2 ⟨rfl, (passable_blank rfl).2 (passable_nil false)⟩
  have htail : ∀ ch ∈ [' '], CommentText.isLineBlank ch = true := by simp [CommentText.isLineBlank]
  have hend : LineEnd ['\n'] [] := .inl rfl
  have hbehind : (Cursor.ofList "; /* m */ \n".toList).rest =
      [';', ' '] ++ (blockComment [' ', 'm', ' '] ++ ([' '] ++ (['\n'] ++ []))) := rfl
  have hsays : Says (['#'] ++ ([' ', 'h'] ++ ['\n'])) ['h'] "/* m */\nx".toList :=
    .line (.inl rfl) (by decide) (.inl rfl)
  have hfront : Commentary ([] ++ (['#', ' ', 'h', '\n'] ++ [])) [['h']] "/* m */\nx".toList :=
    .comment blank_nil hsays (.blanks blank_nil _)
  have hback : Commentary ['\n'] [] ['x'] := .blanks (by simp [isBlank]) _
  have hinFront : (Cursor.ofList "# h\n/* m */\nx".toList).rest =
      ([] ++ (['#', ' ', 'h', '\n'] ++ [])) ++ (blockComment [' ', 'm', ' '] ++ (['\n'] ++ ['x'])) :=
    rfl
  obtain ⟨hsaid, hfound, halike⟩ := blockComment_alike_iff hline hbody htail hgap hend hbehind
    hfront hback (stops_cons rfl) hinFront
  exact ⟨_, _, hsaid, hfound, halike.1 rfl⟩

/-- Behind a declaration a star at the beginning stays. -/
theorem starredMetres_differ : ∃ said found c d,
    (trailing false).run (.ofList "/** m */".toList) = .ok (said, c) ∧
      documentation.run (.ofList "/** m */".toList) = .ok (found, d) ∧ said ≠ found := by
  refine ⟨"* m", "m", ⟨[], 8, 0, 0⟩, ⟨[], 8, 0, 0⟩, ?_, ?_, by decide⟩
  · cbv
  · cbv

end Reader

end ThriftIdl
