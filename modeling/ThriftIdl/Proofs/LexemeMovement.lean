import ThriftIdl.Proofs.CursorMovement
import ThriftIdl.Proofs.Lexemes
import ThriftIdl.Reader.TypeExpr

namespace ThriftIdl

/-- A text that starts with a word. -/
def OpensWith (word : String) (text : List Char) : Prop := word ≠ "" ∧ word.toList <+: text

def TypeExpr.firstWord : TypeExpr → String
  | named name => name
  | list _ => "list"
  | set _ => "set"
  | map _ _ => "map"

namespace Reader

variable {b c d : Cursor} {x : List Char} {quote ch : Char} {fault : SyntaxFault}

section Comments

theorem walks_restOfLine : Walks b restOfLine c fun _ _ => True :=
  (walks_takeWhile _).bind fun _ _ _ _ => (walks_passIf '\n').bind fun _ _ _ _ => walks_pure trivial

theorem walks_lineComment : Walks b lineComment c fun _ _ => True :=
  (walks_passIf ' ').bind fun _ _ _ _ => walks_restOfLine.bind fun _ _ _ _ => walks_pure trivial

theorem isPrefix_block {body : List Char} (h : CommentText.beforeClose x = some body) :
    ['/', '*'] ++ body ++ ['*', '/'] <+: '/' :: '*' :: x := by
  obtain ⟨rest, rfl⟩ := CommentText.eq_append_of_beforeClose h
  exact ⟨rest, by simp⟩

theorem walks_comment (hb : b.Onward c) : Walks b comment c fun _ d => c.Past d := by
  refine walks_rest.bind fun text c' _ htext => ?_
  obtain ⟨htext, rfl⟩ := htext
  split
  · refine (walks_pass htext.symm).bind fun _ d _ hd => ?_
    exact walks_lineComment.imp fun _ e he _ => hd.trans he
  · have hmark : ['/', '/'] <+: c'.rest := htext ▸ List.prefix_append ['/', '/'] _
    refine (walks_passAll hmark).bind fun _ d _ hd => ?_
    subst hd
    exact walks_lineComment.imp fun _ e he _ =>
      (Cursor.Past.passAll hmark (List.cons_ne_nil _ _)).trans he
  · split
    · next body hbody =>
      have hblock := isPrefix_block hbody
      rw [htext] at hblock
      refine (walks_passAll hblock).bind fun _ d _ hd => walks_pure ?_
      subst hd
      exact .passAll hblock (List.cons_ne_nil _ _)
    · exact walks_fail hb rfl
  · exact walks_fail hb rfl

theorem takeWhile_of_stops {p : Char → Bool} (h : Stops p x) : x.takeWhile p = [] := by
  cases x with
  | nil => rfl
  | cons ch x => simp [h ch rfl]

theorem walks_comments (hb : b.Onward c) : Walks b comments c fun _ d =>
    (Stops beginsGap c.rest → d = c) ∧ Stops beginsGap d.rest := by
  refine Walks.and ?_ (ends_comments c)
  unfold comments
  refine walks_fix (T := fun _ c => b.Onward c)
    (Q := fun _ c _ d => Stops beginsGap c.rest → d = c) ?_ hb
  intro again found c hb hagain
  refine (walks_skipWhile isBlank).bind fun _ d hcd hd => walks_next?.bind fun next d' _ hnext => ?_
  obtain ⟨hnext, rfl⟩ := hnext
  have hstay : Stops beginsGap c.rest → d' = c := by
    intro hc
    rw [hd, takeWhile_of_stops hc.blank]
    rfl
  have hcomment (hgap : d'.rest.head?.any beginsGap = true) : Walks b (do
      let text ← comment
      again (found ++ [text])) d' fun _ e => Stops beginsGap c.rest → e = c := by
    refine (walks_comment (hb.trans hcd)).bind fun text e _ he => ?_
    refine (hagain _ e (.of_onward hcd he) ((hb.trans hcd).trans he.onward)).imp fun _ _ _ _ hc => ?_
    obtain ⟨ch, hch, hbegins⟩ := (Option.any_eq_true _ _).1 hgap
    rw [hstay hc] at hch
    simp [hc ch hch] at hbegins
  split
  · exact hcomment (by simp [← hnext, beginsGap])
  · exact hcomment (by simp [← hnext, beginsGap])
  · exact walks_pure hstay

theorem walks_documentation (hb : b.Onward c) : Walks b documentation c fun _ d =>
    (Stops beginsGap c.rest → d = c) ∧ Stops beginsGap d.rest :=
  (walks_comments hb).bind fun _ _ _ hd => walks_pure hd

theorem walks_skipGap (hb : b.Onward c) : Walks b skipGap c fun _ d =>
    (Stops beginsGap c.rest → d = c) ∧ Stops beginsGap d.rest := by
  change Walks b (comments >>= fun _ => pure ()) c _
  exact (walks_comments hb).bind fun _ _ _ hd => walks_pure hd

theorem walks_trailingLine : Walks b trailingLine c fun _ _ => True :=
  walks_restOfLine.bind fun _ _ _ _ => walks_pure trivial

theorem walks_trailingBlock (hb : b.Onward c) : Walks b trailingBlock c fun _ _ => True := by
  refine walks_rest.bind fun text c' _ htext => ?_
  obtain ⟨rfl, rfl⟩ := htext
  have hline := List.takeWhile_prefix (l := c'.rest) (· != '\n')
  dsimp only
  split
  · next body hbody =>
    obtain ⟨rest, hrest⟩ := CommentText.eq_append_of_beforeClose hbody
    have hclosed : body ++ ['*', '/'] <+: c'.rest := by
      refine List.IsPrefix.trans ⟨rest, ?_⟩ hline
      rw [hrest]
      simp
    refine (walks_passAll hclosed).bind fun _ d hcd _ =>
      (walks_skipWhile _).bind fun _ e hde _ => walks_next?.bind fun next e' _ hnext => ?_
    obtain ⟨hnext, rfl⟩ := hnext
    split
    · exact walks_pure trivial
    · obtain ⟨x, hx⟩ := List.head?_eq_some_iff.1 hnext.symm
      exact (walks_pass hx).bind fun _ _ _ _ => walks_pure trivial
    · exact walks_fail ((hb.trans hcd).trans hde) rfl
  · exact (walks_passAll hline).bind fun _ d hcd _ => walks_fail (hb.trans hcd) rfl

theorem walks_skipSeparator (separator : Bool) :
    Walks b (skipSeparator separator) c fun _ _ => True := by
  refine (walks_skipWhile _).bind fun _ d hcd _ => walks_next?.bind fun next d' _ hnext => ?_
  obtain ⟨hnext, rfl⟩ := hnext
  have hseparator (ch : Char) (hch : ch ≠ '\n') (h : d'.rest.head? = some ch) :
      Walks b (do
        advance
        skipWhile isLineGap) d' fun _ _ => True := by
    obtain ⟨x, hx⟩ := List.head?_eq_some_iff.1 h
    exact (walks_advance hx hch).bind fun _ _ _ _ => (walks_skipWhile _).imp fun _ _ _ _ => trivial
  split
  · exact hseparator ',' (by decide) hnext.symm
  · exact hseparator ';' (by decide) hnext.symm
  · exact walks_pure trivial

theorem walks_trailing (separator : Bool) (hb : b.Onward c) :
    Walks b (trailing separator) c fun _ _ => True := by
  refine (walks_skipSeparator separator).bind fun _ d hcd _ => walks_rest.bind fun text d' _ htext => ?_
  obtain ⟨htext, rfl⟩ := htext
  have hbd := hb.trans hcd
  split
  · exact (walks_pass htext.symm).bind fun _ _ _ _ => walks_trailingLine
  · have hmark : ['/', '/'] <+: d'.rest := htext ▸ List.prefix_append ['/', '/'] _
    exact (walks_passAll hmark).bind fun _ _ _ _ => walks_trailingLine
  · have hmark : ['/', '*'] <+: d'.rest := htext ▸ List.prefix_append ['/', '*'] _
    exact (walks_passAll hmark).bind fun _ e hde _ => walks_trailingBlock (hbd.trans hde)
  · exact walks_fail hbd rfl
  · exact walks_pure trivial

end Comments

section Lexemes

theorem walks_skip (comments : Bool) (hb : b.Onward c) :
    Walks b (skip comments) c fun _ d => Stops isBlank d.rest := by
  cases comments with
  | true => exact (walks_skipGap hb).imp fun _ _ _ hd => hd.2.blank
  | false =>
    refine (walks_skipWhile isBlank).imp fun _ d _ hd => ?_
    rw [hd, rest_passAll_takeWhile]
    exact stops_dropWhile _ _

theorem walks_peek (comments : Bool) (hb : b.Onward c) :
    Walks b (peek comments) c fun ch d => (∃ x, d.rest = ch :: x) ∧ ch ≠ '\n' := by
  refine (walks_skip comments hb).bind fun _ d hcd hstops => walks_next?.bind fun next d' _ hnext => ?_
  obtain ⟨hnext, rfl⟩ := hnext
  split
  · next ch =>
    refine walks_pure ⟨List.head?_eq_some_iff.1 hnext.symm, ?_⟩
    rintro rfl
    exact absurd (hstops '\n' hnext.symm) (by decide)
  · exact walks_fail (hb.trans hcd) rfl

theorem walks_peek_true (hb : b.Onward c) : Walks b (peek true) c fun ch d =>
    ((∃ x, d.rest = ch :: x) ∧ ch ≠ '\n') ∧ Stops beginsGap d.rest := by
  refine ((walks_peek true hb).and (ends_peek c)).imp fun _ _ _ hd => ⟨hd.1, hd.2.1⟩

theorem walks_read (hb : b.Onward c) : Walks b read c fun _ d => c.Past d := by
  refine (walks_peek true hb).bind fun found d hcd hfound => ?_
  obtain ⟨⟨x, hx⟩, hne⟩ := hfound
  exact (walks_advance hx hne).bind fun _ e _ he => walks_pure (.of_onward hcd he)

theorem walks_expect (ch : Char) (hfault : fault.inPlace = true) (hb : b.Onward c) :
    Walks b (expect ch fault) c fun _ d => c.Past d := by
  refine walks_position.bind fun start c' _ hstart => ?_
  obtain ⟨rfl, rfl⟩ := hstart
  refine (walks_read hb).bind fun found d hcd hpast => ?_
  split
  · exact walks_pure hpast
  · exact walks_failAt hb hfault

theorem opensWith_ofList {run text : List Char} (hne : run ≠ []) (h : run <+: text) :
    OpensWith (String.ofList run) text := by
  refine ⟨?_, by rwa [String.toList_ofList]⟩
  intro he
  apply hne
  rw [← String.toList_ofList (l := run), he]
  rfl

theorem walks_word (hb : b.Onward c) : Walks b word c fun w d =>
    c.Past d ∧ (Stops beginsGap c.rest → OpensWith w c.rest) := by
  refine (walks_skipGap hb).bind fun _ d hcd hd => (walks_takeWhile _).bind fun run e hde he => ?_
  obtain ⟨rfl, rfl⟩ := he
  split
  · exact walks_fail ((hb.trans hcd).trans hde) rfl
  · next hne =>
    have hrun := List.takeWhile_prefix (l := d.rest) isWordChar
    refine walks_pure ⟨.of_onward hcd (.passAll hrun hne), fun hc => ?_⟩
    rw [hd.1 hc] at hne hrun ⊢
    exact opensWith_ofList hne hrun

theorem walks_identifier (hyphens : Bool) (hb : b.Onward c) : Walks b (identifier hyphens) c fun w d =>
    c.Past d ∧ (Stops beginsGap c.rest → OpensWith w c.rest) := by
  refine (walks_skipGap hb).bind fun _ d hcd hd => walks_next?.bind fun next d' _ hnext => ?_
  obtain ⟨rfl, rfl⟩ := hnext
  split
  · next hstart =>
    refine (walks_takeWhile _).bind fun run e hde he => ?_
    obtain ⟨rfl, rfl⟩ := he
    have hrun := List.takeWhile_prefix (l := d'.rest) (isIdentifierChar hyphens)
    have hne : d'.rest.takeWhile (isIdentifierChar hyphens) ≠ [] := by
      obtain ⟨ch, hch, hbegins⟩ := (Option.any_eq_true _ _).1 hstart
      obtain ⟨x, hx⟩ := List.head?_eq_some_iff.1 hch
      simp [hx, isIdentifierChar_of_isIdentifierStart hbegins]
    refine walks_pure ⟨.of_onward hcd (.passAll hrun hne), fun hc => ?_⟩
    rw [hd.1 hc] at hne hrun ⊢
    exact opensWith_ofList hne hrun
  · exact walks_fail (hb.trans hcd) rfl

theorem ne_break_of_unescape? {value : Char} (hquote : quote ≠ '\n')
    (h : unescape? quote ch = some value) : ch ≠ '\n' := by
  rintro rfl
  simp [unescape?, hquote.symm] at h

theorem walks_escaped (hquote : quote ≠ '\n') (hb : b.Onward c) :
    Walks b (escaped quote) c fun _ _ => True := by
  refine walks_next?.bind fun next c' _ hnext => ?_
  obtain ⟨hnext, rfl⟩ := hnext
  split
  · exact walks_fail hb rfl
  · next ch =>
    obtain ⟨x, hx⟩ := List.head?_eq_some_iff.1 hnext.symm
    by_cases hch : ch = '\n'
    · -- The line break is passed without being counted, and no escape has it for its letter.
      subst hch
      have hnone : unescape? quote '\n' = none :=
        Option.eq_none_iff_forall_ne_some.2 fun value h => ne_break_of_unescape? hquote h rfl
      unfold Walks
      rw [hnone]
      exact .escapedBreak hb hx rfl rfl
    · refine (walks_advance hx hch).bind fun _ d _ hd => ?_
      split
      · exact walks_pure trivial
      · exact walks_fail (hb.trans hd.onward) (bne_iff_ne.2 hch)

theorem walks_literalTail {s : Cursor} (hquote : quote ≠ '\n') (hs : b.Onward s)
    (found : List Char) (hb : b.Onward c) :
    Walks b (literalTail s.position quote found) c fun _ _ => True := by
  unfold literalTail
  refine walks_fix (T := fun _ c => b.Onward c) (Q := fun _ _ _ _ => True) ?_ hb
  intro again found c hb hagain
  refine walks_next?.bind fun next c' _ hnext => ?_
  obtain ⟨hnext, rfl⟩ := hnext
  split
  · exact walks_failAt hs rfl
  · next ch =>
    obtain ⟨x, hx⟩ := List.head?_eq_some_iff.1 hnext.symm
    split
    · next h => exact (walks_advance hx (h ▸ hquote)).bind fun _ _ _ _ => walks_pure trivial
    split
    · next h =>
      refine (walks_advance hx (h ▸ by decide)).bind fun _ d _ hd => ?_
      refine (walks_escaped hquote (hb.trans hd.onward)).bind fun value e hde _ => ?_
      have he := hd.trans hde
      exact hagain _ e he (hb.trans he.onward)
    · exact (walks_pass hx).bind fun _ d _ hd => hagain _ d hd (hb.trans hd.onward)

theorem walks_literal (hb : b.Onward c) : Walks b literal c fun _ _ => True := by
  refine (walks_skipGap hb).bind fun _ d hcd _ => walks_position.bind fun start d' _ hstart => ?_
  obtain ⟨rfl, rfl⟩ := hstart
  refine walks_next?.bind fun next d _ hnext => ?_
  obtain ⟨rfl, rfl⟩ := hnext
  have hbd := hb.trans hcd
  split
  · next quote h =>
    obtain ⟨hhead, hquote⟩ := Option.filter_eq_some_iff.1 h
    obtain ⟨x, hx⟩ := List.head?_eq_some_iff.1 hhead
    have hne : quote ≠ '\n' := by
      rintro rfl
      exact absurd hquote (by decide)
    exact (walks_advance hx hne).bind fun _ e _ he =>
      walks_literalTail hne hbd [] (hbd.trans he.onward)
  · exact walks_fail hbd rfl

/-- A number from a point that stands in front of it. -/
def OpensWithNumber (n : Int) (text : List Char) : Prop :=
  ∃ numeral, numeral <+: text ∧ Numeral.int32? numeral = some n

theorem walks_integer (hb : b.Onward c) : Walks b integer c fun n d =>
    c.Past d ∧ (Stops isBlank c.rest → OpensWithNumber n c.rest) := by
  refine (walks_skipWhile isBlank).bind fun _ d hcd hd => walks_position.bind fun start d' _ hstart => ?_
  obtain ⟨rfl, rfl⟩ := hstart
  have hbd := hb.trans hcd
  refine (walks_takeWhile _).bind fun run e hde he => ?_
  obtain ⟨rfl, rfl⟩ := he
  have hrun := List.takeWhile_prefix (l := d'.rest) isNumeralChar
  split
  · exact walks_fail (hbd.trans hde) rfl
  · next hne =>
    split
    · next value hvalue =>
      refine walks_pure ⟨.of_onward hcd (.passAll hrun hne), fun hc => ?_⟩
      have hstay : d' = c := by
        rw [hd, takeWhile_of_stops hc]
        rfl
      rw [hstay] at hvalue hrun
      exact ⟨_, hrun, hvalue⟩
    · exact walks_failAt hbd rfl

theorem walks_scopeName (hb : b.Onward c) : Walks b scopeName c fun _ _ => True := by
  refine (walks_skipGap hb).bind fun _ d hcd _ => walks_next?.bind fun next d' _ hnext => ?_
  obtain ⟨hnext, rfl⟩ := hnext
  have hbd := hb.trans hcd
  split
  · exact walks_fail hbd rfl
  · obtain ⟨x, hx⟩ := List.head?_eq_some_iff.1 hnext.symm
    exact (walks_advance hx (by decide)).bind fun _ _ _ _ => walks_pure trivial
  · exact (walks_word hbd).imp fun _ _ _ _ => trivial

end Lexemes

section Types

theorem walks_parameter {inner : Reader TypeExpr} {missing unclosed : SyntaxFault}
    (wrap : TypeExpr → TypeExpr) (hmissing : missing.inPlace = true)
    (hunclosed : unclosed.inPlace = true) (hb : b.Onward c)
    (hinner : ∀ d, c.Past d → Walks b inner d fun _ _ => True) :
    Walks b (do
      expect '<' missing
      let element ← inner
      expect '>' unclosed
      return wrap element) c fun t _ => ∃ element, t = wrap element := by
  refine (walks_expect '<' hmissing hb).bind fun _ d _ hd => (hinner d hd).bind fun element e hde _ => ?_
  exact (walks_expect '>' hunclosed (hb.trans (hd.onward.trans hde))).bind fun _ _ _ _ =>
    walks_pure ⟨element, rfl⟩

theorem walks_typeExpr (hb : b.Onward c) : Walks b typeExpr c fun t d =>
    c.Past d ∧ (Stops beginsGap c.rest → OpensWith t.firstWord c.rest) := by
  unfold typeExpr
  refine walks_fix (T := fun _ c => b.Onward c) (Q := fun _ c (t : TypeExpr) d =>
    c.Past d ∧ (Stops beginsGap c.rest → OpensWith t.firstWord c.rest)) ?_ hb
  intro again _ c hb hagain
  have hnested (d : Cursor) (hd : c.Past d) : Walks b (again ()) d fun _ e => d.Past e :=
    (hagain () d hd (hb.trans hd.onward)).imp fun _ _ _ he => he.1
  refine (walks_word hb).bind fun w d _ hw => ?_
  obtain ⟨hd, hopens⟩ := hw
  have hbd := hb.trans hd.onward
  have hinner (e : Cursor) (he : d.Past e) : Walks b (again ()) e fun _ _ => True :=
    (hnested e (hd.trans he.onward)).imp fun _ _ _ _ => trivial
  split
  · refine (walks_parameter .list rfl rfl hbd hinner).imp fun t e hde ht => ⟨hd.trans hde, ?_⟩
    obtain ⟨element, rfl⟩ := ht
    exact hopens
  · refine (walks_parameter .set rfl rfl hbd hinner).imp fun t e hde ht => ⟨hd.trans hde, ?_⟩
    obtain ⟨element, rfl⟩ := ht
    exact hopens
  · refine (walks_expect '<' rfl hbd).bind fun _ d₁ _ h₁ => (hinner d₁ h₁).bind fun _ d₂ h₂ _ => ?_
    have h₂ := h₁.trans h₂
    refine (walks_expect ',' rfl (hbd.trans h₂.onward)).bind fun _ d₃ _ h₃ => ?_
    have h₃ := h₂.trans h₃.onward
    refine (hinner d₃ h₃).bind fun _ d₄ h₄ _ => ?_
    have h₄ := h₃.trans h₄
    exact (walks_expect '>' rfl (hbd.trans h₄.onward)).bind fun _ d₅ _ h₅ =>
      walks_pure ⟨hd.trans (h₄.trans h₅.onward).onward, hopens⟩
  · exact walks_pure ⟨hd, hopens⟩

end Types

end Reader

end ThriftIdl
