import ThriftIdl.Proofs.LiteralSpellings
import ThriftIdl.Proofs.RewrittenComments

namespace ThriftIdl.Reader

open Text (widen)

variable {w : Rewriting} {D : Cursor → Prop} {c c' : Cursor} {x body : List Char} {quote ch : Char}
  {start start' : Position} {p : Char → Bool} {fault : SyntaxFault}

section Lexemes

theorem alike_position_moved (h : w.Carries c c') : Alike w.Closed D position position c c'
    fun p d p' d' => (p = c.position ∧ p' = w.move p) ∧ d = c ∧ d' = c' := by
  refine alike_position.imp fun p d p' d' hd => ?_
  obtain ⟨⟨rfl, rfl⟩, rfl, rfl⟩ := hd
  exact ⟨⟨rfl, h.position⟩, rfl, rfl⟩

theorem alike_peek (acrossComments : Bool) (h : w.Carries c c') :
    Alike w.Closed Nowhere (peek acrossComments) (peek acrossComments) c c' fun ch d ch' d' =>
      (ch' = ch ∧ (∃ x, d.rest = ch :: x) ∧ ch ≠ '\n') ∧ w.Carries d d' := by
  refine (alike_skip acrossComments h).bind_cut (fun _ d hd => ?_) fun _ d _ d' hd => ?_
  · refine (ends_next?_atEnd hd).bind fun next e he => ?_
    obtain ⟨rfl, -⟩ := he
    trivial
  · refine alike_next?.bind fun next e next' e' hnext => ?_
    obtain ⟨⟨hnext, rfl⟩, hnext', rfl⟩ := hnext
    rw [hnext', hd.head, ← hnext]
    split
    · next ch =>
      refine alike_pure ⟨⟨rfl, List.head?_eq_some_iff.1 hnext.symm, ?_⟩, hd.toCarries⟩
      rintro rfl
      exact absurd (hd.stops '\n' hnext.symm) (by decide)
    · exact alike_fail _ _

theorem alike_read (h : w.Carries c c') : Alike w.Closed Nowhere read read c c'
    fun ch d ch' d' => ch' = ch ∧ w.Carries d d' := by
  refine (alike_peek true h).bind fun ch d ch' d' hd => ?_
  obtain ⟨⟨rfl, ⟨x, hx⟩, hbreak⟩, hd⟩ := hd
  refine alike_advance.bind fun _ e _ e' he => ?_
  obtain ⟨rfl, rfl⟩ := he
  exact alike_pure ⟨rfl, hd.advance hx hbreak⟩

theorem alike_expect (ch : Char) (fault : SyntaxFault) (h : w.Carries c c') :
    Alike w.Closed Nowhere (expect ch fault) (expect ch fault) c c'
      fun _ d _ d' => w.Carries d d' := by
  refine alike_position.bind fun start d start' d' hd => ?_
  obtain ⟨⟨-, rfl⟩, -, rfl⟩ := hd
  refine (alike_read h).bind fun found e found' e' he => ?_
  obtain ⟨rfl, he⟩ := he
  split
  · exact alike_pure he
  · exact alike_failAt _ _ _ _

/-- After a gap, reading a lexeme fails at the end of the text. -/
theorem fails_takeWhile_atEnd {d : Cursor} (hd : AtEnd d) :
    Ends (takeWhile p) d (fun run _ => run = []) fun _ => True := by
  refine (ends_takeWhile p d).imp (fun run e hrun => ?_) fun _ he => he
  rw [← List.head?_eq_none_iff, hrun.2, hd]
  rfl

theorem alike_word (h : w.Carries c c') : Alike w.Closed Nowhere word word c c'
    fun name d name' d' => name' = name ∧ w.Carries d d' := by
  refine (alike_skipGap h).bind_cut (fun _ d hd => ?_) fun _ d _ d' hd => ?_
  · refine (fails_takeWhile_atEnd hd).bind fun run e hrun => ?_
    rw [if_pos hrun]
    trivial
  · refine (alike_takeWhile hd.toCarries (by decide) (by decide)).bind fun run e run' e' he => ?_
    obtain ⟨rfl, he⟩ := he
    split
    · exact alike_fail _ _
    · exact alike_pure ⟨rfl, he⟩

theorem alike_identifier (hyphens : Bool) (h : w.Carries c c') :
    Alike w.Closed Nowhere (identifier hyphens) (identifier hyphens) c c'
      fun name d name' d' => name' = name ∧ w.Carries d d' := by
  refine (alike_skipGap h).bind_cut (fun _ d hd => ?_) fun _ d _ d' hd => ?_
  · refine (ends_next?_atEnd hd).bind fun next e he => ?_
    obtain ⟨rfl, -⟩ := he
    trivial
  · refine alike_next?.bind fun next e next' e' hnext => ?_
    obtain ⟨⟨rfl, rfl⟩, rfl, rfl⟩ := hnext
    rw [hd.head]
    split
    · refine (alike_takeWhile hd.toCarries ?_ ?_).bind fun run f run' f' hf => ?_
      · cases hyphens <;> decide
      · cases hyphens <;> decide
      · obtain ⟨rfl, hf⟩ := hf
        exact alike_pure ⟨rfl, hf⟩
    · exact alike_fail _ _

theorem alike_integer (h : w.Carries c c') : Alike w.Closed Nowhere integer integer c c'
    fun n d n' d' => n' = n ∧ w.Carries d d' := by
  refine (alike_skipBlanks h).bind_cut (fun _ d hd => ?_) fun _ d _ d' hd => ?_
  · refine Ends.bind (Q := fun _ e => AtEnd e) hd fun _ e he => ?_
    refine (fails_takeWhile_atEnd he).bind fun run f hrun => ?_
    rw [if_pos hrun]
    trivial
  · refine alike_position.bind fun start e start' e' he => ?_
    obtain ⟨⟨-, rfl⟩, -, rfl⟩ := he
    refine (alike_takeWhile hd.toCarries (by decide) (by decide)).bind fun run f run' f' hf => ?_
    obtain ⟨rfl, hf⟩ := hf
    split
    · exact alike_fail _ _
    · split
      · exact alike_pure ⟨rfl, hf⟩
      · exact alike_failAt _ _ _ _

theorem alike_scopeName (h : w.Carries c c') : Alike w.Closed Nowhere scopeName scopeName c c'
    fun name d name' d' => name' = name ∧ w.Carries d d' := by
  refine (alike_skipGap h).bind_cut (fun _ d hd => ?_) fun _ d _ d' hd => ?_
  · refine (ends_next?_atEnd hd).bind fun next e he => ?_
    obtain ⟨rfl, -⟩ := he
    trivial
  · refine alike_next?.bind fun next e next' e' hnext => ?_
    obtain ⟨⟨rfl, rfl⟩, rfl, rfl⟩ := hnext
    rw [hd.head]
    split
    · exact alike_fail _ _
    · next hhead =>
      obtain ⟨x, hx⟩ := List.head?_eq_some_iff.1 hhead
      refine alike_advance.bind fun _ f _ f' hf => ?_
      obtain ⟨rfl, rfl⟩ := hf
      exact alike_pure ⟨rfl, hd.advance hx (by decide)⟩
    · exact alike_word hd.toCarries

end Lexemes

section Literals

/-- A literal comes next: its quotes, and what stands between them. -/
def Quotes (c : Cursor) (quote : Char) (body : List Char) : Prop :=
  ∃ d x, skipGap.run c = .ok ((), d) ∧ isQuote quote = true ∧ d.rest = quote :: (body ++ quote :: x)

theorem alike_literalTail (hquote : isQuote quote = true) (h : w.Carries c c') :
    Alike w.Closed D (literalTail start quote []) (literalTail start' quote []) c c'
      fun text d text' d' => (∃ body x, c.rest = body ++ quote :: x ∧
        Spells quote body text.toList ∧ Spells quote (widen w.returns body) text'.toList) ∧
          w.Carries d d' := by
  have hbreak := (isQuote_ne hquote).1
  cases hrun : (literalTail start quote []).run c with
  | ok out =>
    obtain ⟨body, text, x, hspells, hx⟩ := (ends_literalTail hbreak [] c).of_ok hrun
    obtain ⟨text', hspells'⟩ := hspells.widen hquote w.returns
    have hx' : c'.rest = widen w.returns body ++ quote :: (widen w.returns x ++ w.tail) := by
      rw [h.rest, hx, Text.widen_append, Text.widen_cons hbreak, List.append_assoc,
        List.cons_append]
    refine alike_of_ok (literalTail_run hquote hspells hx [])
      (literalTail_run hquote hspells' hx' []) ⟨⟨body, x, hx, ?_, ?_⟩, ?_⟩
    · simpa using hspells
    · simpa using hspells'
    · have hprefix : body ++ [quote] <+: c.rest := ⟨x, by simp [hx]⟩
      have hmoved := h.passAll hprefix
      rwa [Text.widen_append, Text.widen_cons hbreak] at hmoved
  | error e =>
    refine alike_of_error hrun fun hclosed => ?_
    cases hrun' : (literalTail start' quote []).run c' with
    | error e => exact ⟨e, rfl⟩
    | ok out =>
      obtain ⟨body', text', x', hspells', hx'⟩ := (ends_literalTail hbreak [] c').of_ok hrun'
      rw [h.rest, Rewriting.tail_of_closed hclosed, List.append_nil] at hx'
      obtain ⟨body, text, x, hspells, hx⟩ := hspells'.of_widen hquote hx'
      rw [literalTail_run hquote hspells hx []] at hrun
      cases hrun

theorem alike_literal (h : w.Carries c c') : Alike w.Closed Nowhere literal literal c c'
    fun text d text' d' => (∃ quote body, Quotes c quote body ∧
      Spells quote body text.toList ∧ Spells quote (widen w.returns body) text'.toList) ∧
        w.Carries d d' := by
  refine (alike_skipGap h).ran.bind_cut (fun _ d hd => ?_) fun _ d _ d' hd => ?_
  · refine Ends.bind (Q := fun _ e => AtEnd e) hd fun _ e he =>
      (ends_next?_atEnd he).bind fun next f hf => ?_
    obtain ⟨rfl, -⟩ := hf
    trivial
  · obtain ⟨hd, hgap⟩ := hd
    refine alike_position.bind fun start e start' e' he => ?_
    obtain ⟨⟨-, rfl⟩, -, rfl⟩ := he
    refine alike_next?.bind fun next f next' f' hnext => ?_
    obtain ⟨⟨rfl, rfl⟩, rfl, rfl⟩ := hnext
    rw [hd.head]
    split
    · next quote hhead =>
      obtain ⟨hhead, hquote⟩ := Option.filter_eq_some_iff.1 hhead
      obtain ⟨x, hx⟩ := List.head?_eq_some_iff.1 hhead
      refine alike_advance.bind fun _ g _ g' hg => ?_
      obtain ⟨rfl, rfl⟩ := hg
      refine (alike_literalTail hquote (hd.advance hx (isQuote_ne hquote).1)).imp
        fun text k text' k' hk => ?_
      obtain ⟨⟨body, y, hy, hspells⟩, hk⟩ := hk
      have hy : f.rest.tail = body ++ quote :: y := hy
      rw [hx, List.tail_cons] at hy
      exact ⟨⟨quote, body, ⟨f, y, hgap, hquote, by rw [hx, hy]⟩, hspells⟩, hk⟩
    · exact alike_fail _ _

end Literals

section Types

theorem alike_expect_walks (ch : Char) (hfault : fault.inPlace = true) (h : w.Carries c c') :
    Alike w.Closed Nowhere (expect ch fault) (expect ch fault) c c'
      fun _ d _ d' => w.Carries d d' ∧ c.Past d :=
  ((alike_expect ch fault h).walks (walks_expect ch hfault (.refl c))).imp
    fun _ _ _ _ hd => ⟨hd.1, hd.2.2⟩

theorem alike_parameter {inner inner' : Reader TypeExpr} {missing unclosed : SyntaxFault}
    (wrap : TypeExpr → TypeExpr) (hmissing : missing.inPlace = true)
    (hunclosed : unclosed.inPlace = true) (h : w.Carries c c')
    (hinner : ∀ d d', c.Past d → w.Carries d d' → Alike w.Closed Nowhere inner inner' d d'
      fun t e t' e' => (t' = t ∧ w.Carries e e') ∧ d.Onward e) :
    Alike w.Closed Nowhere (do
      expect '<' missing
      let element ← inner
      expect '>' unclosed
      return wrap element) (do
      expect '<' missing
      let element ← inner'
      expect '>' unclosed
      return wrap element) c c'
        fun t d t' d' => (t' = t ∧ w.Carries d d') ∧ c.Onward d := by
  refine (alike_expect_walks '<' hmissing h).bind fun _ d _ d' hd => ?_
  refine (hinner d d' hd.2 hd.1).bind fun element e element' e' he => ?_
  obtain ⟨⟨rfl, he⟩, honward⟩ := he
  refine (alike_expect_walks '>' hunclosed he).bind fun _ f _ f' hf => ?_
  exact alike_pure ⟨⟨rfl, hf.1⟩, hd.2.onward.trans (honward.trans hf.2.onward)⟩

theorem alike_typeExpr (h : w.Carries c c') : Alike w.Closed Nowhere typeExpr typeExpr c c'
    fun t d t' d' => t' = t ∧ w.Carries d d' := by
  unfold typeExpr
  refine (alike_fix (D := Nowhere) (T := fun _ _ c c' => w.Carries c c')
    (Q := fun _ _ c (t : TypeExpr) d t' d' => (t' = t ∧ w.Carries d d') ∧ c.Onward d)
    (fun _ _ _ hcut => hcut.elim) ?_ h).imp fun _ _ _ _ hd => hd.1
  rintro again again' _ _ c c' - hagain h
  refine ((alike_word h).walks (walks_word (.refl c))).bind fun name d name' d' hd => ?_
  obtain ⟨⟨rfl, hd⟩, -, hpast, -⟩ := hd
  have hinner (e e' : Cursor) (hpast' : d.Past e) (he : w.Carries e e') :
      Alike w.Closed Nowhere (again ()) (again' ()) e e'
        fun t f t' f' => (t' = t ∧ w.Carries f f') ∧ e.Onward f := by
    have hce := hpast.trans hpast'.onward
    exact hagain () () e e' hce.shorter (h.shorter he hce) he
  split
  · exact (alike_parameter .list rfl rfl hd hinner).imp
      fun _ _ _ _ he => ⟨he.1, hpast.onward.trans he.2⟩
  · exact (alike_parameter .set rfl rfl hd hinner).imp
      fun _ _ _ _ he => ⟨he.1, hpast.onward.trans he.2⟩
  · refine (alike_expect_walks '<' rfl hd).bind fun _ d₁ _ d₁' h₁ => ?_
    refine (hinner d₁ d₁' h₁.2 h₁.1).bind fun key d₂ key' d₂' h₂ => ?_
    obtain ⟨⟨rfl, h₂⟩, honward₂⟩ := h₂
    have hpast₂ := h₁.2.trans honward₂
    refine (alike_expect_walks ',' rfl h₂).bind fun _ d₃ _ d₃' h₃ => ?_
    have hpast₃ := hpast₂.trans h₃.2.onward
    refine (hinner d₃ d₃' hpast₃ h₃.1).bind fun value d₄ value' d₄' h₄ => ?_
    obtain ⟨⟨rfl, h₄⟩, honward₄⟩ := h₄
    have hpast₄ := hpast₃.trans honward₄
    refine (alike_expect_walks '>' rfl h₄).bind fun _ d₅ _ d₅' h₅ => ?_
    exact alike_pure ⟨⟨rfl, h₅.1⟩, hpast.onward.trans (hpast₄.trans h₅.2.onward).onward⟩
  · exact alike_pure ⟨⟨rfl, hd⟩, hpast.onward⟩

end Types

end ThriftIdl.Reader
