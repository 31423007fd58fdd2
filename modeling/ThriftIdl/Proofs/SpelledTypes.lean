import ThriftIdl.Proofs.ReadableDocuments

namespace ThriftIdl

open Reader (Gap Stops beginsGap isBlank isWordChar)

def TypeExpr.tokens : TypeExpr → List String
  | named name => [name]
  | list element => "list" :: "<" :: (element.tokens ++ [">"])
  | set element => "set" :: "<" :: (element.tokens ++ [">"])
  | map key value => "map" :: "<" :: (key.tokens ++ "," :: (value.tokens ++ [">"]))

/-- Tokens in their order, with a gap in front of each. -/
inductive Spaced : List String → List Char → Prop
  | nil : Spaced [] []
  | cons {token : String} {tokens : List String} {gap text : List Char} (hgap : Gap gap)
      (rest : Spaced tokens text) : Spaced (token :: tokens) (gap ++ (token.toList ++ text))

section Spellings

variable {tokens tokens' : List String} {gap x y : List Char}

theorem Spaced.append (h : Spaced tokens x) (h' : Spaced tokens' y) :
    Spaced (tokens ++ tokens') (x ++ y) := by
  induction h with
  | nil => exact h'
  | cons hgap _ ih =>
    simp only [List.cons_append, List.append_assoc]
    exact .cons hgap ih

theorem Spaced.split (h : Spaced (tokens ++ tokens') x) :
    ∃ y z, x = y ++ z ∧ Spaced tokens y ∧ Spaced tokens' z := by
  induction tokens generalizing x with
  | nil => exact ⟨[], x, rfl, .nil, h⟩
  | cons token tokens ih =>
    cases h with
    | @cons _ _ gap text hgap rest =>
      obtain ⟨y, z, rfl, hy, hz⟩ := ih rest
      exact ⟨gap ++ (token.toList ++ y), z, by simp, .cons hgap hy, hz⟩

theorem Spaced.token (token : String) (h : Spaced tokens x) :
    Spaced (token :: tokens) (token.toList ++ x) :=
  .cons Reader.gap_nil h

theorem Spaced.closing (h : Spaced [">"] x) : ∃ gap, Gap gap ∧ x = gap ++ ['>'] := by
  cases h with
  | cons hgap rest =>
    cases rest
    exact ⟨_, hgap, rfl⟩

theorem Spaced.parameter (h : Spaced ("<" :: (tokens ++ [">"])) x) :
    ∃ opening text closing, x = opening ++ '<' :: (text ++ (closing ++ ['>'])) ∧
      Gap opening ∧ Spaced tokens text ∧ Gap closing := by
  cases h with
  | cons hopening rest =>
    obtain ⟨text, y, rfl, htext, hy⟩ := rest.split
    obtain ⟨closing, hclosing, rfl⟩ := hy.closing
    exact ⟨_, text, closing, rfl, hopening, htext, hclosing⟩

theorem Spaced.parameters (h : Spaced ("<" :: (tokens ++ "," :: (tokens' ++ [">"]))) x) :
    ∃ opening text comma text' closing,
      x = opening ++ '<' :: (text ++ (comma ++ ',' :: (text' ++ (closing ++ ['>'])))) ∧
        Gap opening ∧ Spaced tokens text ∧ Gap comma ∧ Spaced tokens' text' ∧ Gap closing := by
  cases h with
  | cons hopening rest =>
    obtain ⟨text, y, rfl, htext, hy⟩ := rest.split
    cases hy with
    | cons hcomma hnext =>
      obtain ⟨text', z, rfl, htext', hz⟩ := hnext.split
      obtain ⟨closing, hclosing, rfl⟩ := hz.closing
      exact ⟨_, text, _, text', closing, rfl, hopening, htext, hcomma, htext', hclosing⟩

/-- The form in which a type is printed is one of its spellings. -/
theorem TypeExpr.spaced_render (t : TypeExpr) (hgap : ∀ c ∈ gap, isBlank c = true) :
    Spaced t.tokens (gap ++ t.render.toList) := by
  induction t generalizing gap with
  | named name =>
    have h : Spaced [name] (gap ++ (name.toList ++ [])) := .cons (.blanks hgap) .nil
    rwa [List.append_nil] at h
  | list element ih =>
    have htext : (list element).render.toList =
        "list".toList ++ ("<".toList ++ (element.render.toList ++ (">".toList ++ []))) := by
      simp [render]
    have helement : Spaced element.tokens element.render.toList := ih Reader.blank_nil
    rw [htext]
    exact .cons (.blanks hgap) (.token "<" (helement.append (.token ">" .nil)))
  | set element ih =>
    have htext : (set element).render.toList =
        "set".toList ++ ("<".toList ++ (element.render.toList ++ (">".toList ++ []))) := by
      simp [render]
    have helement : Spaced element.tokens element.render.toList := ih Reader.blank_nil
    rw [htext]
    exact .cons (.blanks hgap) (.token "<" (helement.append (.token ">" .nil)))
  | map key value ihKey ihValue =>
    have htext : (map key value).render.toList =
        "map".toList ++ ("<".toList ++ (key.render.toList ++
          (",".toList ++ ([' '] ++ value.render.toList ++ (">".toList ++ []))))) := by
      simp [render]
    have hkey : Spaced key.tokens key.render.toList := ihKey Reader.blank_nil
    have hvalue := ihValue Reader.blank_space
    rw [htext]
    exact .cons (.blanks hgap)
      (.token "<" (hkey.append (.token "," (hvalue.append (.token ">" .nil)))))

end Spellings

namespace Reader

variable {t : TypeExpr} {gap gap' written x : List Char}

theorem isWordChar_of_beginsGap {ch : Char} (h : beginsGap ch = true) : isWordChar ch = false := by
  rw [Bool.eq_false_iff]
  intro hword
  rw [beginsGap_of_isWordChar hword] at h
  cases h

theorem reads_parameter {inner : Reader TypeExpr} {element : TypeExpr}
    {missing unclosed : SyntaxFault} (wrap : TypeExpr → TypeExpr) (hopen : Gap gap)
    (hclose : Gap gap')
    (h : Reads inner (written ++ (gap' ++ '>' :: x)) (gap' ++ '>' :: x) (· = element)) :
    Reads (do
      expect '<' missing
      let element ← inner
      expect '>' unclosed
      return wrap element) (gap ++ '<' :: (written ++ (gap' ++ '>' :: x))) x (· = wrap element) :=
  (reads_expect hopen _ (by decide)).bind fun _ _ => h.then
    ((reads_expect hclose _ (by decide)).bind fun _ _ => reads_pure rfl)

/-- Every spelling of a type is read as that type, up to its end. -/
theorem reads_spaced (ht : t.Readable) (h : Spaced t.tokens written)
    (hx : (∃ name, t = .named name) → Stops isWordChar x) :
    Reads typeExpr (written ++ x) x (· = t) := by
  have hsign {gap y : List Char} {sign : Char} (hgap : Gap gap) (hsign : isWordChar sign = false) :
      Stops isWordChar (gap ++ sign :: y) :=
    hgap.stops (fun _ => isWordChar_of_beginsGap) (stops_cons hsign)
  unfold typeExpr
  induction t generalizing written x with
  | named name =>
    obtain ⟨hword, hlist, hset, hmap⟩ := ht
    cases h with
    | cons hgap rest =>
      cases rest
      rw [List.append_nil, List.append_assoc]
      refine Reads.fix ((reads_word hgap hword (hx ⟨name, rfl⟩)).then ?_)
      split
      · exact absurd rfl hlist
      · exact absurd rfl hset
      · exact absurd rfl hmap
      · exact reads_pure rfl
  | list element ih =>
    cases h with
    | @cons _ _ gap _ hgap rest =>
      obtain ⟨opening, text, closing, rfl, hopening, htext, hclosing⟩ := rest.parameter
      have helement := ih (x := closing ++ '>' :: x) ht htext fun _ => hsign hclosing rfl
      have hwritten : gap ++ ("list".toList ++ (opening ++ '<' :: (text ++ (closing ++ ['>'])))) ++ x =
          gap ++ ("list".toList ++ (opening ++ '<' :: (text ++ (closing ++ '>' :: x)))) := by simp
      rw [hwritten]
      refine Reads.fix ((reads_word hgap (by decide) (hsign hopening rfl)).then ?_)
      refine reads_parameter TypeExpr.list hopening hclosing (helement.guarded ?_)
      simp only [List.length_append, List.length_cons]
      omega
  | set element ih =>
    cases h with
    | @cons _ _ gap _ hgap rest =>
      obtain ⟨opening, text, closing, rfl, hopening, htext, hclosing⟩ := rest.parameter
      have helement := ih (x := closing ++ '>' :: x) ht htext fun _ => hsign hclosing rfl
      have hwritten : gap ++ ("set".toList ++ (opening ++ '<' :: (text ++ (closing ++ ['>'])))) ++ x =
          gap ++ ("set".toList ++ (opening ++ '<' :: (text ++ (closing ++ '>' :: x)))) := by simp
      rw [hwritten]
      refine Reads.fix ((reads_word hgap (by decide) (hsign hopening rfl)).then ?_)
      refine reads_parameter TypeExpr.set hopening hclosing (helement.guarded ?_)
      simp only [List.length_append, List.length_cons]
      omega
  | map key value ihKey ihValue =>
    cases h with
    | @cons _ _ gap _ hgap rest =>
      obtain ⟨opening, text, comma, text', closing, rfl, hopening, htext, hcomma, htext', hclosing⟩ :=
        rest.parameters
      have hkey := ihKey (x := comma ++ ',' :: (text' ++ (closing ++ '>' :: x))) ht.1 htext
        fun _ => hsign hcomma rfl
      have hvalue := ihValue (x := closing ++ '>' :: x) ht.2 htext' fun _ => hsign hclosing rfl
      have hwritten : gap ++ ("map".toList ++ (opening ++
          '<' :: (text ++ (comma ++ ',' :: (text' ++ (closing ++ ['>'])))))) ++ x =
          gap ++ ("map".toList ++ (opening ++
            '<' :: (text ++ (comma ++ ',' :: (text' ++ (closing ++ '>' :: x)))))) := by simp
      rw [hwritten]
      refine Reads.fix ((reads_word hgap (by decide) (hsign hopening rfl)).then ?_)
      refine (reads_expect hopening _ (by decide)).bind fun _ _ => (hkey.guarded ?_).then ?_
      · simp only [List.length_append, List.length_cons]
        omega
      refine (reads_expect hcomma _ (by decide)).bind fun _ _ => (hvalue.guarded ?_).then ?_
      · simp only [List.length_append, List.length_cons]
        omega
      exact (reads_expect hclosing _ (by decide)).bind fun _ _ => reads_pure rfl

end Reader

end ThriftIdl
