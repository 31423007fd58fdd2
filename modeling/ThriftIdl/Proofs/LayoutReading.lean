import ThriftIdl.Proofs.LayoutLexemes
import ThriftIdl.Proofs.Relocation
import ThriftIdl.Proofs.SourceOrder

namespace ThriftIdl

open Layout

namespace Reader

variable {α σ : Type} {c c' : Cursor} {ch : Char} {start start' : Position}

open Cursor (Abreast Loose)

section Doomed

/-- A separator that belongs to no item begins no item either. -/
theorem ends_comments_doomed (h : Doomed c) :
    Ends comments c (fun _ d => ∃ ch x, d.rest = ch :: x ∧ isSeparator ch = true) fun _ => True := by
  obtain ⟨ch, x, hx, hch⟩ := h
  refine Ends.fix_once fun again => ?_
  refine Ends.bind (Q := fun _ d => d.rest = ch :: x) ?_ fun _ d hd => ?_
  · unfold Ends
    rw [skipBlanks, skipWhile_run]
    exact (rest_passAll_takeWhile _ _).trans hx
  refine ends_next?.bind fun next d' hnext => ?_
  obtain ⟨rfl, rfl⟩ := hnext
  rw [hd, List.head?_cons]
  split
  · next hhead =>
    obtain rfl := Option.some.inj hhead
    have hslash := (hch.resolve_left (by simp [isSeparator])).2
    exact (fails_comment hd hslash).bind.imp (fun _ _ hfalse => hfalse.elim) fun _ he => he
  · next hhead =>
    obtain rfl := Option.some.inj hhead
    simp [isSeparator] at hch
  · next hslash _ =>
    exact ⟨ch, x, hd, hch.resolve_right fun h => hslash (by rw [h.1])⟩

theorem doomed_of_separator {x : List Char} (hx : c.rest = ch :: x)
    (hch : isSeparator ch = true) : Doomed c :=
  ⟨ch, x, dropWhile_isBlank_cons hx (isSeparator_blank hch), .inl hch⟩

theorem ends_skipGap_doomed (h : Doomed c) :
    Ends skipGap c (fun _ d => ∃ ch x, d.rest = ch :: x ∧ isSeparator ch = true) fun _ => True := by
  change Ends (comments >>= fun _ => pure ()) c _ _
  exact (ends_comments_doomed h).bind fun _ _ hd => hd

theorem ends_peek_doomed (h : Doomed c) :
    Ends (peek true) c (fun ch d => isSeparator ch = true ∧ Doomed d) fun _ => True := by
  refine (ends_skipGap_doomed h).bind fun _ d hd => ?_
  obtain ⟨ch, x, hx, hch⟩ := hd
  refine ends_next?.bind fun next d' hnext => ?_
  obtain ⟨rfl, rfl⟩ := hnext
  rw [hx, List.head?_cons]
  exact ⟨hch, doomed_of_separator hx hch⟩

theorem fails_word (h : Doomed c) : Fails word c := by
  refine (ends_skipGap_doomed h).bind fun _ d hd => ?_
  obtain ⟨ch, x, hx, hch⟩ := hd
  refine (ends_takeWhile isWordChar d).bind fun run e hrun => ?_
  have hnil : run = [] := by
    rw [← List.head?_eq_none_iff, hrun.2, hx, List.head?_cons, Option.filter_some]
    simp only [isSeparator, Bool.or_eq_true, beq_iff_eq] at hch
    obtain rfl | rfl := hch <;> rfl
  rw [if_pos hnil]
  trivial

theorem fails_identifier (hyphens : Bool) (h : Doomed c) : Fails (identifier hyphens) c := by
  refine (ends_skipGap_doomed h).bind fun _ d hd => ?_
  obtain ⟨ch, x, hx, hch⟩ := hd
  refine ends_next?.bind fun next e hnext => ?_
  obtain ⟨rfl, rfl⟩ := hnext
  have hnone : (e.rest.head?.any isIdentifierStart) = false := by
    rw [hx, List.head?_cons, Option.any_some]
    simp only [isSeparator, Bool.or_eq_true, beq_iff_eq] at hch
    obtain rfl | rfl := hch <;> rfl
  rw [hnone]
  trivial

theorem fails_typeExpr (h : Doomed c) : Fails typeExpr c :=
  Ends.fix_once fun _ => (fails_word h).bind

end Doomed

section Blocks

/-- Items read in step give blocks read in step. An item that leaves a separator behind that does
not stand on its line is followed by nothing that could be read. -/
theorem inStep_itemsUntil {close : Char} {item : String → σ → Reader (α × σ)} (erase : α → α)
    (hclose : isPlain close = true ∧ isSeparator close = false ∧ depthAfter 0 close = 0)
    (hfails : ∀ doc s c, Doomed c → Fails (item doc s) c)
    (hitem : ∀ s c c', Abreast 0 c c' → Stops beginsGap c'.rest →
      InStepOr Doomed (item "" s) (item "" s) c c' fun out d out' d' =>
        ((erase out'.1 = erase out.1 ∧ out'.2 = out.2) ∧ Loose 0 d d') ∧ c'.Past d')
    (s : σ) (h : Loose 0 c c') :
    InStep (itemsUntil close item s) (itemsUntil close item s) c c' fun items d items' d' =>
      items'.map erase = items.map erase ∧ Abreast 0 d d' := by
  unfold itemsUntil
  refine inStep_fix (γ := Unit) (g := ()) (D := Doomed)
    (T := fun _ (state state' : List α × σ) c c' =>
      (state'.1.map erase = state.1.map erase ∧ state'.2 = state.2) ∧ Loose 0 c c')
    (Q := fun _ _ _ (items : List α) d items' d' =>
      items'.map erase = items.map erase ∧ Abreast 0 d d') ?_ ?_ ⟨⟨rfl, rfl⟩, h⟩
  · -- No item begins here, and the block is not closed.
    intro again state c hc
    refine Ends.bind (Q := fun _ d => Doomed d) ?_ fun doc d hd => ?_
    · exact (ends_comments_doomed hc).bind fun _ d hd => by
        obtain ⟨ch, x, hx, hch⟩ := hd
        exact doomed_of_separator hx hch
    refine (ends_peek_doomed hd).bind fun ch e he => ?_
    rw [if_neg (by rintro rfl; simp [hclose.2.1] at he)]
    exact (hfails doc state.2 e he.2).bind
  · rintro again again' - ⟨items, s⟩ ⟨items', _⟩ c c' hdoomed hagain ⟨⟨hitems, rfl⟩, h⟩
    refine ((inStep_documentation h).walks (walks_documentation (.refl _))).bind
      fun doc d doc' d' hd => ?_
    obtain ⟨⟨⟨rfl, rfl⟩, hd, -⟩, hcd', -⟩ := hd
    refine ((inStep_peek true hd.loose).walks (walks_peek_true (.refl _))).bind
      fun next e next' e' he => ?_
    obtain ⟨⟨⟨rfl, x, hx⟩, he, -⟩, hde', -, hstops⟩ := he
    have hce' := hcd'.trans hde'
    split
    · next hnext =>
      refine inStep_advance.bind ?_
      rintro _ _ _ _ ⟨rfl, rfl⟩
      have hadvanced := he.advance hx (hnext ▸ hclose.1)
      rw [hnext, hclose.2.2] at hadvanced
      exact inStep_pure ⟨hitems, hadvanced⟩
    · refine (hitem _ e e' he hstops).bind_of_fails (fun out f hf => hdoomed _ f hf) ?_
      rintro out f out' f' ⟨⟨⟨herase, hstate⟩, hf⟩, hpast⟩
      refine hagain () _ _ f f' (.of_onward hce' hpast) ⟨⟨?_, hstate⟩, hf⟩
      simp [hitems, herase]

end Blocks

section Enums

theorem inStep_writtenValue (h : Abreast 0 c c') : InStep writtenValue writtenValue c c'
    fun written d written' d' => written' = written ∧ Abreast 0 d d' := by
  refine inStep_get.bind ?_
  rintro mark _ mark' _ ⟨rfl, rfl, rfl, rfl⟩
  refine (inStep_peek false h.loose).bind fun next d next' d' hd => ?_
  obtain ⟨⟨rfl, x, hx⟩, hd, -⟩ := hd
  split
  · next hnext =>
    refine inStep_advance.bind ?_
    rintro _ _ _ _ ⟨rfl, rfl⟩
    have hadvanced : Abreast 0 d.advance d'.advance := by
      have := hd.advance hx (hnext ▸ rfl)
      rwa [hnext] at this
    refine (inStep_integer hadvanced.loose).bind fun n e n' e' he => ?_
    obtain ⟨rfl, he⟩ := he
    exact inStep_pure ⟨rfl, he⟩
  · refine inStep_set.bind ?_
    rintro _ _ _ _ ⟨rfl, rfl⟩
    exact inStep_pure ⟨rfl, h⟩

theorem inStepOr_enumMember (n : Numbering) (h : Abreast 0 c c')
    (hc' : Stops beginsGap c'.rest) :
    InStepOr Doomed (enumMember "" n) (enumMember "" n) c c' fun out d out' d' =>
      ((out'.1.relocate anywhere = out.1.relocate anywhere ∧ out'.2 = out.2) ∧ Loose 0 d d') ∧
        c'.Past d' := by
  refine InStepOr.imp (InStepOr.walks (Q := fun out d out' d' =>
    (out'.1.relocate anywhere = out.1.relocate anywhere ∧ out'.2 = out.2) ∧ Loose 0 d d') ?_
    (walks_enumMember "" n (.refl _) hc')) fun _ _ _ _ hd => ⟨hd.1, hd.2.2.1⟩
  refine inStep_position.bind_or ?_
  rintro _ _ _ _ ⟨rfl, rfl⟩
  refine (inStep_identifier false h.loose).bind_or fun name d name' d' hd => ?_
  obtain ⟨rfl, hd⟩ := hd
  refine (inStep_writtenValue hd).bind_or fun written e written' e' he => ?_
  obtain ⟨rfl, he⟩ := he
  refine (inStepOr_trailing he).bind (fun following f hf => ?_) fun following f following' f' hf => ?_
  · split
    · exact hf
    · trivial
    · trivial
  · obtain ⟨⟨rfl, rfl⟩, hf⟩ := hf
    split
    · exact (inStep_pure ⟨⟨rfl, rfl⟩, hf⟩).or
    · exact (fails_failAt _ _).inStepOr
    · exact (fails_failAt _ _).inStepOr

theorem inStep_enumDecl (h : Loose 0 c c') :
    InStep (enumDecl start "") (enumDecl start' "") c c' fun decl d decl' d' =>
      decl'.relocate anywhere = decl.relocate anywhere ∧ Abreast 0 d d' := by
  refine (inStep_identifier false h).bind fun name d name' d' hd => ?_
  obtain ⟨rfl, hd⟩ := hd
  refine (inStep_expect rfl hd.loose).bind fun _ e _ e' he => ?_
  refine (inStep_itemsUntil (EnumMemberDecl.relocate anywhere) ⟨rfl, rfl, rfl⟩
    (fun doc n c hc => ?_) (fun n c c' h hc' => inStepOr_enumMember n h hc') _ he.loose).bind
      fun members f members' f' hf => ?_
  · exact Ends.bind (Q := fun _ d => d = c) rfl fun _ _ hd => hd ▸ (fails_identifier false hc).bind
  · exact inStep_pure ⟨by simp [EnumDecl.relocate, anywhere, hf.1], hf.2⟩

end Enums

section Fields

theorem inStep_fieldId (h : Loose 0 c c') : InStep (fieldId start) (fieldId start') c c'
    fun id d id' d' => id' = id ∧ Abreast 0 d d' := by
  refine (inStep_integer h).bind fun id d id' d' hd => ?_
  obtain ⟨rfl, hd⟩ := hd
  split
  · exact (fails_failAt _ _).inStep
  · exact (inStep_expect rfl hd.loose).bind fun _ e _ e' he => inStep_pure ⟨rfl, he⟩

theorem inStep_writtenId (h : Loose 0 c c') : InStep (writtenId start) (writtenId start') c c'
    fun written d written' d' => written' = written ∧ Abreast 0 d d' := by
  refine (inStep_peek true h).bind fun next d next' d' hd => ?_
  obtain ⟨⟨rfl, -⟩, hd, -⟩ := hd
  split
  · refine (inStep_fieldId hd.loose).bind fun id e id' e' he => ?_
    obtain ⟨rfl, he⟩ := he
    exact inStep_pure ⟨rfl, he⟩
  · exact inStep_pure ⟨rfl, hd⟩

theorem inStep_fieldType (h : Loose 0 c c') : InStep fieldType fieldType c c'
    fun out d out' d' => out' = out ∧ Abreast 0 d d' := by
  refine (inStep_typeExpr h).bind fun type d type' d' hd => ?_
  obtain ⟨rfl, hd⟩ := hd
  split
  · refine (inStep_typeExpr hd.loose).bind fun type e type' e' he => ?_
    obtain ⟨rfl, he⟩ := he
    exact inStep_pure ⟨rfl, he⟩
  · refine (inStep_typeExpr hd.loose).bind fun type e type' e' he => ?_
    obtain ⟨rfl, he⟩ := he
    exact inStep_pure ⟨rfl, he⟩
  · exact inStep_pure ⟨rfl, hd⟩

theorem inStep_noDefault (h : Abreast 0 c c') :
    InStep noDefault noDefault c c' fun _ d _ d' => Abreast 0 d d' := by
  refine inStep_get.bind ?_
  rintro mark _ mark' _ ⟨rfl, rfl, rfl, rfl⟩
  refine (inStep_peek false h.loose).bind fun next d next' d' hd => ?_
  obtain ⟨⟨rfl, -⟩, -⟩ := hd
  split
  · exact (fails_fail _).inStep
  · exact inStep_set.imp fun _ e _ e' he => by
      obtain ⟨rfl, rfl⟩ := he
      exact h

theorem inStepOr_field (n : Numbering) (h : Abreast 0 c c') (hc' : Stops beginsGap c'.rest) :
    InStepOr Doomed (field "" n) (field "" n) c c' fun out d out' d' =>
      ((out'.1.relocate anywhere = out.1.relocate anywhere ∧ out'.2 = out.2) ∧ Loose 0 d d') ∧
        c'.Past d' := by
  refine InStepOr.imp (InStepOr.walks (Q := fun out d out' d' =>
    (out'.1.relocate anywhere = out.1.relocate anywhere ∧ out'.2 = out.2) ∧ Loose 0 d d') ?_
    (walks_field "" n (.refl _) hc')) fun _ _ _ _ hd => ⟨hd.1, hd.2.2.1⟩
  refine inStep_position.bind_or ?_
  rintro _ _ _ _ ⟨rfl, rfl⟩
  refine (inStep_writtenId h.loose).bind_or fun written d written' d' hd => ?_
  obtain ⟨rfl, hd⟩ := hd
  refine (inStep_fieldType hd.loose).bind_or fun out e out' e' he => ?_
  obtain ⟨rfl, he⟩ := he
  refine (inStep_identifier false he.loose).bind_or fun name f name' f' hf => ?_
  obtain ⟨rfl, hf⟩ := hf
  refine (inStep_noDefault hf).bind_or fun _ g _ g' hg => ?_
  refine (inStepOr_trailing hg).bind (fun following k hk => ?_) fun following k following' k' hk => ?_
  · split
    · exact hk
    · trivial
    · trivial
  · obtain ⟨⟨rfl, rfl⟩, hk⟩ := hk
    split
    · exact (inStep_pure ⟨⟨rfl, rfl⟩, hk⟩).or
    · exact (fails_failAt _ _).inStepOr
    · exact (fails_failAt _ _).inStepOr

theorem fails_field (doc : String) (n : Numbering) (hc : Doomed c) : Fails (field doc n) c := by
  refine Ends.bind (Q := fun _ d => d = c) rfl ?_
  rintro start _ rfl
  refine Ends.bind (Q := fun _ d => Doomed d) ?_ fun _ d hd => ?_
  · refine (ends_peek_doomed hc).bind fun ch d hd => ?_
    have hnumber : beginsNumber ch = false := by
      have hch := hd.1
      simp only [isSeparator, Bool.or_eq_true, beq_iff_eq] at hch
      obtain rfl | rfl := hch <;> rfl
    rw [hnumber]
    exact hd.2
  · exact Fails.bind (Fails.bind (fails_typeExpr hd))

theorem inStep_fields {close : Char}
    (hclose : isPlain close = true ∧ isSeparator close = false ∧ depthAfter 0 close = 0)
    (h : Loose 0 c c') : InStep (fields close) (fields close) c c' fun fields d fields' d' =>
      fields'.map (·.relocate anywhere) = fields.map (·.relocate anywhere) ∧ Abreast 0 d d' :=
  inStep_itemsUntil (FieldDecl.relocate anywhere) hclose (fun doc n _ hc => fails_field doc n hc)
    (fun n _ _ h hc' => inStepOr_field n h hc') _ h

theorem inStep_recordDecl (kind : RecordKind) (h : Loose 0 c c') :
    InStep (recordDecl kind start "") (recordDecl kind start' "") c c' fun decl d decl' d' =>
      decl'.relocate anywhere = decl.relocate anywhere ∧ Abreast 0 d d' := by
  refine (inStep_identifier false h).bind fun name d name' d' hd => ?_
  obtain ⟨rfl, hd⟩ := hd
  refine (inStep_expect rfl hd.loose).bind fun _ e _ e' he => ?_
  refine (inStep_fields ⟨rfl, rfl, rfl⟩ he.loose).bind fun fields f fields' f' hf => ?_
  exact inStep_pure ⟨by simp [RecordDecl.relocate, anywhere, hf.1], hf.2⟩

end Fields

section Services

theorem inStep_returnType (h : Loose 0 c c') : InStep returnType returnType c c'
    fun out d out' d' => out' = out ∧ Abreast 0 d d' := by
  refine (inStep_typeExpr h).bind fun type d type' d' hd => ?_
  obtain ⟨rfl, hd⟩ := hd
  split
  · refine (inStep_typeExpr hd.loose).bind fun type e type' e' he => ?_
    obtain ⟨rfl, he⟩ := he
    exact inStep_pure ⟨rfl, he⟩
  · exact inStep_pure ⟨rfl, hd⟩

theorem inStep_wordAfter (first : Char) (acrossComments : Bool) (h : Loose 0 c c') :
    InStep (wordAfter first acrossComments) (wordAfter first acrossComments) c c'
      fun next d next' d' => next' = next ∧ Abreast 0 d d' := by
  refine (inStep_peek acrossComments h).bind fun ch d ch' d' hd => ?_
  obtain ⟨⟨rfl, -⟩, hd, -⟩ := hd
  split
  · refine (inStep_word hd.loose).bind fun w e w' e' he => ?_
    obtain ⟨rfl, he⟩ := he
    exact inStep_pure ⟨rfl, he⟩
  · exact inStep_pure ⟨rfl, hd⟩

theorem inStep_throwsClause (h : Abreast 0 c c') :
    InStep throwsClause throwsClause c c' fun throws d throws' d' =>
      throws'.map (·.relocate anywhere) = throws.map (·.relocate anywhere) ∧ Abreast 0 d d' := by
  refine inStep_get.bind ?_
  rintro mark _ mark' _ ⟨rfl, rfl, rfl, rfl⟩
  refine (inStep_wordAfter 't' false h.loose).bind fun next d next' d' hd => ?_
  obtain ⟨rfl, hd⟩ := hd
  split
  · refine (inStep_expect rfl hd.loose).bind fun _ e _ e' he => ?_
    exact inStep_fields ⟨rfl, rfl, rfl⟩ he.loose
  · refine inStep_set.bind ?_
    rintro _ _ _ _ ⟨rfl, rfl⟩
    exact inStep_pure ⟨rfl, h⟩

theorem inStepOr_function (s : Unit) (h : Abreast 0 c c') (hc' : Stops beginsGap c'.rest) :
    InStepOr Doomed (function "" s) (function "" s) c c' fun out d out' d' =>
      ((out'.1.relocate anywhere = out.1.relocate anywhere ∧ out'.2 = out.2) ∧ Loose 0 d d') ∧
        c'.Past d' := by
  refine InStepOr.imp (InStepOr.walks (Q := fun out d out' d' =>
    (out'.1.relocate anywhere = out.1.relocate anywhere ∧ out'.2 = out.2) ∧ Loose 0 d d') ?_
    (walks_function "" s (.refl _) hc')) fun _ _ _ _ hd => ⟨hd.1, hd.2.2.1⟩
  refine inStep_position.bind_or ?_
  rintro _ _ _ _ ⟨rfl, rfl⟩
  refine (inStep_returnType h.loose).bind_or fun out d out' d' hd => ?_
  obtain ⟨rfl, hd⟩ := hd
  refine (inStep_identifier false hd.loose).bind_or fun name e name' e' he => ?_
  obtain ⟨rfl, he⟩ := he
  refine (inStep_expect rfl he.loose).bind_or fun _ f _ f' hf => ?_
  refine (inStep_fields ⟨rfl, rfl, rfl⟩ hf.loose).bind_or fun params g params' g' hg => ?_
  refine (inStep_throwsClause hg.2).bind_or fun throws k throws' k' hk => ?_
  refine (inStepOr_trailing hk.2).bind (fun following m hm => hm)
    fun following m following' m' hm => ?_
  obtain ⟨⟨rfl, rfl⟩, hm⟩ := hm
  exact (inStep_pure ⟨⟨by simp [FunctionDecl.relocate, anywhere, hg.1, hk.1], rfl⟩, hm⟩).or

theorem fails_function (doc : String) (s : Unit) (hc : Doomed c) : Fails (function doc s) c :=
  Ends.bind (Q := fun _ d => d = c) rfl fun _ _ hd =>
    hd ▸ Fails.bind (Fails.bind (fails_typeExpr hc))

theorem inStep_baseService (h : Loose 0 c c') : InStep baseService baseService c c'
    fun base d base' d' => base' = base ∧ Abreast 0 d d' := by
  refine (inStep_wordAfter 'e' true h).bind fun next d next' d' hd => ?_
  obtain ⟨rfl, hd⟩ := hd
  split
  · refine (inStep_identifier false hd.loose).bind fun name e name' e' he => ?_
    obtain ⟨rfl, he⟩ := he
    exact inStep_pure ⟨rfl, he⟩
  · exact (fails_fail _).inStep
  · exact inStep_pure ⟨rfl, hd⟩

theorem inStep_serviceDecl (h : Loose 0 c c') :
    InStep (serviceDecl start "") (serviceDecl start' "") c c' fun decl d decl' d' =>
      decl'.relocate anywhere = decl.relocate anywhere ∧ Abreast 0 d d' := by
  refine (inStep_identifier false h).bind fun name d name' d' hd => ?_
  obtain ⟨rfl, hd⟩ := hd
  refine (inStep_baseService hd.loose).bind fun base e base' e' he => ?_
  obtain ⟨rfl, he⟩ := he
  refine (inStep_expect rfl he.loose).bind fun _ f _ f' hf => ?_
  refine (inStep_itemsUntil (FunctionDecl.relocate anywhere) ⟨rfl, rfl, rfl⟩
    (fun doc s _ hc => fails_function doc s hc) (fun s _ _ h hc' => inStepOr_function s h hc')
      _ hf.loose).bind fun functions g functions' g' hg => ?_
  exact inStep_pure ⟨by simp [ServiceDecl.relocate, anywhere, hg.1], hg.2⟩

end Services

section Declarations

theorem inStep_namespaceDecl (h : Loose 0 c c') :
    InStep (namespaceDecl start) (namespaceDecl start') c c' fun decl d decl' d' =>
      decl'.relocate anywhere = decl.relocate anywhere ∧ Abreast 0 d d' := by
  refine (inStep_scopeName h).bind fun name d name' d' hd => ?_
  obtain ⟨rfl, hd⟩ := hd
  split
  · exact (fails_fail _).inStep
  · exact (fails_fail _).inStep
  · refine (inStep_identifier _ hd.loose).bind fun name e name' e' he => ?_
    obtain ⟨rfl, he⟩ := he
    exact inStep_pure ⟨rfl, he⟩

theorem inStep_typedefDecl (h : Loose 0 c c') :
    InStep (typedefDecl start "") (typedefDecl start' "") c c' fun decl d decl' d' =>
      decl'.relocate anywhere = decl.relocate anywhere ∧ Abreast 0 d d' := by
  refine (inStep_typeExpr h).bind fun target d target' d' hd => ?_
  obtain ⟨rfl, hd⟩ := hd
  refine (inStep_identifier false hd.loose).bind fun name e name' e' he => ?_
  obtain ⟨rfl, he⟩ := he
  exact inStep_pure ⟨rfl, he⟩

theorem inStep_wrapped {β : Type} {r r' : Reader β} {erase : β → β} (wrap : β → Declaration)
    (hwrap : ∀ b, (wrap b).relocate anywhere = wrap (erase b))
    (h : InStep r r' c c' fun b d b' d' => erase b' = erase b ∧ Abreast 0 d d') :
    InStep (do return wrap (← r)) (do return wrap (← r')) c c' fun decl d decl' d' =>
      decl'.relocate anywhere = decl.relocate anywhere ∧ Abreast 0 d d' :=
  h.bind fun b d b' d' hd => inStep_pure ⟨by rw [hwrap, hwrap, hd.1], hd.2⟩

theorem inStep_declaration (h : Loose 0 c c') : InStep (declaration "") (declaration "") c c'
    fun decl d decl' d' => decl'.relocate anywhere = decl.relocate anywhere ∧ Abreast 0 d d' := by
  refine inStep_position.bind ?_
  rintro start _ start' _ ⟨rfl, rfl⟩
  refine (inStep_word h).bind fun keyword d keyword' d' hd => ?_
  obtain ⟨rfl, hd⟩ := hd
  have hliteral (wrap : String → Declaration) (wrap' : String → Declaration)
      (hwrap : ∀ text, (wrap' text).relocate anywhere = (wrap text).relocate anywhere) :
      InStep (do return wrap (← literal)) (do return wrap' (← literal)) d d'
        fun decl e decl' e' => decl'.relocate anywhere = decl.relocate anywhere ∧
          Abreast 0 e e' := by
    refine (inStep_literal hd.loose).bind fun text e text' e' he => ?_
    obtain ⟨rfl, he⟩ := he
    exact inStep_pure ⟨hwrap text', he⟩
  split
  · exact inStep_wrapped .scoping (fun _ => rfl) (inStep_namespaceDecl hd.loose)
  · exact hliteral (fun name => .scoping ⟨start, .php, name⟩)
      (fun name => .scoping ⟨start', .php, name⟩) fun _ => rfl
  · exact (fails_fail _).inStep
  · exact hliteral (fun path => .inclusion ⟨start, path, false⟩)
      (fun path => .inclusion ⟨start', path, false⟩) fun _ => rfl
  · exact hliteral (fun path => .inclusion ⟨start, path, true⟩)
      (fun path => .inclusion ⟨start', path, true⟩) fun _ => rfl
  · exact (fails_fail _).inStep
  · exact inStep_wrapped .typedef (fun _ => rfl) (inStep_typedefDecl hd.loose)
  · exact inStep_wrapped .enum (fun _ => rfl) (inStep_enumDecl hd.loose)
  · exact (fails_fail _).inStep
  · exact inStep_wrapped .record (fun _ => rfl) (inStep_recordDecl .struct hd.loose)
  · exact inStep_wrapped .record (fun _ => rfl) (inStep_recordDecl .union hd.loose)
  · exact inStep_wrapped .record (fun _ => rfl) (inStep_recordDecl .exception hd.loose)
  · exact inStep_wrapped .service (fun _ => rfl) (inStep_serviceDecl hd.loose)
  · exact (fails_failAt _ _).inStep

theorem map_isHeader_relocate {found found' : List Declaration}
    (h : found'.map (·.relocate anywhere) = found.map (·.relocate anywhere)) :
    found'.map (·.isHeader) = found.map (·.isHeader) := by
  have hmap := congrArg (List.map Declaration.isHeader) h
  simpa [List.map_map, Function.comp_def] using hmap

theorem inStep_declarations (h : Loose 0 c c') : InStep declarations declarations c c'
    fun found _ found' _ => found'.map (·.relocate anywhere) = found.map (·.relocate anywhere) := by
  unfold declarations
  refine inStep_fix (γ := Unit) (g := ()) (D := fun _ => False) (fun _ _ _ h => h.elim)
    (T := fun _ (found found' : List Declaration) c c' =>
      found'.map (·.relocate anywhere) = found.map (·.relocate anywhere) ∧ Loose 0 c c')
    (Q := fun _ _ _ (found : List Declaration) _ found' _ =>
      found'.map (·.relocate anywhere) = found.map (·.relocate anywhere)) ?_ ⟨rfl, h⟩
  rintro again again' - found found' c c' - hagain ⟨hfound, h⟩
  refine ((inStep_documentation h).walks (walks_documentation (.refl _))).bind
    fun doc d doc' d' hd => ?_
  obtain ⟨⟨⟨rfl, rfl⟩, hd, hstops⟩, hcd', -, hstops'⟩ := hd
  refine inStep_rest.bind ?_
  rintro _ d _ d' ⟨⟨rfl, rfl⟩, rfl, rfl⟩
  have hend : d'.rest = [] ↔ d.rest = [] := by
    rw [← List.head?_eq_none_iff, ← List.head?_eq_none_iff, hd.head?_eq hstops]
  by_cases hdone : d.rest = []
  · rw [if_pos hdone, if_pos (hend.2 hdone)]
    exact inStep_pure hfound
  · rw [if_neg hdone, if_neg fun h => hdone (hend.1 h)]
    refine ((inStep_declaration hd.loose).walks
      (walks_declaration "" (.refl _) hstops')).bind fun decl e decl' e' he => ?_
    obtain ⟨⟨hdecl, he⟩, -, hpast, -⟩ := he
    have hheader : decl'.isHeader = decl.isHeader := by
      rw [← Declaration.isHeader_relocate anywhere, hdecl, Declaration.isHeader_relocate]
    have hany : found'.any (!·.isHeader) = found.any (!·.isHeader) := by
      have hflags := congrArg (List.any · (!·)) (map_isHeader_relocate hfound)
      simpa [List.any_map, Function.comp_def] using hflags
    rw [hheader, hany]
    split
    · exact (fails_failAt _ _).inStep
    · refine hagain () _ _ e e' (.of_onward hcd' hpast) ⟨?_, he.loose⟩
      simp [hfound, hdecl]

end Declarations

end Reader

theorem Document.parse_eq_ok_iff {file text : String} {d : Document} :
    parse file text = .ok d ↔ d.file = file ∧
      ∃ c, Reader.declarations.run (Cursor.ofText text) = .ok (d.declarations, c) := by
  unfold parse
  rw [StateT.run'_eq]
  cases Reader.declarations.run (Cursor.ofText text) with
  | error e =>
    constructor
    · intro h
      cases h
    · rintro ⟨-, c, h⟩
      cases h
  | ok out =>
    constructor
    · rintro ⟨⟩
      exact ⟨rfl, out.2, rfl⟩
    · rintro ⟨rfl, c, h⟩
      obtain rfl := Except.ok.inj h
      rfl

/-- Layout does not matter where separators stay on the lines of their items. -/
theorem Document.parse_relaid (file text text' : String) (d : Document)
    (h : parse file text = .ok d) (hlayout : Relaid true 0 text.toList text'.toList) :
    ∃ d', parse file text' = .ok d' ∧ d'.relocate anywhere = d.relocate anywhere := by
  obtain ⟨hfile, c, hrun⟩ := parse_eq_ok_iff.1 h
  have habreast : Cursor.Abreast 0 (Cursor.ofText text) (Cursor.ofText text') := hlayout
  obtain ⟨found, c', hrun', hfound⟩ := Reader.inStep_declarations habreast.loose _ _ hrun
  exact ⟨⟨file, found⟩, parse_eq_ok_iff.2 ⟨rfl, c', hrun'⟩, by simp [relocate, hfile, hfound]⟩

theorem foldedEnum_relaid : ∃ d d',
    Document.parse "t.thrift" "enum E \x7bA , B C\x7d" = .ok d ∧
    Relaid true 0 "enum E \x7bA , B C\x7d".toList "enum\tE\r\n\x7bA\t,\nB\n\nC\x7d".toList ∧
    Document.parse "t.thrift" "enum\tE\r\n\x7bA\t,\nB\n\nC\x7d" = .ok d' ∧
    d'.relocate anywhere = d.relocate anywhere := by
  have hlayout : Relaid true 0 "enum E \x7bA , B C\x7d".toList
      "enum\tE\r\n\x7bA\t,\nB\n\nC\x7d".toList := by
    have hplain : Relaid true 0 ['C', '\x7d'] ['C', '\x7d'] :=
      .unspaced ['C', '\x7d'] rfl .nil
    have hb := Relaid.spaced ['B'] [' '] ['\n', '\n'] rfl
      ⟨nofun, rfl⟩ ⟨nofun, rfl⟩ rfl (.inr (.inl rfl)) hplain
    have hcomma := Relaid.spaced [','] [' '] ['\n'] rfl
      ⟨nofun, rfl⟩ ⟨nofun, rfl⟩ rfl (.inr (.inl rfl)) hb
    have ha := Relaid.spaced ['\x7b', 'A'] [' '] ['\t'] rfl
      ⟨nofun, rfl⟩ ⟨nofun, rfl⟩ rfl (.inr (.inr rfl)) hcomma
    have hname := Relaid.spaced ['E'] [' '] ['\r', '\n'] rfl
      ⟨nofun, rfl⟩ ⟨nofun, rfl⟩ rfl (.inr (.inl rfl)) ha
    exact Relaid.spaced "enum".toList [' '] ['\t'] rfl
      ⟨nofun, rfl⟩ ⟨nofun, rfl⟩ rfl (.inr (.inl rfl)) hname
  have hparse : Document.parse "t.thrift" "enum E \x7bA , B C\x7d" = .ok ⟨"t.thrift",
      [.enum ⟨⟨1, 1⟩, "", "E", [⟨⟨1, 9⟩, "", "A", none, 0⟩, ⟨⟨1, 13⟩, "", "B", none, 1⟩,
        ⟨⟨1, 15⟩, "", "C", none, 2⟩]⟩]⟩ := by cbv
  obtain ⟨d', hparse', hsame⟩ := Document.parse_relaid _ _ _ _ hparse hlayout
  exact ⟨_, d', hparse, hlayout, hparse', hsame⟩

/-- A separator on a line of its own belongs to no item. -/
theorem brokenSeparator_refused :
    Document.parse "t.thrift" "enum E \x7bA , B\x7d" = .ok ⟨"t.thrift",
      [.enum ⟨⟨1, 1⟩, "", "E", [⟨⟨1, 9⟩, "", "A", none, 0⟩, ⟨⟨1, 13⟩, "", "B", none, 1⟩]⟩]⟩ ∧
    Relaid false 0 "enum E \x7bA , B\x7d".toList "enum E \x7bA\n, B\x7d".toList ∧
    Document.parse "t.thrift" "enum E \x7bA\n, B\x7d" =
      .error ⟨⟨2, 1⟩, .expectedIdentifier⟩ := by
  have hplain : Relaid false 0 ", B\x7d".toList ", B\x7d".toList :=
    .spaced [','] [' '] [' '] rfl ⟨nofun, rfl⟩ ⟨nofun, rfl⟩ rfl
      (.inl rfl) (.unspaced ['B', '\x7d'] rfl .nil)
  have ha := Relaid.spaced ['\x7b', 'A'] [' '] ['\n'] rfl
    ⟨nofun, rfl⟩ ⟨nofun, rfl⟩ rfl (.inl rfl) hplain
  have hname := Relaid.spaced ['E'] [' '] [' '] rfl
    ⟨nofun, rfl⟩ ⟨nofun, rfl⟩ rfl (.inl rfl) ha
  have hlayout := Relaid.spaced "enum".toList [' '] [' '] rfl
    ⟨nofun, rfl⟩ ⟨nofun, rfl⟩ rfl (.inl rfl) hname
  exact ⟨by cbv, hlayout, by cbv⟩

end ThriftIdl
