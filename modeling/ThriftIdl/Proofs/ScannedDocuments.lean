import ThriftIdl.Proofs.CheckedParsing
import ThriftIdl.Proofs.ScannedLexemes
import ThriftIdl.Proofs.SourcePositions

namespace ThriftIdl.Scan

open Reader (Stops beginsGap)

variable {α β σ : Type} {text : List Char} {p : Place}

section Rules

variable {m : Scan α} {r : Reader α} {f : α → Scan β} {g : α → Reader β}

/-- What is known of a reading is known of the scan that tracks it. -/
theorem Tracks.bind_walks {Q : α → Cursor → Prop} (h : Tracks text m r p)
    (hr : Reader.Walks (p.cursor text) r (p.cursor text) Q)
    (hf : ∀ a q, q.InOrder → (p.cursor text).Onward (q.cursor text) → Q a (q.cursor text) →
      Tracks text (f a) (g a) q) : Tracks text (m >>= f) (r >>= g) p :=
  h.bind fun a q hq hrun => hf a q hq (hr.of_ok hrun).1 (hr.of_ok hrun).2

theorem Tracks.map (h : Tracks text m r p) (wrap : α → β) :
    Tracks text (do return wrap (← m)) (do return wrap (← r)) p :=
  h.bind fun a _ hq _ => tracks_pure hq (wrap a)

end Rules

section Types

theorem tracks_parameter {inner : Scan TypeExpr} {inner' : Reader TypeExpr}
    {missing unclosed : SyntaxFault} (hmissing : missing.inPlace = true) (wrap : TypeExpr → TypeExpr)
    (hp : p.InOrder) (hinner : ∀ q, q.InOrder → (p.cursor text).Past (q.cursor text) →
      Tracks text inner inner' q) :
    Tracks text (do
      expect '<' missing
      let element ← inner
      expect '>' unclosed
      return wrap element) (do
      Reader.expect '<' missing
      let element ← inner'
      Reader.expect '>' unclosed
      return wrap element) p := by
  refine (tracks_expect '<' missing hp).bind_walks (Reader.walks_expect '<' hmissing (.refl _))
    fun _ q hq _ hpast => ?_
  exact (hinner q hq hpast).bind fun element _ hq _ => (tracks_expect '>' unclosed hq).bind
    fun _ _ hq _ => tracks_pure hq (wrap element)

theorem tracks_typeExpr (hp : p.InOrder) : Tracks text typeExpr Reader.typeExpr p := by
  refine tracks_loop_again (fun again again' _ p hp hagain => ?_) hp
  refine (tracks_word hp).bind_walks (Reader.walks_word (.refl _)) fun name q hq _ hname => ?_
  have hinner (s : Place) (hs : s.InOrder) (hpast : (q.cursor text).Past (s.cursor text)) :=
    hagain () s hs (hname.1.trans hpast.onward).shorter
  by_cases hknown : name ∈ ["list", "set", "map"]
  · simp only [List.mem_cons, List.not_mem_nil, or_false] at hknown
    rcases hknown with rfl | rfl | rfl
    · exact tracks_parameter rfl .list hq fun s hs hpast => (hinner s hs hpast).1
    · exact tracks_parameter rfl .set hq fun s hs hpast => (hinner s hs hpast).1
    · refine (tracks_expect '<' _ hq).bind_walks (Reader.walks_expect '<' rfl (.refl _))
        fun _ s₁ hs₁ _ h₁ => ?_
      -- The key is read as a type is read, so that the value begins further on.
      have hkey : Reader.Walks (s₁.cursor text) (again' ()) (s₁.cursor text) fun _ _ => True := by
        unfold Reader.Walks Reader.Ends
        rw [(hinner s₁ hs₁ h₁).2]
        exact (Reader.walks_typeExpr (.refl _)).imp fun _ _ _ _ => trivial
      refine (hinner s₁ hs₁ h₁).1.bind_walks hkey fun key s₂ hs₂ h₂ _ => ?_
      refine (tracks_expect ',' _ hs₂).bind_walks (Reader.walks_expect ',' rfl (.refl _))
        fun _ s₃ hs₃ _ h₃ => ?_
      have hpast := (h₁.trans h₂).trans h₃.onward
      exact (hinner s₃ hs₃ hpast).1.bind fun value _ hs _ => (tracks_expect '>' _ hs).bind
        fun _ _ hs _ => tracks_pure hs (TypeExpr.map key value)
  · simp only [List.mem_cons, List.not_mem_nil, or_false, not_or] at hknown
    obtain ⟨hlist, hset, hmap⟩ := hknown
    simp only
    exact tracks_pure hq (TypeExpr.named name)

end Types

section Blocks

theorem tracks_itemsUntil {close : Char} {item : String → σ → Scan (α × σ)}
    {item' : String → σ → Reader (α × σ)}
    (hitem : ∀ doc s p, p.InOrder → Tracks text (item doc s) (item' doc s) p)
    (hwalks : ∀ doc s c, Stops beginsGap c.rest →
      Reader.Walks c (item' doc s) c fun _ d => c.Past d) (s : σ) (hp : p.InOrder) :
    Tracks text (itemsUntil close item s) (Reader.itemsUntil close item' s) p := by
  refine tracks_loop (fun again again' state p hp hagain => ?_) hp
  obtain ⟨items, s⟩ := state
  refine (tracks_documentation hp).bind_walks (Reader.walks_documentation (.refl _))
    fun doc q₁ hq₁ h₁ _ => ?_
  refine (tracks_peek true hq₁).bind_walks (Reader.walks_peek_true (.refl _))
    fun next q₂ hq₂ h₂ hnext => ?_
  split
  · exact tracks_move (tracks_pure (hq₂.move 1) items)
  · refine (hitem doc s q₂ hq₂).bind_walks (hwalks doc s _ hnext.2) fun out q₃ hq₃ _ h₃ => ?_
    exact hagain _ q₃ hq₃ (Cursor.Past.of_onward (h₁.trans h₂) h₃).shorter

end Blocks

section Enums

theorem tracks_writtenValue (hp : p.InOrder) :
    Tracks text writtenValue Reader.writtenValue p := by
  refine tracks_get ((tracks_peek false hp).bind fun next q hq _ => ?_)
  split
  · exact tracks_move ((tracks_integer (hq.move 1)).map some)
  · exact tracks_set (tracks_pure hp none)

theorem tracks_enumMember (doc : String) (numbering : Numbering) (hp : p.InOrder) :
    Tracks text (enumMember doc numbering) (Reader.enumMember doc numbering) p := by
  refine tracks_position hp ((tracks_identifier false hp).bind fun name _ hq _ => ?_)
  refine (tracks_writtenValue hq).bind fun written _ hq _ => ?_
  refine (tracks_trailing true hq).bind fun following _ hq _ => ?_
  rcases numbering.assign written with (value | _) | ⟨value, numbering⟩
  · exact tracks_refuseAt hq _ _
  · exact tracks_refuseAt hq _ _
  · exact tracks_pure hq _

theorem tracks_enumDecl (start : Position) (doc : String) (hp : p.InOrder) :
    Tracks text (enumDecl start doc) (Reader.enumDecl start doc) p := by
  refine (tracks_identifier false hp).bind fun name _ hq _ => ?_
  refine (tracks_expect '{' _ hq).bind fun _ _ hq _ => ?_
  refine Tracks.map (tracks_itemsUntil (fun doc n p => tracks_enumMember doc n) ?_ _ hq) _
  intro doc n c hc
  exact (Reader.walks_enumMember doc n (.refl c) hc).imp fun _ _ _ h => h.1

end Enums

section Fields

theorem tracks_fieldId (start : Position) (hp : p.InOrder) :
    Tracks text (fieldId start) (Reader.fieldId start) p := by
  refine (tracks_integer hp).bind fun id _ hq _ => ?_
  split
  · exact tracks_refuseAt hq _ _
  · exact (tracks_expect ':' _ hq).bind fun _ _ hq _ => tracks_pure hq id

theorem tracks_writtenId (start : Position) (hp : p.InOrder) :
    Tracks text (writtenId start) (Reader.writtenId start) p := by
  refine (tracks_peek true hp).bind fun next _ hq _ => ?_
  split
  · exact (tracks_fieldId start hq).map some
  · exact tracks_pure hq none

theorem tracks_noDefault (hp : p.InOrder) : Tracks text noDefault Reader.noDefault p := by
  refine tracks_get ((tracks_peek false hp).bind fun next q hq _ => ?_)
  split
  · exact tracks_refuse hq _
  · exact .found () hp

/-- A type behind a word that is read as a type as well. -/
theorem tracks_fieldType (hp : p.InOrder) : Tracks text fieldType Reader.fieldType p := by
  refine (tracks_typeExpr hp).bind fun type _ hq _ => ?_
  by_cases hrequired : type = .named "required"
  · subst hrequired
    exact (tracks_typeExpr hq).map _
  by_cases hoptional : type = .named "optional"
  · subst hoptional
    exact (tracks_typeExpr hq).map _
  simp only
  exact tracks_pure hq _

theorem tracks_field (doc : String) (numbering : Numbering) (hp : p.InOrder) :
    Tracks text (field doc numbering) (Reader.field doc numbering) p := by
  refine tracks_position hp ((tracks_writtenId _ hp).bind fun written _ hq _ => ?_)
  refine (tracks_fieldType hq).bind fun out _ hq _ => ?_
  refine (tracks_identifier false hq).bind fun name _ hq _ => ?_
  refine (tracks_noDefault hq).bind fun _ _ hq _ => ?_
  refine (tracks_trailing true hq).bind fun following _ hq _ => ?_
  rcases numbering.assign written with (id | _) | ⟨id, numbering⟩
  · exact tracks_refuseAt hq _ _
  · exact tracks_refuseAt hq _ _
  · exact tracks_pure hq _

theorem tracks_fields (close : Char) (hp : p.InOrder) :
    Tracks text (fields close) (Reader.fields close) p := by
  refine tracks_itemsUntil (fun doc n p => tracks_field doc n) ?_ _ hp
  intro doc n c hc
  exact (Reader.walks_field doc n (.refl c) hc).imp fun _ _ _ h => h.1

theorem tracks_recordDecl (kind : RecordKind) (start : Position) (doc : String) (hp : p.InOrder) :
    Tracks text (recordDecl kind start doc) (Reader.recordDecl kind start doc) p := by
  refine (tracks_identifier false hp).bind fun name _ hq _ => ?_
  exact (tracks_expect '{' _ hq).bind fun _ _ hq _ => (tracks_fields '}' hq).map _

end Fields

section Services

theorem tracks_returnType (hp : p.InOrder) : Tracks text returnType Reader.returnType p := by
  refine (tracks_typeExpr hp).bind fun type _ hq _ => ?_
  by_cases honeway : type = .named "oneway"
  · subst honeway
    exact (tracks_typeExpr hq).map _
  simp only
  exact tracks_pure hq _

theorem tracks_wordAfter (first : Char) (acrossComments : Bool) (hp : p.InOrder) :
    Tracks text (wordAfter first acrossComments) (Reader.wordAfter first acrossComments) p := by
  refine (tracks_peek acrossComments hp).bind fun next _ hq _ => ?_
  split
  · exact (tracks_word hq).map some
  · exact tracks_pure hq none

theorem tracks_throwsClause (hp : p.InOrder) :
    Tracks text throwsClause Reader.throwsClause p := by
  refine tracks_get ((tracks_wordAfter 't' false hp).bind fun keyword _ hq _ => ?_)
  split
  · exact (tracks_expect '(' _ hq).bind fun _ _ hq _ => tracks_fields ')' hq
  · exact tracks_set (tracks_pure hp [])

theorem tracks_function (doc : String) (state : Unit) (hp : p.InOrder) :
    Tracks text (function doc state) (Reader.function doc state) p := by
  refine tracks_position hp ((tracks_returnType hp).bind fun out _ hq _ => ?_)
  refine (tracks_identifier false hq).bind fun name _ hq _ => ?_
  refine (tracks_expect '(' _ hq).bind fun _ _ hq _ => ?_
  refine (tracks_fields ')' hq).bind fun params _ hq _ => ?_
  refine (tracks_throwsClause hq).bind fun exceptions _ hq _ => ?_
  exact (tracks_trailing true hq).bind fun following _ hq _ => tracks_pure hq _

theorem tracks_baseService (hp : p.InOrder) :
    Tracks text baseService Reader.baseService p := by
  refine (tracks_wordAfter 'e' true hp).bind fun keyword _ hq _ => ?_
  cases keyword with
  | none => exact tracks_pure hq none
  | some keyword =>
    by_cases hextends : keyword = "extends"
    · subst hextends
      exact (tracks_identifier false hq).map some
    simp only
    exact tracks_refuse hq _

theorem tracks_serviceDecl (start : Position) (doc : String) (hp : p.InOrder) :
    Tracks text (serviceDecl start doc) (Reader.serviceDecl start doc) p := by
  refine (tracks_identifier false hp).bind fun name _ hq _ => ?_
  refine (tracks_baseService hq).bind fun base _ hq _ => ?_
  refine (tracks_expect '{' _ hq).bind fun _ _ hq _ => ?_
  refine Tracks.map (tracks_itemsUntil (fun doc s p => tracks_function doc s) ?_ _ hq) _
  intro doc s c hc
  exact (Reader.walks_function doc s (.refl c) hc).imp fun _ _ _ h => h.1

end Services

section Declarations

theorem tracks_namespaceDecl (start : Position) (hp : p.InOrder) :
    Tracks text (namespaceDecl start) (Reader.namespaceDecl start) p := by
  refine (tracks_scopeName hp).bind fun name _ hq _ => ?_
  cases NamespaceScope.ofSpelling? name with
  | none => exact tracks_refuse hq _
  | some scope =>
    by_cases hphp : scope = .php
    · subst hphp
      exact tracks_refuse hq _
    simp only
    exact (tracks_identifier _ hq).map _

theorem tracks_typedefDecl (start : Position) (doc : String) (hp : p.InOrder) :
    Tracks text (typedefDecl start doc) (Reader.typedefDecl start doc) p :=
  (tracks_typeExpr hp).bind fun _ _ hq _ => (tracks_identifier false hq).map _

theorem tracks_declaration (doc : String) (hp : p.InOrder) :
    Tracks text (declaration doc) (Reader.declaration doc) p := by
  refine tracks_position hp ((tracks_word hp).bind fun keyword q hq _ => ?_)
  by_cases hknown : keyword ∈ ["namespace", "php_namespace", "xsd_namespace", "include",
    "cpp_include", "const", "typedef", "enum", "senum", "struct", "union", "exception", "service"]
  · simp only [List.mem_cons, List.not_mem_nil, or_false] at hknown
    rcases hknown with rfl | rfl | rfl | rfl | rfl | rfl | rfl | rfl | rfl | rfl | rfl | rfl | rfl
    · exact (tracks_namespaceDecl _ hq).map Declaration.scoping
    · exact (tracks_literal hq).map _
    · exact tracks_refuse hq _
    · exact (tracks_literal hq).map _
    · exact (tracks_literal hq).map _
    · exact tracks_refuse hq _
    · exact (tracks_typedefDecl _ doc hq).map Declaration.typedef
    · exact (tracks_enumDecl _ doc hq).map Declaration.enum
    · exact tracks_refuse hq _
    · exact (tracks_recordDecl .struct _ doc hq).map Declaration.record
    · exact (tracks_recordDecl .union _ doc hq).map Declaration.record
    · exact (tracks_recordDecl .exception _ doc hq).map Declaration.record
    · exact (tracks_serviceDecl _ doc hq).map Declaration.service
  · simp only [List.mem_cons, List.not_mem_nil, or_false, not_or] at hknown
    casesm* _ ∧ _
    simp only
    exact tracks_refuseAt hq _ _

theorem tracks_declarations (hp : p.InOrder) :
    Tracks text declarations Reader.declarations p := by
  refine tracks_loop (fun again again' found p hp hagain => ?_) hp
  refine (tracks_documentation hp).bind_walks (Reader.walks_documentation (.refl _))
    fun doc q₁ hq₁ h₁ hstops => ?_
  refine .step (outcome_peek? text q₁) (tracks_rest ?_)
  cases hrest : (q₁.cursor text).rest with
  | nil => exact tracks_pure hq₁ found
  | cons ch x =>
    rw [if_neg (List.cons_ne_nil _ _)]
    refine (tracks_declaration doc hq₁).bind_walks
      (Reader.walks_declaration doc (.refl _) hstops.2) fun decl q₂ hq₂ _ hdecl => ?_
    split
    · exact tracks_refuseAt hq₂ _ _
    · exact hagain _ q₂ hq₂ (Cursor.Past.of_onward h₁ hdecl.1).shorter

end Declarations

/-- A file is read by offsets as it is read by what is left of it: nothing is taken that the text
does not have, and no line begins behind a place that is on it. -/
theorem parse_eq (file text : String) :
    parse file text = (Document.parse file text).mapError .refused := by
  have htracks : Tracks text.toList declarations Reader.declarations .start :=
    tracks_declarations (Nat.le_refl 0)
  have hstart : Place.start.cursor text.toList = Cursor.ofText text := rfl
  unfold Tracks at htracks
  rw [hstart] at htracks
  unfold parse Document.parse
  change _ = Except.mapError _ (do
    let declarations ← Prod.fst <$> Reader.declarations.run (Cursor.ofText text)
    return (⟨file, declarations⟩ : Document))
  generalize declarations.outcome text.toList .start = out at htracks ⊢
  generalize Reader.declarations.run (Cursor.ofText text) = read at htracks ⊢
  cases htracks with
  | found value h => rfl
  | refused e h => rfl

end ThriftIdl.Scan
