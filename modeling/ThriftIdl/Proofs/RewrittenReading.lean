import ThriftIdl.Proofs.LayoutReading
import ThriftIdl.Proofs.RewrittenLexemes

namespace ThriftIdl

open Text (widen)

namespace Declaration

/-- What stands in quotes in an include and in a namespace for PHP. -/
def literal? : Declaration → Option String
  | inclusion d => some d.path
  | scoping d => if d.scope = .php then some d.name else none
  | _ => none

def withLiteral (text : String) : Declaration → Declaration
  | inclusion d => inclusion { d with path := text }
  | scoping d => scoping { d with name := text }
  | d => d

end Declaration

namespace Reader

variable {α σ : Type} {w : Rewriting} {c c' : Cursor} {start : Position}

/-- A literal comes behind the next word. -/
def QuotesBehindWord (c : Cursor) (quote : Char) (body : List Char) : Prop :=
  ∃ keyword d, word.run c = .ok (keyword, d) ∧ Quotes d quote body

section Blocks

theorem fails_peek_atEnd {d : Cursor} (hd : AtEnd d) : Fails (peek true) d := by
  refine (ends_skipGap_atEnd hd).bind fun _ e he => (ends_next?_atEnd he).bind fun next f hf => ?_
  obtain ⟨rfl, -⟩ := hf
  trivial

theorem alike_peek_gap (h : w.Carries c c') :
    Alike w.Closed Nowhere (peek true) (peek true) c c' fun ch d ch' d' =>
      ((ch' = ch ∧ (∃ x, d.rest = ch :: x) ∧ ch ≠ '\n') ∧ w.Carries d d') ∧
        c.Onward d ∧ Stops beginsGap d.rest :=
  ((alike_peek true h).walks (walks_peek_true (.refl c))).imp
    fun _ _ _ _ hd => ⟨hd.1, hd.2.1, hd.2.2.2⟩

/-- Items read alike give blocks read alike. Where an item reaches the end of the text, the block
is not closed. -/
theorem alike_itemsUntil {close : Char} {item : String → σ → Reader (α × σ)} (move : α → α)
    (hitem : ∀ doc s c c', w.Carries c c' → Stops beginsGap c.rest →
      Alike w.Closed AtEnd (item doc s) (item doc s) c c' fun out d out' d' =>
        ((out'.1 = move out.1 ∧ out'.2 = out.2) ∧ w.Carries d d') ∧ c.Past d)
    (s : σ) (h : w.Carries c c') :
    Alike w.Closed Nowhere (itemsUntil close item s) (itemsUntil close item s) c c'
      fun items d items' d' => items' = items.map move ∧ w.Carries d d' := by
  unfold itemsUntil
  refine alike_fix (D := AtEnd)
    (T := fun (state state' : List α × σ) c c' =>
      (state'.1 = state.1.map move ∧ state'.2 = state.2) ∧ w.Carries c c')
    (Q := fun _ _ _ (items : List α) d items' d' => items' = items.map move ∧ w.Carries d d')
    ?_ ?_ ⟨⟨rfl, rfl⟩, h⟩
  · intro again state d hd
    exact (ends_documentation_atEnd hd).bind fun doc e he => (fails_peek_atEnd he).bind
  · rintro again again' ⟨items, s⟩ ⟨items', _⟩ c c' hcut hagain ⟨⟨hitems, rfl⟩, h⟩
    refine ((alike_documentation h).walks (walks_documentation (.refl c))).bind_cut
      (fun doc d hd => (fails_peek_atEnd hd).bind) fun doc d doc' d' hd => ?_
    obtain ⟨⟨rfl, hd⟩, hcd, -⟩ := hd
    have hitems : items' = items.map move := hitems
    refine (alike_peek_gap hd.toCarries).bind fun next e next' e' he => ?_
    obtain ⟨⟨⟨rfl, ⟨x, hx⟩, hbreak⟩, he⟩, hde, hstops⟩ := he
    split
    · refine alike_advance.bind fun _ f _ f' hf => ?_
      obtain ⟨rfl, rfl⟩ := hf
      exact alike_pure ⟨hitems, he.advance hx hbreak⟩
    · refine (hitem _ _ e e' he hstops).bind_cut (fun out f hf => hcut _ f hf)
        fun out f out' f' hf => ?_
      obtain ⟨⟨⟨hvalue, hstate⟩, hf⟩, hpast⟩ := hf
      have hcf := Cursor.Past.of_onward (hcd.trans hde) hpast
      exact hagain _ _ f f' hcf.shorter (h.shorter hf hcf) ⟨⟨by simp [hitems, hvalue], hstate⟩, hf⟩

end Blocks

section Enums

theorem alike_writtenValue (h : w.Carries c c') :
    Alike w.Closed Nowhere writtenValue writtenValue c c' fun written d written' d' =>
      written' = written ∧ w.Carries d d' := by
  refine alike_get.bind fun mark d mark' d' hd => ?_
  obtain ⟨⟨rfl, rfl⟩, rfl, rfl⟩ := hd
  refine (alike_peek false h).bind fun next e next' e' he => ?_
  obtain ⟨⟨rfl, ⟨x, hx⟩, hbreak⟩, he⟩ := he
  split
  · refine alike_advance.bind fun _ f _ f' hf => ?_
    obtain ⟨rfl, rfl⟩ := hf
    refine (alike_integer (he.advance hx hbreak)).bind fun n f n' f' hf => ?_
    obtain ⟨rfl, hf⟩ := hf
    exact alike_pure ⟨rfl, hf⟩
  · refine alike_set.bind fun _ f _ f' hf => ?_
    obtain ⟨rfl, rfl⟩ := hf
    exact alike_pure ⟨rfl, h⟩

theorem alike_enumMember (doc : String) (n : Numbering) (h : w.Carries c c')
    (hc : Stops beginsGap c.rest) :
    Alike w.Closed AtEnd (enumMember doc n) (enumMember doc n) c c' fun out d out' d' =>
      ((out'.1 = out.1.relocate w.move ∧ out'.2 = out.2) ∧ w.Carries d d') ∧ c.Past d := by
  refine (Alike.walks (Q := fun out d out' d' =>
    (out'.1 = out.1.relocate w.move ∧ out'.2 = out.2) ∧ w.Carries d d') ?_
    (walks_enumMember doc n (.refl c) hc)).imp fun _ _ _ _ hd => ⟨hd.1, hd.2.2.1⟩
  refine (alike_position_moved h).bind fun start d start' d' hd => ?_
  obtain ⟨⟨-, rfl⟩, rfl, rfl⟩ := hd
  refine (alike_identifier false h).bind fun name d name' d' hd => ?_
  obtain ⟨rfl, hd⟩ := hd
  refine (alike_writtenValue hd).bind fun written e written' e' he => ?_
  obtain ⟨rfl, he⟩ := he
  refine (alike_trailing true he).bind_cut (fun following f hf => ?_)
    fun following f following' f' hf => ?_
  · split
    · exact hf
    · trivial
    · trivial
  · obtain ⟨rfl, hf⟩ := hf
    split
    · exact alike_pure ⟨⟨rfl, rfl⟩, hf⟩
    · exact alike_failAt _ _ _ _
    · exact alike_failAt _ _ _ _

theorem alike_enumDecl (start : Position) (doc : String) (h : w.Carries c c') :
    Alike w.Closed Nowhere (enumDecl start doc) (enumDecl (w.move start) doc) c c'
      fun decl d decl' d' => decl' = decl.relocate w.move ∧ w.Carries d d' := by
  refine (alike_identifier false h).bind fun name d name' d' hd => ?_
  obtain ⟨rfl, hd⟩ := hd
  refine (alike_expect _ _ hd).bind fun _ e _ e' he => ?_
  refine (alike_itemsUntil _ (fun doc n _ _ => alike_enumMember doc n) _ he).bind
    fun members f members' f' hf => ?_
  exact alike_pure ⟨by rw [hf.1]; rfl, hf.2⟩

end Enums

section Fields

theorem alike_fieldId (start start' : Position) (h : w.Carries c c') :
    Alike w.Closed Nowhere (fieldId start) (fieldId start') c c' fun id d id' d' =>
      id' = id ∧ w.Carries d d' := by
  refine (alike_integer h).bind fun id d id' d' hd => ?_
  obtain ⟨rfl, hd⟩ := hd
  split
  · exact alike_failAt _ _ _ _
  · exact (alike_expect _ _ hd).bind fun _ e _ e' he => alike_pure ⟨rfl, he⟩

theorem alike_writtenId (start start' : Position) (h : w.Carries c c') :
    Alike w.Closed Nowhere (writtenId start) (writtenId start') c c' fun written d written' d' =>
      written' = written ∧ w.Carries d d' := by
  refine (alike_peek true h).bind fun next d next' d' hd => ?_
  obtain ⟨⟨rfl, -⟩, hd⟩ := hd
  split
  · refine (alike_fieldId start start' hd).bind fun id e id' e' he => ?_
    obtain ⟨rfl, he⟩ := he
    exact alike_pure ⟨rfl, he⟩
  · exact alike_pure ⟨rfl, hd⟩

theorem alike_fieldType (h : w.Carries c c') :
    Alike w.Closed Nowhere fieldType fieldType c c' fun out d out' d' =>
      out' = out ∧ w.Carries d d' := by
  refine (alike_typeExpr h).bind fun type d type' d' hd => ?_
  obtain ⟨rfl, hd⟩ := hd
  split
  · refine (alike_typeExpr hd).bind fun type e type' e' he => ?_
    obtain ⟨rfl, he⟩ := he
    exact alike_pure ⟨rfl, he⟩
  · refine (alike_typeExpr hd).bind fun type e type' e' he => ?_
    obtain ⟨rfl, he⟩ := he
    exact alike_pure ⟨rfl, he⟩
  · exact alike_pure ⟨rfl, hd⟩

theorem alike_noDefault (h : w.Carries c c') :
    Alike w.Closed Nowhere noDefault noDefault c c' fun _ d _ d' => w.Carries d d' := by
  refine alike_get.bind fun mark d mark' d' hd => ?_
  obtain ⟨⟨rfl, rfl⟩, rfl, rfl⟩ := hd
  refine (alike_peek false h).bind fun next e next' e' he => ?_
  obtain ⟨⟨rfl, -⟩, he⟩ := he
  split
  · exact alike_fail _ _
  · refine alike_set.imp fun _ f _ f' hf => ?_
    obtain ⟨rfl, rfl⟩ := hf
    exact h

theorem alike_field (doc : String) (n : Numbering) (h : w.Carries c c')
    (hc : Stops beginsGap c.rest) :
    Alike w.Closed AtEnd (field doc n) (field doc n) c c' fun out d out' d' =>
      ((out'.1 = out.1.relocate w.move ∧ out'.2 = out.2) ∧ w.Carries d d') ∧ c.Past d := by
  refine (Alike.walks (Q := fun out d out' d' =>
    (out'.1 = out.1.relocate w.move ∧ out'.2 = out.2) ∧ w.Carries d d') ?_
    (walks_field doc n (.refl c) hc)).imp fun _ _ _ _ hd => ⟨hd.1, hd.2.2.1⟩
  refine (alike_position_moved h).bind fun start d start' d' hd => ?_
  obtain ⟨⟨-, rfl⟩, rfl, rfl⟩ := hd
  refine (alike_writtenId start _ h).bind fun written d written' d' hd => ?_
  obtain ⟨rfl, hd⟩ := hd
  refine (alike_fieldType hd).bind fun out e out' e' he => ?_
  obtain ⟨rfl, he⟩ := he
  refine (alike_identifier false he).bind fun name f name' f' hf => ?_
  obtain ⟨rfl, hf⟩ := hf
  refine (alike_noDefault hf).bind fun _ g _ g' hg => ?_
  refine (alike_trailing true hg).bind_cut (fun following k hk => ?_)
    fun following k following' k' hk => ?_
  · split
    · exact hk
    · trivial
    · trivial
  · obtain ⟨rfl, hk⟩ := hk
    split
    · exact alike_pure ⟨⟨rfl, rfl⟩, hk⟩
    · exact alike_failAt _ _ _ _
    · exact alike_failAt _ _ _ _

theorem alike_fields (close : Char) (h : w.Carries c c') :
    Alike w.Closed Nowhere (fields close) (fields close) c c' fun fields d fields' d' =>
      fields' = fields.map (·.relocate w.move) ∧ w.Carries d d' :=
  alike_itemsUntil (FieldDecl.relocate w.move) (fun doc n _ _ => alike_field doc n) _ h

theorem alike_recordDecl (kind : RecordKind) (start : Position) (doc : String)
    (h : w.Carries c c') :
    Alike w.Closed Nowhere (recordDecl kind start doc) (recordDecl kind (w.move start) doc) c c'
      fun decl d decl' d' => decl' = decl.relocate w.move ∧ w.Carries d d' := by
  refine (alike_identifier false h).bind fun name d name' d' hd => ?_
  obtain ⟨rfl, hd⟩ := hd
  refine (alike_expect _ _ hd).bind fun _ e _ e' he => ?_
  refine (alike_fields _ he).bind fun fields f fields' f' hf => ?_
  exact alike_pure ⟨by rw [hf.1]; rfl, hf.2⟩

end Fields

section Services

theorem alike_returnType (h : w.Carries c c') :
    Alike w.Closed Nowhere returnType returnType c c' fun out d out' d' =>
      out' = out ∧ w.Carries d d' := by
  refine (alike_typeExpr h).bind fun type d type' d' hd => ?_
  obtain ⟨rfl, hd⟩ := hd
  split
  · refine (alike_typeExpr hd).bind fun type e type' e' he => ?_
    obtain ⟨rfl, he⟩ := he
    exact alike_pure ⟨rfl, he⟩
  · exact alike_pure ⟨rfl, hd⟩

theorem alike_wordAfter (first : Char) (acrossComments : Bool) (h : w.Carries c c') :
    Alike w.Closed Nowhere (wordAfter first acrossComments) (wordAfter first acrossComments) c c'
      fun next d next' d' => next' = next ∧ w.Carries d d' := by
  refine (alike_peek acrossComments h).bind fun ch d ch' d' hd => ?_
  obtain ⟨⟨rfl, -⟩, hd⟩ := hd
  split
  · refine (alike_word hd).bind fun name e name' e' he => ?_
    obtain ⟨rfl, he⟩ := he
    exact alike_pure ⟨rfl, he⟩
  · exact alike_pure ⟨rfl, hd⟩

theorem alike_throwsClause (h : w.Carries c c') :
    Alike w.Closed Nowhere throwsClause throwsClause c c' fun throws d throws' d' =>
      throws' = throws.map (·.relocate w.move) ∧ w.Carries d d' := by
  refine alike_get.bind fun mark d mark' d' hd => ?_
  obtain ⟨⟨rfl, rfl⟩, rfl, rfl⟩ := hd
  refine (alike_wordAfter 't' false h).bind fun next d next' d' hd => ?_
  obtain ⟨rfl, hd⟩ := hd
  split
  · exact (alike_expect _ _ hd).bind fun _ e _ e' he => alike_fields _ he
  · refine alike_set.bind fun _ f _ f' hf => ?_
    obtain ⟨rfl, rfl⟩ := hf
    exact alike_pure ⟨rfl, h⟩

theorem alike_function (doc : String) (s : Unit) (h : w.Carries c c')
    (hc : Stops beginsGap c.rest) :
    Alike w.Closed AtEnd (function doc s) (function doc s) c c' fun out d out' d' =>
      ((out'.1 = out.1.relocate w.move ∧ out'.2 = out.2) ∧ w.Carries d d') ∧ c.Past d := by
  refine (Alike.walks (Q := fun out d out' d' =>
    (out'.1 = out.1.relocate w.move ∧ out'.2 = out.2) ∧ w.Carries d d') ?_
    (walks_function doc s (.refl c) hc)).imp fun _ _ _ _ hd => ⟨hd.1, hd.2.2.1⟩
  refine (alike_position_moved h).bind fun start d start' d' hd => ?_
  obtain ⟨⟨-, rfl⟩, rfl, rfl⟩ := hd
  refine (alike_returnType h).bind fun out d out' d' hd => ?_
  obtain ⟨rfl, hd⟩ := hd
  refine (alike_identifier false hd).bind fun name e name' e' he => ?_
  obtain ⟨rfl, he⟩ := he
  refine (alike_expect _ _ he).bind fun _ f _ f' hf => ?_
  refine (alike_fields _ hf).bind fun params g params' g' hg => ?_
  refine (alike_throwsClause hg.2).bind fun throws k throws' k' hk => ?_
  refine (alike_trailing true hk.2).bind_cut (fun following m hm => hm)
    fun following m following' m' hm => ?_
  obtain ⟨rfl, hm⟩ := hm
  exact alike_pure ⟨⟨by rw [hg.1, hk.1]; rfl, rfl⟩, hm⟩

theorem alike_baseService (h : w.Carries c c') :
    Alike w.Closed Nowhere baseService baseService c c' fun base d base' d' =>
      base' = base ∧ w.Carries d d' := by
  refine (alike_wordAfter 'e' true h).bind fun next d next' d' hd => ?_
  obtain ⟨rfl, hd⟩ := hd
  split
  · refine (alike_identifier false hd).bind fun name e name' e' he => ?_
    obtain ⟨rfl, he⟩ := he
    exact alike_pure ⟨rfl, he⟩
  · exact alike_fail _ _
  · exact alike_pure ⟨rfl, hd⟩

theorem alike_serviceDecl (start : Position) (doc : String) (h : w.Carries c c') :
    Alike w.Closed Nowhere (serviceDecl start doc) (serviceDecl (w.move start) doc) c c'
      fun decl d decl' d' => decl' = decl.relocate w.move ∧ w.Carries d d' := by
  refine (alike_identifier false h).bind fun name d name' d' hd => ?_
  obtain ⟨rfl, hd⟩ := hd
  refine (alike_baseService hd).bind fun base e base' e' he => ?_
  obtain ⟨rfl, he⟩ := he
  refine (alike_expect _ _ he).bind fun _ f _ f' hf => ?_
  refine (alike_itemsUntil _ (fun doc s _ _ => alike_function doc s) _ hf).bind
    fun functions g functions' g' hg => ?_
  exact alike_pure ⟨by rw [hg.1]; rfl, hg.2⟩

end Services

section Declarations

theorem alike_namespaceDecl (start : Position) (h : w.Carries c c') :
    Alike w.Closed Nowhere (namespaceDecl start) (namespaceDecl (w.move start)) c c'
      fun decl d decl' d' => (decl.scope ≠ .php ∧ decl' = decl.relocate w.move) ∧
        w.Carries d d' := by
  refine (alike_scopeName h).bind fun name d name' d' hd => ?_
  obtain ⟨rfl, hd⟩ := hd
  split
  · exact alike_fail _ _
  · exact alike_fail _ _
  · next hphp _ =>
    refine (alike_identifier _ hd).bind fun name e name' e' he => ?_
    obtain ⟨rfl, he⟩ := he
    exact alike_pure ⟨⟨by simpa using hphp, rfl⟩, he⟩

theorem alike_typedefDecl (start : Position) (doc : String) (h : w.Carries c c') :
    Alike w.Closed Nowhere (typedefDecl start doc) (typedefDecl (w.move start) doc) c c'
      fun decl d decl' d' => decl' = decl.relocate w.move ∧ w.Carries d d' := by
  refine (alike_typeExpr h).bind fun target d target' d' hd => ?_
  obtain ⟨rfl, hd⟩ := hd
  refine (alike_identifier false hd).bind fun name e name' e' he => ?_
  obtain ⟨rfl, he⟩ := he
  exact alike_pure ⟨rfl, he⟩

/-- A declaration that begins at a point, and the same one written anew. -/
def Rewords (w : Rewriting) (c : Cursor) (decl decl' : Declaration) : Prop :=
  match decl.literal? with
  | none => decl' = decl.relocate w.move
  | some text => ∃ quote body text',
      (decl.position = c.position ∧ QuotesBehindWord c quote body) ∧
        Spells quote body text.toList ∧ Spells quote (widen w.returns body) text'.toList ∧
          decl' = (decl.relocate w.move).withLiteral text'

theorem Rewords.isHeader {decl decl' : Declaration} (h : Rewords w c decl decl') :
    decl'.isHeader = decl.isHeader := by
  unfold Rewords at h
  split at h
  · rw [h, Declaration.isHeader_relocate]
  · obtain ⟨quote, body, text, -, -, -, rfl⟩ := h
    cases decl <;> rfl

theorem alike_wrapped {β : Type} {r r' : Reader β} {P : β → β → Prop} (wrap : β → Declaration)
    {d d' : Cursor} (h : Alike w.Closed Nowhere r r' d d' fun b e b' e' => P b b' ∧ w.Carries e e')
    (hwrap : ∀ b b', P b b' → Rewords w c (wrap b) (wrap b')) :
    Alike w.Closed Nowhere (do return wrap (← r)) (do return wrap (← r')) d d'
      fun decl e decl' e' => Rewords w c decl decl' ∧ w.Carries e e' :=
  h.bind fun b _ b' _ he => alike_pure ⟨hwrap b b' he.1, he.2⟩

theorem alike_declaration (doc : String) (h : w.Carries c c') :
    Alike w.Closed Nowhere (declaration doc) (declaration doc) c c' fun decl d decl' d' =>
      Rewords w c decl decl' ∧ w.Carries d d' := by
  refine (alike_position_moved h).bind fun start d start' d' hd => ?_
  obtain ⟨⟨hstart, rfl⟩, rfl, rfl⟩ := hd
  refine (alike_word h).ran.bind fun keyword e keyword' e' he => ?_
  obtain ⟨⟨rfl, he⟩, hword⟩ := he
  have hliteral (wrap wrap' : String → Declaration)
      (hplace : ∀ text, (wrap text).position = start)
      (hwrap : ∀ text, (wrap text).literal? = some text)
      (hwrap' : ∀ text text', wrap' text' = ((wrap text).relocate w.move).withLiteral text') :
      Alike w.Closed Nowhere (do return wrap (← literal)) (do return wrap' (← literal)) e e'
        fun decl f decl' f' => Rewords w d decl decl' ∧ w.Carries f f' := by
    refine (alike_literal he).bind fun text f text' f' hf => ?_
    obtain ⟨⟨quote, body, hquotes, hspells, hspells'⟩, hf⟩ := hf
    refine alike_pure ⟨?_, hf⟩
    unfold Rewords
    rw [hwrap]
    exact ⟨quote, body, text', ⟨(hplace text).trans hstart, _, e, hword, hquotes⟩, hspells,
      hspells', hwrap' text text'⟩
  split
  · refine alike_wrapped .scoping (alike_namespaceDecl start he) ?_
    rintro decl _ ⟨hphp, rfl⟩
    simp [Rewords, Declaration.literal?, hphp, Declaration.relocate]
  · exact hliteral (fun name => .scoping ⟨start, .php, name⟩)
      (fun name => .scoping ⟨w.move start, .php, name⟩) (fun _ => rfl) (fun _ => rfl)
      fun _ _ => rfl
  · exact alike_fail _ _
  · exact hliteral (fun path => .inclusion ⟨start, path, false⟩)
      (fun path => .inclusion ⟨w.move start, path, false⟩) (fun _ => rfl) (fun _ => rfl)
      fun _ _ => rfl
  · exact hliteral (fun path => .inclusion ⟨start, path, true⟩)
      (fun path => .inclusion ⟨w.move start, path, true⟩) (fun _ => rfl) (fun _ => rfl)
      fun _ _ => rfl
  · exact alike_fail _ _
  · exact alike_wrapped .typedef (alike_typedefDecl start doc he) fun _ _ hb => hb ▸ rfl
  · exact alike_wrapped .enum (alike_enumDecl start doc he) fun _ _ hb => hb ▸ rfl
  · exact alike_fail _ _
  · exact alike_wrapped .record (alike_recordDecl .struct start doc he) fun _ _ hb => hb ▸ rfl
  · exact alike_wrapped .record (alike_recordDecl .union start doc he) fun _ _ hb => hb ▸ rfl
  · exact alike_wrapped .record (alike_recordDecl .exception start doc he) fun _ _ hb => hb ▸ rfl
  · exact alike_wrapped .service (alike_serviceDecl start doc he) fun _ _ hb => hb ▸ rfl
  · exact alike_failAt _ _ _ _

theorem any_isHeader_rewords {found found' : List Declaration}
    (h : List.Forall₂ (fun decl decl' => ∃ d, c.Onward d ∧ Rewords w d decl decl') found found') :
    found'.any (!·.isHeader) = found.any (!·.isHeader) := by
  induction h with
  | nil => rfl
  | cons hdecl _ ih =>
    obtain ⟨d, -, hdecl⟩ := hdecl
    rw [List.any_cons, List.any_cons, hdecl.isHeader, ih]

/-- One declaration after another is read alike, each from where it begins. -/
theorem alike_declarations (h : w.Carries c c') :
    Alike w.Closed AtEnd declarations declarations c c' fun found _ found' _ =>
      List.Forall₂ (fun decl decl' => ∃ d, c.Onward d ∧ Rewords w d decl decl') found found' := by
  unfold declarations
  refine alike_fix (D := Nowhere)
    (T := fun (found found' : List Declaration) d d' => (c.Onward d ∧ w.Carries d d') ∧
      List.Forall₂ (fun decl decl' => ∃ d, c.Onward d ∧ Rewords w d decl decl') found found')
    (Q := fun _ _ _ (found : List Declaration) _ found' _ =>
      List.Forall₂ (fun decl decl' => ∃ d, c.Onward d ∧ Rewords w d decl decl') found found')
    (fun _ _ _ hcut => hcut.elim) ?_ ⟨⟨.refl c, h⟩, .nil⟩
  rintro again again' found found' d d' - hagain ⟨⟨hcd, hd⟩, hfound⟩
  refine ((alike_documentation hd).walks (walks_documentation (.refl d))).bind_cut
    (fun doc e he => ?_) fun doc e doc' e' he => ?_
  · refine Ends.bind (Q := fun text f => text = e.rest ∧ f = e) ⟨rfl, rfl⟩ ?_
    rintro _ f ⟨rfl, rfl⟩
    have hnil : f.rest = [] := he
    rw [if_pos hnil]
    exact he
  obtain ⟨⟨rfl, he⟩, hde, -, hstops⟩ := he
  refine alike_rest.bind fun text f text' f' hf => ?_
  obtain ⟨⟨rfl, rfl⟩, rfl, rfl⟩ := hf
  have hend : f'.rest = [] ↔ f.rest = [] := by
    rw [← List.head?_eq_none_iff, ← List.head?_eq_none_iff, he.head]
  by_cases hdone : f.rest = []
  · rw [if_pos hdone, if_pos (hend.2 hdone)]
    exact alike_pure hfound
  · rw [if_neg hdone, if_neg fun h => hdone (hend.1 h)]
    refine ((alike_declaration _ he.toCarries).walks
      (walks_declaration _ (.refl f) hstops)).bind fun decl g decl' g' hg => ?_
    obtain ⟨⟨hdecl, hg⟩, -, hpast, -⟩ := hg
    rw [hdecl.isHeader, any_isHeader_rewords hfound]
    split
    · exact alike_failAt _ _ _ _
    · have hdg := Cursor.Past.of_onward hde hpast
      have hlast : ∃ d, c.Onward d ∧ Rewords w d decl decl' := ⟨f, hcd.trans hde, hdecl⟩
      exact hagain _ _ g g' hdg.shorter (hd.shorter hg hdg)
        ⟨⟨hcd.trans hdg.onward, hg⟩, List.rel_append hfound (.cons hlast .nil)⟩

end Declarations

end Reader

theorem Cursor.At.unique {text before before' : List Char} {c c' : Cursor}
    (h : Cursor.At text before c) (h' : Cursor.At text before' c')
    (hplace : c.position = c'.position) : c = c' := by
  suffices hsame : before = before' by rw [h.passed, h'.passed, hsame]
  rw [h.position_eq, h'.position_eq] at hplace
  have hlater {x y : List Char} (hxy : x <+: y) (hplace : Position.behind x = .behind y) :
      x = y := by
    obtain ⟨z, rfl⟩ := hxy
    by_contra hne
    have hz : z ≠ [] := fun hz => hne (by rw [hz, List.append_nil])
    have hbefore : (Position.behind x).Before (.behind (x ++ z)) := Position.behind_before hz
    rw [← hplace] at hbefore
    simp [Position.Before] at hbefore
  have hprefix : before <+: text := ⟨c.rest, h.text_eq.symm⟩
  have hprefix' : before' <+: text := ⟨c'.rest, h'.text_eq.symm⟩
  rcases List.prefix_or_prefix_of_prefix hprefix hprefix' with hle | hle
  · exact hlater hle hplace
  · exact (hlater hle hplace.symm).symm

/-- The literal behind the word that begins at a place of a text: its quotes and what stands
between them. -/
def LiteralAt (text : List Char) (place : Position) (quote : Char) (body : List Char) : Prop :=
  ∃ before c, Cursor.At text before c ∧ c.position = place ∧ Reader.QuotesBehindWord c quote body

/-- There is one such literal at most. -/
theorem LiteralAt.unique {text : List Char} {place : Position} {quote quote' : Char}
    {body body' s s' : List Char} (h : LiteralAt text place quote body)
    (h' : LiteralAt text place quote' body') (hspells : Reader.Spells quote body s)
    (hspells' : Reader.Spells quote' body' s') : quote' = quote ∧ body' = body := by
  obtain ⟨before, c, hat, hplace, keyword, d, hword, e, x, hgap, hquote, hx⟩ := h
  obtain ⟨before', c', hat', hplace', keyword', d', hword', e', x', hgap', -, hx'⟩ := h'
  obtain rfl := hat.unique hat' (hplace.trans hplace'.symm)
  obtain ⟨-, rfl⟩ := Prod.mk.inj (Except.ok.inj (hword.symm.trans hword'))
  obtain ⟨-, rfl⟩ := Prod.mk.inj (Except.ok.inj (hgap.symm.trans hgap'))
  obtain ⟨rfl, hbody⟩ := List.cons.inj (hx.symm.trans hx')
  exact ⟨rfl, hspells.body_unique hquote hspells' hbody.symm⟩

/-- Equal declarations of a text, but for the line breaks within a literal. -/
def Declaration.SameButBreaks (text : List Char) (decl decl' : Declaration) : Prop :=
  match decl.literal? with
  | none => decl' = decl
  | some s => ∃ quote body s', LiteralAt text decl.position quote body ∧
      Reader.Spells quote body s.toList ∧ Reader.Spells quote (widen 1 body) s'.toList ∧
        decl' = decl.withLiteral s'

theorem Reader.Rewords.sameButBreaks {text : List Char} {c : Cursor} {decl decl' : Declaration}
    (hc : (Cursor.ofList text).Onward c) (h : Reader.Rewords ⟨1, 0, none⟩ c decl decl') :
    decl.SameButBreaks text decl' := by
  have hmove : Rewriting.move ⟨1, 0, none⟩ = id := rfl
  obtain ⟨before, hat, -⟩ := (Cursor.at_start text).onward hc
  unfold Declaration.SameButBreaks
  unfold Reader.Rewords at h
  rw [hmove, decl.relocate_id] at h
  split at h
  · exact h
  · obtain ⟨quote, body, s', ⟨hplace, hquotes⟩, hspells⟩ := h
    exact ⟨quote, body, s', ⟨_, c, hat, hplace.symm, hquotes⟩, hspells⟩

theorem Document.exists_parse_iff {file text : String} :
    (∃ d, parse file text = .ok d) ↔ ∃ out, Reader.declarations.run (.ofText text) = .ok out := by
  constructor
  · rintro ⟨d, h⟩
    obtain ⟨-, c, hrun⟩ := parse_eq_ok_iff.1 h
    exact ⟨_, hrun⟩
  · rintro ⟨out, hrun⟩
    exact ⟨⟨file, out.1⟩, parse_eq_ok_iff.2 ⟨rfl, out.2, hrun⟩⟩

/-- With the line endings of Windows, a text has the same declarations. -/
theorem Document.parse_crlf (file text : String) :
    ((∃ d, parse file text = .ok d) ↔ ∃ d, parse file (Text.crlf text) = .ok d) ∧
    ∀ d d', parse file text = .ok d → parse file (Text.crlf text) = .ok d' →
      d'.file = d.file ∧
        List.Forall₂ (Declaration.SameButBreaks text.toList) d.declarations d'.declarations := by
  have hcarries : Rewriting.Carries ⟨1, 0, none⟩ (.ofText text) (.ofText (Text.crlf text)) := by
    refine ⟨?_, rfl, rfl⟩
    simp [Cursor.ofText, Cursor.ofList, Text.crlf, Rewriting.tail]
  have halike := Reader.alike_declarations hcarries
  refine ⟨?_, fun d d' h h' => ?_⟩
  · rw [exists_parse_iff, exists_parse_iff]
    cases hrun : Reader.declarations.run (.ofText text) with
    | error e =>
      obtain ⟨e', hrun'⟩ := halike.of_error hrun rfl
      simp [hrun']
    | ok out =>
      obtain ⟨found', c', hrun', -⟩ := (halike.of_ok hrun).resolve_left fun hcut => hcut.1 rfl
      simp [hrun']
  · obtain ⟨hfile, c, hrun⟩ := parse_eq_ok_iff.1 h
    obtain ⟨hfile', c', hrun'⟩ := parse_eq_ok_iff.1 h'
    obtain ⟨found', e, hrun'', hfound⟩ := (halike.of_ok hrun).resolve_left fun hcut => hcut.1 rfl
    obtain ⟨rfl, rfl⟩ := Prod.mk.inj (Except.ok.inj (hrun''.symm.trans hrun'))
    refine ⟨hfile'.trans hfile.symm, hfound.imp fun decl decl' hdecl => ?_⟩
    obtain ⟨b, hb, hdecl⟩ := hdecl
    exact hdecl.sameButBreaks hb

theorem brokenInclude_crlf : ∃ d d',
    Document.parse "t.thrift" "// a\ninclude 'b\n'\nenum C \x7bD // e\n\x7d" = .ok d ∧
    Document.parse "t.thrift" (Text.crlf "// a\ninclude 'b\n'\nenum C \x7bD // e\n\x7d") = .ok d' ∧
    d'.includes.map (·.path) = ["b\r\n"] ∧ d'.declarations.tail = d.declarations.tail := by
  have hparse : Document.parse "t.thrift" "// a\ninclude 'b\n'\nenum C \x7bD // e\n\x7d" =
      .ok ⟨"t.thrift", [.inclusion ⟨⟨2, 1⟩, "b\n", false⟩,
        .enum ⟨⟨4, 1⟩, "", "C", [⟨⟨4, 9⟩, "e", "D", none, 0⟩]⟩]⟩ := by cbv
  have hpath : (Document.parse "t.thrift"
      (Text.crlf "// a\ninclude 'b\n'\nenum C \x7bD // e\n\x7d")).map
        (·.includes.map (·.path)) = .ok ["b\r\n"] := by cbv
  obtain ⟨hiff, hsame⟩ :=
    Document.parse_crlf "t.thrift" "// a\ninclude 'b\n'\nenum C \x7bD // e\n\x7d"
  obtain ⟨d', hparse'⟩ := hiff.1 ⟨_, hparse⟩
  obtain ⟨-, hdecls⟩ := hsame _ d' hparse hparse'
  rw [hparse'] at hpath
  refine ⟨_, d', hparse, hparse', Except.ok.inj hpath, ?_⟩
  generalize d'.declarations = found at hdecls
  cases hdecls with
  | cons _ hrest =>
    cases hrest with
    | cons henum hnil =>
      cases hnil
      exact congrArg (· :: []) henum

end ThriftIdl
