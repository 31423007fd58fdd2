import ThriftIdl.Proofs.LexemeMovement
import ThriftIdl.Proofs.RoundTrip

namespace ThriftIdl

/-- The parts of a document that have a place of their own. -/
inductive Construct
  | declaration (d : Declaration)
  | member (d : EnumMemberDecl)
  | field (d : FieldDecl)
  | function (d : FunctionDecl)

def Declaration.keyword : Declaration → String
  | scoping d => if d.scope = .php then "php_namespace" else "namespace"
  | inclusion d => if d.native then "cpp_include" else "include"
  | typedef _ => "typedef"
  | enum _ => "enum"
  | record d => d.kind.keyword
  | service _ => "service"

/-- A type behind the word that may qualify it. -/
def FieldDecl.firstWord (d : FieldDecl) : String :=
  match d.requiredness with
  | .required => "required"
  | .optional => "optional"
  | .unstated => d.type.firstWord

def FunctionDecl.firstWord (d : FunctionDecl) : String :=
  if d.oneway then "oneway" else d.returns.firstWord

namespace Construct

def position : Construct → Position
  | declaration d => d.position
  | member d => d.position
  | field d => d.position
  | function d => d.position

/-- The text from the first character of a construct on. -/
def Opens : Construct → List Char → Prop
  | declaration d, text => OpensWith d.keyword text
  | member d, text => OpensWith d.name text
  | field d, text =>
    match d.written with
    | some id => Reader.OpensWithNumber id text
    | none => OpensWith d.firstWord text
  | function d, text => OpensWith d.firstWord text

end Construct

def FunctionDecl.constructs (d : FunctionDecl) : List Construct :=
  .function d :: (d.params.map .field ++ d.throws.map .field)

/-- The constructs in a declaration behind its beginning. -/
def Declaration.parts : Declaration → List Construct
  | scoping _ | inclusion _ | typedef _ => []
  | enum d => d.members.map .member
  | record d => d.fields.map .field
  | service d => d.functions.flatMap FunctionDecl.constructs

def Declaration.constructs (d : Declaration) : List Construct := .declaration d :: d.parts

def Document.constructs (d : Document) : List Construct :=
  d.declarations.flatMap Declaration.constructs

/-- On the way from one point to another, constructs are met one after another. -/
inductive Cursor.Meets : Cursor → List Construct → Cursor → Prop
  | nil {c d : Cursor} (h : c.Onward d) : Meets c [] d
  | cons {c d e f : Cursor} {x : Construct} {xs : List Construct} (onward : c.Onward d)
      (place : x.position = d.position) (opens : x.Opens d.rest) (past : d.Past e)
      (rest : Meets e xs f) : Meets c (x :: xs) f

namespace Cursor.Meets

variable {c d e : Cursor} {x : Construct} {xs ys : List Construct} {text before : List Char}

theorem of_onward (h : Meets d xs e) (hcd : c.Onward d) : Meets c xs e := by
  cases h with
  | nil h => exact .nil (hcd.trans h)
  | cons onward place opens past rest => exact .cons (hcd.trans onward) place opens past rest

theorem append (h : Meets c xs d) (h' : Meets d ys e) : Meets c (xs ++ ys) e := by
  induction h with
  | nil h => exact h'.of_onward h
  | cons onward place opens past _ ih => exact .cons onward place opens past (ih h')

theorem then_onward (h : Meets c xs d) (hde : d.Onward e) : Meets c xs e := by
  simpa using h.append (.nil hde)

theorem one (place : x.position = c.position) (opens : x.Opens c.rest) (past : c.Past d) :
    Meets c [x] d :=
  .cons (.refl c) place opens past (.nil (.refl d))

theorem first_position (h : Meets c (x :: xs) d) : ∃ e, c.Onward e ∧ e.position = x.position := by
  cases h with
  | cons onward place opens past rest => exact ⟨_, onward, place.symm⟩

/-- Every construct stands where it says, and further on than the one before it. -/
theorem placed (h : Meets c xs d) (hc : At text before c) :
    (∀ x ∈ xs, ∃ run rest, text = before ++ run ++ rest ∧
      x.position = .behind (before ++ run) ∧ x.Opens rest) ∧
    xs.Pairwise fun x y => x.position.Before y.position := by
  induction h generalizing before with
  | nil h => simp
  | @cons c d e f x xs onward place opens past _ ih =>
    obtain ⟨run, hd, -⟩ := hc.onward onward
    obtain ⟨run', he, hne⟩ := hd.onward past.onward
    obtain ⟨hplaced, hordered⟩ := ih he
    have hplace : x.position = .behind (before ++ run) := by rw [place, hd.position_eq]
    refine ⟨?_, List.pairwise_cons.2 ⟨?_, hordered⟩⟩
    · rintro y hy
      rcases List.mem_cons.1 hy with rfl | hy
      · exact ⟨run, d.rest, hd.text_eq, hplace, opens⟩
      · obtain ⟨between, rest, htext, hy, hopens⟩ := hplaced y hy
        refine ⟨run ++ run' ++ between, rest, ?_, ?_, hopens⟩
        · simpa using htext
        · simpa using hy
    · intro y hy
      obtain ⟨between, rest, -, hy, -⟩ := hplaced y hy
      have hsome : run' ++ between ≠ [] := by simp [hne past.shorter]
      rw [hplace, hy, List.append_assoc _ run']
      exact Position.behind_before hsome

end Cursor.Meets

namespace Reader

variable {α σ : Type} {b c d : Cursor} {ch : Char}

section Blocks

theorem walks_itemsUntil {close : Char} {item : String → σ → Reader (α × σ)}
    (constructs : α → List Construct)
    (h : ∀ b c doc s, b.Onward c → Stops beginsGap c.rest → Walks b (item doc s) c fun out d =>
      c.Past d ∧ c.Meets (constructs out.1) d) (s : σ) (hb : b.Onward c) :
    Walks b (itemsUntil close item s) c fun items d => c.Meets (items.flatMap constructs) d := by
  unfold itemsUntil
  refine (walks_fix (T := fun _ c => b.Onward c)
    (Q := fun (state : List α × σ) c items d => ∃ more, items = state.1 ++ more ∧
      c.Meets (more.flatMap constructs) d) ?_ hb).imp ?_
  · rintro again ⟨found, s⟩ c hb hagain
    refine (walks_documentation hb).bind fun doc d₁ h₁ _ => ?_
    refine (walks_peek_true (hb.trans h₁)).bind fun next d₂ h₂ hnext => ?_
    obtain ⟨⟨⟨x, hx⟩, hne⟩, hstops⟩ := hnext
    have h₂ := h₁.trans h₂
    split
    · exact (walks_advance hx hne).bind fun _ d h _ =>
        walks_pure ⟨[], by simp, .nil (h₂.trans h)⟩
    · refine (h b d₂ doc s (hb.trans h₂) hstops).bind fun out d₃ h₃ hout => ?_
      have hpast : c.Past d₃ := .of_onward h₂ hout.1
      refine (hagain _ d₃ hpast (hb.trans hpast.onward)).imp fun items d _ hitems => ?_
      obtain ⟨more, rfl, hmore⟩ := hitems
      refine ⟨out.1 :: more, by simp, ?_⟩
      rw [List.flatMap_cons]
      exact (hout.2.of_onward h₂).append hmore
  · rintro items d _ ⟨more, rfl, hmore⟩
    exact hmore

end Blocks

section Enums

theorem walks_writtenValue (hb : b.Onward c) : Walks b writtenValue c fun _ _ => True := by
  refine Ends.bind (Q := fun mark d => mark = c ∧ d = c) ⟨rfl, rfl⟩ ?_
  rintro mark c' ⟨rfl, rfl⟩
  refine Ends.bind (walks_peek false hb) ?_
  rintro next d ⟨hcd, ⟨x, hx⟩, hne⟩
  split
  · refine Walks.further ?_ hcd
    refine (walks_advance hx hne).bind fun _ e hde _ => ?_
    exact (walks_integer (hb.trans (hcd.trans hde))).bind fun _ _ _ _ => walks_pure trivial
  · exact ⟨.refl _, trivial⟩

theorem walks_enumMember (doc : String) (n : Numbering) (hb : b.Onward c)
    (hc : Stops beginsGap c.rest) : Walks b (enumMember doc n) c fun out d =>
      c.Past d ∧ c.Meets [.member out.1] d := by
  refine walks_position.bind fun start c' _ hstart => ?_
  obtain ⟨rfl, rfl⟩ := hstart
  refine (walks_identifier false hb).bind fun name d₁ _ hname => ?_
  obtain ⟨h₁, hopens⟩ := hname
  refine (walks_writtenValue (hb.trans h₁.onward)).bind fun written d₂ h₂ _ => ?_
  have h₂ := h₁.trans h₂
  refine (walks_trailing true (hb.trans h₂.onward)).bind fun following d₃ h₃ _ => ?_
  have h₃ := h₂.trans h₃
  split
  · exact walks_pure ⟨h₃, .one rfl (hopens hc) h₃⟩
  · exact walks_failAt hb rfl
  · exact walks_failAt hb rfl

theorem walks_enumDecl {s : Cursor} (doc : String) (hb : b.Onward c) :
    Walks b (enumDecl s.position doc) c fun decl d =>
      decl.position = s.position ∧ c.Meets (decl.members.map .member) d := by
  refine (walks_identifier false hb).bind fun name d₁ _ hname => ?_
  refine (walks_expect '{' rfl (hb.trans hname.1.onward)).bind fun _ d₂ _ h₂ => ?_
  have h₂ := hname.1.trans h₂.onward
  refine (walks_itemsUntil (fun m => [.member m])
    (fun b c doc n hb hc => walks_enumMember doc n hb hc) _ (hb.trans h₂.onward)).bind
      fun members d₃ _ hmembers => ?_
  refine walks_pure ⟨rfl, ?_⟩
  rw [List.map_eq_flatMap]
  exact hmembers.of_onward h₂.onward

end Enums

section Fields

theorem walks_fieldId {s : Cursor} (hs : b.Onward s) (hb : b.Onward c) :
    Walks b (fieldId s.position) c fun id d =>
      c.Past d ∧ (Stops isBlank c.rest → OpensWithNumber id c.rest) := by
  refine (walks_integer hb).bind fun id d _ hid => ?_
  split
  · exact walks_failAt hs rfl
  · exact (walks_expect ':' rfl (hb.trans hid.1.onward)).bind fun _ e hde _ =>
      walks_pure ⟨hid.1.trans hde, hid.2⟩

theorem walks_writtenId {s : Cursor} (hs : b.Onward s) (hb : b.Onward c)
    (hc : Stops beginsGap c.rest) : Walks b (writtenId s.position) c fun written d =>
      (∀ id ∈ written, c.Past d ∧ OpensWithNumber id c.rest) ∧ (written = none → d = c) := by
  have hpeek : Walks b (peek true) c fun _ d => d = c := by
    refine (walks_skipGap hb).bind fun _ d _ hd => walks_next?.bind fun next d' _ hnext => ?_
    obtain ⟨-, rfl⟩ := hnext
    split
    · exact walks_pure (hd.1 hc)
    · exact walks_fail (hd.1 hc ▸ hb) rfl
  refine hpeek.bind fun next d _ hd => ?_
  subst hd
  split
  · refine (walks_fieldId hs hb).bind fun id e _ hid => walks_pure ⟨?_, by simp⟩
    intro id' h
    obtain rfl := Option.some.inj h
    exact ⟨hid.1, hid.2 hc.blank⟩
  · exact walks_pure ⟨by simp, fun _ => rfl⟩

theorem walks_fieldType (hb : b.Onward c) : Walks b fieldType c fun out d =>
    c.Past d ∧ (Stops beginsGap c.rest → ∀ f : FieldDecl, f.requiredness = out.1 →
      f.type = out.2 → OpensWith f.firstWord c.rest) := by
  refine (walks_typeExpr hb).bind fun type d _ htype => ?_
  obtain ⟨hd, hopens⟩ := htype
  have hbd := hb.trans hd.onward
  split
  · refine (walks_typeExpr hbd).bind fun type e hde _ => walks_pure ⟨hd.trans hde, fun hc f hf _ => ?_⟩
    simpa [FieldDecl.firstWord, TypeExpr.firstWord, hf] using hopens hc
  · refine (walks_typeExpr hbd).bind fun type e hde _ => walks_pure ⟨hd.trans hde, fun hc f hf _ => ?_⟩
    simpa [FieldDecl.firstWord, TypeExpr.firstWord, hf] using hopens hc
  · refine walks_pure ⟨hd, fun hc f hf ht => ?_⟩
    simpa [FieldDecl.firstWord, hf, ht] using hopens hc

theorem walks_noDefault (hb : b.Onward c) : Walks b noDefault c fun _ _ => True := by
  refine Ends.bind (Q := fun mark d => mark = c ∧ d = c) ⟨rfl, rfl⟩ ?_
  rintro mark c' ⟨rfl, rfl⟩
  refine Ends.bind (walks_peek false hb) ?_
  rintro next d ⟨hcd, -, -⟩
  split
  · exact (walks_fail (hb.trans hcd) rfl).further hcd
  · exact ⟨.refl _, trivial⟩

theorem walks_field (doc : String) (n : Numbering) (hb : b.Onward c)
    (hc : Stops beginsGap c.rest) : Walks b (field doc n) c fun out d =>
      c.Past d ∧ c.Meets [.field out.1] d := by
  refine walks_position.bind fun start c' _ hstart => ?_
  obtain ⟨rfl, rfl⟩ := hstart
  refine (walks_writtenId hb hb hc).bind fun written d₁ h₁ hwritten => ?_
  have hb₁ := hb.trans h₁
  refine (walks_fieldType hb₁).bind fun typing d₂ _ htyping => ?_
  obtain ⟨h₂, htype⟩ := htyping
  have h₂ : c'.Past d₂ := .of_onward h₁ h₂
  refine (walks_identifier false (hb.trans h₂.onward)).bind fun name d₃ h₃ _ => ?_
  have h₃ := h₂.trans h₃
  refine (walks_noDefault (hb.trans h₃.onward)).bind fun _ d₄ h₄ _ => ?_
  have h₄ := h₃.trans h₄
  refine (walks_trailing true (hb.trans h₄.onward)).bind fun following d₅ h₅ _ => ?_
  have h₅ := h₄.trans h₅
  split
  · refine walks_pure ⟨h₅, .one rfl ?_ h₅⟩
    cases written with
    | some id => exact (hwritten.1 id rfl).2
    | none =>
      obtain rfl := hwritten.2 rfl
      exact htype hc _ rfl rfl
  · exact walks_failAt hb rfl
  · exact walks_failAt hb rfl

theorem walks_fields (close : Char) (hb : b.Onward c) :
    Walks b (fields close) c fun fields d => c.Meets (fields.map .field) d := by
  refine (walks_itemsUntil (fun f => [.field f])
    (fun b c doc n hb hc => walks_field doc n hb hc) _ hb).imp fun fields d _ hfields => ?_
  rwa [List.map_eq_flatMap]

theorem walks_recordDecl {s : Cursor} (kind : RecordKind) (doc : String) (hb : b.Onward c) :
    Walks b (recordDecl kind s.position doc) c fun decl d => decl.position = s.position ∧
      decl.kind = kind ∧ c.Meets (decl.fields.map .field) d := by
  refine (walks_identifier false hb).bind fun name d₁ _ hname => ?_
  refine (walks_expect '{' rfl (hb.trans hname.1.onward)).bind fun _ d₂ _ h₂ => ?_
  have h₂ := hname.1.trans h₂.onward
  refine (walks_fields '}' (hb.trans h₂.onward)).bind fun fields d₃ _ hfields => ?_
  exact walks_pure ⟨rfl, rfl, hfields.of_onward h₂.onward⟩

end Fields

section Services

theorem walks_returnType (hb : b.Onward c) : Walks b returnType c fun out d =>
    c.Past d ∧ (Stops beginsGap c.rest → ∀ f : FunctionDecl, f.oneway = out.1 →
      f.returns = out.2 → OpensWith f.firstWord c.rest) := by
  refine (walks_typeExpr hb).bind fun type d _ htype => ?_
  obtain ⟨hd, hopens⟩ := htype
  split
  · refine (walks_typeExpr (hb.trans hd.onward)).bind fun type e hde _ =>
      walks_pure ⟨hd.trans hde, fun hc f hf _ => ?_⟩
    simpa [FunctionDecl.firstWord, TypeExpr.firstWord, hf] using hopens hc
  · refine walks_pure ⟨hd, fun hc f hf ht => ?_⟩
    simpa [FunctionDecl.firstWord, hf, ht] using hopens hc

theorem walks_wordAfter (first : Char) (acrossComments : Bool) (hb : b.Onward c) :
    Walks b (wordAfter first acrossComments) c fun _ _ => True := by
  refine (walks_peek acrossComments hb).bind fun next d hcd _ => ?_
  split
  · exact (walks_word (hb.trans hcd)).bind fun _ _ _ _ => walks_pure trivial
  · exact walks_pure trivial

theorem walks_throwsClause (hb : b.Onward c) :
    Walks b throwsClause c fun throws d => c.Meets (throws.map .field) d := by
  refine Ends.bind (Q := fun mark d => mark = c ∧ d = c) ⟨rfl, rfl⟩ ?_
  rintro mark c' ⟨rfl, rfl⟩
  refine Ends.bind (walks_wordAfter 't' false hb) ?_
  rintro next d ⟨hcd, -⟩
  split
  · refine Walks.further ?_ hcd
    refine (walks_expect '(' rfl (hb.trans hcd)).bind fun _ e hde _ => ?_
    refine (walks_fields ')' (hb.trans (hcd.trans hde))).imp fun throws f _ hthrows => ?_
    exact hthrows.of_onward (hcd.trans hde)
  · exact ⟨.refl _, .nil (.refl _)⟩

theorem walks_function (doc : String) (state : Unit) (hb : b.Onward c)
    (hc : Stops beginsGap c.rest) : Walks b (function doc state) c fun out d =>
      c.Past d ∧ c.Meets out.1.constructs d := by
  refine walks_position.bind fun start c' _ hstart => ?_
  obtain ⟨rfl, rfl⟩ := hstart
  refine (walks_returnType hb).bind fun returns d₁ _ hreturns => ?_
  obtain ⟨h₁, hopens⟩ := hreturns
  refine (walks_identifier false (hb.trans h₁.onward)).bind fun name d₂ h₂ _ => ?_
  have h₂ := h₁.trans h₂
  refine (walks_expect '(' rfl (hb.trans h₂.onward)).bind fun _ d₃ h₃ _ => ?_
  have h₃ := h₂.trans h₃
  refine (walks_fields ')' (hb.trans h₃.onward)).bind fun params d₄ h₄ hparams => ?_
  have h₄ := h₃.trans h₄
  refine (walks_throwsClause (hb.trans h₄.onward)).bind fun throws d₅ h₅ hthrows => ?_
  have h₅ := h₄.trans h₅
  refine (walks_trailing true (hb.trans h₅.onward)).bind fun following d₆ h₆ _ => ?_
  have hmeets := (hparams.append hthrows).then_onward h₆
  exact walks_pure ⟨h₅.trans h₆, .cons (.refl _) rfl (hopens hc _ rfl rfl) h₃ hmeets⟩

theorem walks_baseService (hb : b.Onward c) : Walks b baseService c fun _ _ => True := by
  refine (walks_wordAfter 'e' true hb).bind fun keyword d hcd _ => ?_
  split
  · exact (walks_identifier false (hb.trans hcd)).bind fun _ _ _ _ => walks_pure trivial
  · exact walks_fail (hb.trans hcd) rfl
  · exact walks_pure trivial

theorem walks_serviceDecl {s : Cursor} (doc : String) (hb : b.Onward c) :
    Walks b (serviceDecl s.position doc) c fun decl d => decl.position = s.position ∧
      c.Meets (decl.functions.flatMap FunctionDecl.constructs) d := by
  refine (walks_identifier false hb).bind fun name d₁ h₁ _ => ?_
  refine (walks_baseService (hb.trans h₁)).bind fun base d₂ h₂ _ => ?_
  have h₂ := h₁.trans h₂
  refine (walks_expect '{' rfl (hb.trans h₂)).bind fun _ d₃ h₃ _ => ?_
  have h₃ := h₂.trans h₃
  refine (walks_itemsUntil FunctionDecl.constructs
    (fun b c doc s hb hc => walks_function doc s hb hc) () (hb.trans h₃)).bind fun functions d₄ _ hfunctions => ?_
  exact walks_pure ⟨rfl, hfunctions.of_onward h₃⟩

end Services

section Declarations

theorem walks_namespaceDecl {s : Cursor} (hb : b.Onward c) :
    Walks b (namespaceDecl s.position) c fun decl _ =>
      decl.position = s.position ∧ decl.scope ≠ .php := by
  refine (walks_scopeName hb).bind fun name d hcd _ => ?_
  split
  · exact walks_fail (hb.trans hcd) rfl
  · exact walks_fail (hb.trans hcd) rfl
  · next scope hphp _ =>
    exact (walks_identifier _ (hb.trans hcd)).bind fun _ _ _ _ => walks_pure ⟨rfl, by simpa using hphp⟩

theorem walks_typedefDecl {s : Cursor} (doc : String) (hb : b.Onward c) :
    Walks b (typedefDecl s.position doc) c fun decl _ => decl.position = s.position :=
  (walks_typeExpr hb).bind fun _ _ hcd _ => (walks_identifier false (hb.trans hcd)).bind
    fun _ _ _ _ => walks_pure rfl

theorem walks_declaration (doc : String) (hb : b.Onward c) (hc : Stops beginsGap c.rest) :
    Walks b (declaration doc) c fun decl d => c.Past d ∧ c.Meets decl.constructs d := by
  refine walks_position.bind fun start c' _ hstart => ?_
  obtain ⟨rfl, rfl⟩ := hstart
  refine (walks_word hb).bind fun keyword d _ hkeyword => ?_
  obtain ⟨hd, hopens⟩ := hkeyword
  have hbd := hb.trans hd.onward
  have hopens := hopens hc
  split
  · refine (walks_namespaceDecl hbd).bind fun decl e hde hdecl => walks_pure ⟨hd.trans hde, ?_⟩
    refine .cons (.refl _) hdecl.1 ?_ hd (.nil hde)
    simpa [Construct.Opens, Declaration.keyword, hdecl.2] using hopens
  · refine (walks_literal hbd).bind fun name e hde _ => walks_pure ⟨hd.trans hde, ?_⟩
    exact .cons (.refl _) rfl hopens hd (.nil hde)
  · exact walks_fail hbd rfl
  · refine (walks_literal hbd).bind fun path e hde _ => walks_pure ⟨hd.trans hde, ?_⟩
    exact .cons (.refl _) rfl hopens hd (.nil hde)
  · refine (walks_literal hbd).bind fun path e hde _ => walks_pure ⟨hd.trans hde, ?_⟩
    exact .cons (.refl _) rfl hopens hd (.nil hde)
  · exact walks_fail hbd rfl
  · refine (walks_typedefDecl doc hbd).bind fun decl e hde hdecl => walks_pure ⟨hd.trans hde, ?_⟩
    exact .cons (.refl _) hdecl hopens hd (.nil hde)
  · refine (walks_enumDecl doc hbd).bind fun decl e hde hdecl => walks_pure ⟨hd.trans hde, ?_⟩
    exact .cons (.refl _) hdecl.1 hopens hd hdecl.2
  · exact walks_fail hbd rfl
  · refine (walks_recordDecl .struct doc hbd).bind fun decl e hde hdecl => walks_pure ⟨hd.trans hde, ?_⟩
    refine .cons (.refl _) hdecl.1 ?_ hd hdecl.2.2
    simpa [Construct.Opens, Declaration.keyword, RecordKind.keyword, hdecl.2.1] using hopens
  · refine (walks_recordDecl .union doc hbd).bind fun decl e hde hdecl => walks_pure ⟨hd.trans hde, ?_⟩
    refine .cons (.refl _) hdecl.1 ?_ hd hdecl.2.2
    simpa [Construct.Opens, Declaration.keyword, RecordKind.keyword, hdecl.2.1] using hopens
  · refine (walks_recordDecl .exception doc hbd).bind fun decl e hde hdecl =>
      walks_pure ⟨hd.trans hde, ?_⟩
    refine .cons (.refl _) hdecl.1 ?_ hd hdecl.2.2
    simpa [Construct.Opens, Declaration.keyword, RecordKind.keyword, hdecl.2.1] using hopens
  · refine (walks_serviceDecl doc hbd).bind fun decl e hde hdecl => walks_pure ⟨hd.trans hde, ?_⟩
    exact .cons (.refl _) hdecl.1 hopens hd hdecl.2
  · exact walks_failAt hb rfl

theorem walks_declarations : Walks c declarations c fun found d =>
    c.Meets (found.flatMap Declaration.constructs) d ∧ Falling (found.map (·.isHeader)) := by
  unfold declarations
  refine (walks_fix (s := ([] : List Declaration))
    (T := fun (found : List Declaration) d =>
      c.Onward d ∧ Falling (found.map Declaration.isHeader))
    (Q := fun (found : List Declaration) d all e => ∃ more, all = found ++ more ∧
      d.Meets (more.flatMap Declaration.constructs) e ∧ Falling (all.map (·.isHeader)))
    ?_ ⟨.refl c, List.Pairwise.nil⟩).imp ?_
  · rintro again found d ⟨hcd, hfalling⟩ hagain
    refine (walks_documentation hcd).bind fun doc e hde he => ?_
    refine walks_rest.bind fun text e' _ htext => ?_
    obtain ⟨-, rfl⟩ := htext
    have hce := hcd.trans hde
    split
    · exact walks_pure ⟨[], by simp, .nil hde, hfalling⟩
    · refine (walks_declaration doc hce he.2).bind fun decl f _ hdecl => ?_
      obtain ⟨hpast, hmeets⟩ := hdecl
      split
      · obtain ⟨start, hstart, hplace⟩ := hmeets.first_position
        have hplace : start.position = decl.position := hplace
        exact hplace ▸ walks_failAt (hce.trans hstart) rfl
      · next hheader =>
        have hlate : Falling ((found ++ [decl]).map (·.isHeader)) := by
          rw [List.map_append]
          refine List.pairwise_append.2 ⟨hfalling, List.pairwise_singleton _ _, ?_⟩
          simp only [List.mem_map, List.mem_singleton, List.map_singleton]
          rintro _ ⟨e, he, rfl⟩ _ rfl hdecl
          have hall : ∀ x ∈ found, x.isHeader = true := by simpa [hdecl] using hheader
          exact hall e he
        refine (hagain _ f (.of_onward hde hpast) ⟨hce.trans hpast.onward, hlate⟩).imp ?_
        rintro all g _ ⟨more, rfl, hmore, hall⟩
        refine ⟨decl :: more, by simp, ?_, hall⟩
        rw [List.flatMap_cons]
        exact (hmeets.of_onward hde).append hmore
  · rintro found d _ ⟨more, rfl, hmore, hall⟩
    exact ⟨hmore, hall⟩

end Declarations

end Reader

end ThriftIdl
