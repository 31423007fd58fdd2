import ThriftIdl.Proofs.ReadableDocuments

namespace ThriftIdl

/-- Lines and columns count from one. -/
structure Position.Counted (p : Position) : Prop where
  line : 1 ≤ p.line
  column : 1 ≤ p.column

def EnumDecl.MembersCounted (d : EnumDecl) : Prop := ∀ m ∈ d.members, m.position.Counted

def FieldsCounted (fields : List FieldDecl) : Prop := ∀ f ∈ fields, f.position.Counted

structure FunctionDecl.Counted (d : FunctionDecl) : Prop where
  own : d.position.Counted
  params : FieldsCounted d.params
  throws : FieldsCounted d.throws

/-- The positions in a declaration behind its beginning. -/
def Declaration.PartsCounted : Declaration → Prop
  | scoping _ | inclusion _ | typedef _ => True
  | enum d => d.MembersCounted
  | record d => FieldsCounted d.fields
  | service d => ∀ function ∈ d.functions, function.Counted

structure Declaration.Counted (d : Declaration) : Prop where
  own : d.position.Counted
  parts : d.PartsCounted

namespace Reader

variable {α σ : Type} {start : Position}

theorem yields_position : Yields position Position.Counted := by
  intro c
  constructor
  · exact Nat.succ_le_succ (Nat.zero_le _)
  · exact Nat.succ_le_succ (Nat.zero_le _)

theorem yields_items_counted {close : Char} {item : String → σ → Reader (α × σ)} {P : α → Prop}
    (h : ∀ doc s, Yields (item doc s) fun out => P out.1) (s : σ) :
    Yields (itemsUntil close item s) fun items => ∀ a ∈ items, P a := by
  refine (yields_itemsUntil (R := fun _ a _ => P a) h s).imp fun items hitems => ?_
  exact hitems.forall (I := fun _ => True) trivial fun _ _ _ _ ha => ⟨trivial, ha⟩

theorem yields_enumMember_counted (doc : String) (n : Numbering) :
    Yields (enumMember doc n) fun out => out.1.position.Counted := by
  refine yields_position.bind fun start hstart => yields_bind _ fun name => yields_bind _ fun written =>
    yields_bind _ fun following => ?_
  split
  · exact yields_pure hstart
  · exact yields_failAt _ _
  · exact yields_failAt _ _

theorem yields_enumDecl_counted (hstart : start.Counted) (doc : String) :
    Yields (enumDecl start doc) fun d => (Declaration.enum d).Counted :=
  yields_bind _ fun _ => yields_bind _ fun _ =>
    (yields_items_counted yields_enumMember_counted _).bind fun _ hmembers =>
      yields_pure ⟨hstart, hmembers⟩

theorem yields_field_counted (doc : String) (n : Numbering) :
    Yields (field doc n) fun out => out.1.position.Counted := by
  refine yields_position.bind fun start hstart => yields_bind _ fun written => yields_bind _ fun typing =>
    yields_bind _ fun name => yields_bind _ fun _ => yields_bind _ fun following => ?_
  split
  · exact yields_pure hstart
  · exact yields_failAt _ _
  · exact yields_failAt _ _

theorem yields_fields_counted (close : Char) : Yields (fields close) FieldsCounted :=
  yields_items_counted yields_field_counted _

theorem yields_recordDecl_counted (kind : RecordKind) (hstart : start.Counted) (doc : String) :
    Yields (recordDecl kind start doc) fun d => (Declaration.record d).Counted :=
  yields_bind _ fun _ => yields_bind _ fun _ => (yields_fields_counted _).bind fun _ hfields =>
    yields_pure ⟨hstart, hfields⟩

theorem yields_throwsClause_counted : Yields throwsClause FieldsCounted := by
  refine yields_bind _ fun mark => yields_bind _ fun next => ?_
  split
  · exact yields_bind _ fun _ => yields_fields_counted _
  · exact yields_bind _ fun _ => yields_pure (by simp [FieldsCounted])

theorem yields_function_counted (doc : String) (state : Unit) :
    Yields (function doc state) fun out => out.1.Counted :=
  yields_position.bind fun _ hstart => yields_bind _ fun _ => yields_bind _ fun _ =>
    yields_bind _ fun _ => (yields_fields_counted _).bind fun _ hparams =>
      yields_throwsClause_counted.bind fun _ hthrows => yields_bind _ fun _ =>
        yields_pure ⟨hstart, hparams, hthrows⟩

theorem yields_serviceDecl_counted (hstart : start.Counted) (doc : String) :
    Yields (serviceDecl start doc) fun d => (Declaration.service d).Counted :=
  yields_bind _ fun _ => yields_bind _ fun _ => yields_bind _ fun _ =>
    (yields_items_counted yields_function_counted ()).bind fun _ hfunctions =>
      yields_pure ⟨hstart, hfunctions⟩

theorem yields_namespaceDecl_counted (hstart : start.Counted) :
    Yields (namespaceDecl start) fun d => (Declaration.scoping d).Counted := by
  refine yields_bind _ fun name => ?_
  split
  · exact yields_fail _
  · exact yields_fail _
  · exact yields_bind _ fun _ => yields_pure ⟨hstart, trivial⟩

theorem yields_typedefDecl_counted (hstart : start.Counted) (doc : String) :
    Yields (typedefDecl start doc) fun d => (Declaration.typedef d).Counted :=
  yields_bind _ fun _ => yields_bind _ fun _ => yields_pure ⟨hstart, trivial⟩

theorem yields_declaration_counted (doc : String) :
    Yields (declaration doc) Declaration.Counted := by
  refine yields_position.bind fun start hstart => yields_bind _ fun keyword => ?_
  split
  · exact (yields_namespaceDecl_counted hstart).bind fun _ h => yields_pure h
  · exact yields_bind _ fun _ => yields_pure ⟨hstart, trivial⟩
  · exact yields_fail _
  · exact yields_bind _ fun _ => yields_pure ⟨hstart, trivial⟩
  · exact yields_bind _ fun _ => yields_pure ⟨hstart, trivial⟩
  · exact yields_fail _
  · exact (yields_typedefDecl_counted hstart doc).bind fun _ h => yields_pure h
  · exact (yields_enumDecl_counted hstart doc).bind fun _ h => yields_pure h
  · exact yields_fail _
  · exact (yields_recordDecl_counted _ hstart doc).bind fun _ h => yields_pure h
  · exact (yields_recordDecl_counted _ hstart doc).bind fun _ h => yields_pure h
  · exact (yields_recordDecl_counted _ hstart doc).bind fun _ h => yields_pure h
  · exact (yields_serviceDecl_counted hstart doc).bind fun _ h => yields_pure h
  · exact yields_failAt _ _

end Reader

theorem Document.counted_of_parse {file text : String} {d : Document}
    (h : Document.parse file text = .ok d) : ∀ decl ∈ d.declarations, decl.Counted :=
  ((Document.gives_parse (Reader.yields_all_declarations Reader.yields_declaration_counted _)).of_ok
    h).2

end ThriftIdl
