import ThriftIdl.Document.Parse
import ThriftIdl.Proofs.Lexemes

namespace ThriftIdl

section Threaded

variable {σ α : Type}

/-- Items of which each leaves behind the state that the next one starts from. -/
inductive Threaded (R : σ → α → σ → Prop) : σ → List α → Prop
  | nil (s : σ) : Threaded R s []
  | cons {s s' : σ} {a : α} {items : List α} (head : R s a s') (tail : Threaded R s' items) :
      Threaded R s (a :: items)

/-- What the state keeps to, and what an item gets from it. -/
theorem Threaded.forall {R : σ → α → σ → Prop} {I : σ → Prop} {P : α → Prop} {s : σ}
    {items : List α} (h : Threaded R s items) (hs : I s)
    (step : ∀ s a s', I s → R s a s' → I s' ∧ P a) : ∀ a ∈ items, P a := by
  induction h with
  | nil s => simp
  | cons head _ ih =>
    obtain ⟨hs', ha⟩ := step _ _ _ hs head
    exact List.forall_mem_cons.2 ⟨ha, ih hs'⟩

end Threaded

/-- Words for types are not followed by type parameters. -/
def TypeExpr.Readable : TypeExpr → Prop
  | named name => Reader.IsWord name ∧ name ≠ "list" ∧ name ≠ "set" ∧ name ≠ "map"
  | list element => element.Readable
  | set element => element.Readable
  | map key value => key.Readable ∧ value.Readable

structure TypedefDecl.Readable (d : TypedefDecl) : Prop where
  target : d.target.Readable
  name : Reader.IsIdentifier false d.name

structure EnumMemberDecl.Readable (n : Numbering) (d : EnumMemberDecl) (n' : Numbering) : Prop where
  name : Reader.IsIdentifier false d.name
  written : ∀ value ∈ d.written, Numeral.fitsInt32 value = true
  assigned : n.assign d.written = .ok (d.value, n')

structure EnumDecl.Readable (d : EnumDecl) : Prop where
  name : Reader.IsIdentifier false d.name
  members : Threaded EnumMemberDecl.Readable (.startingAt 0) d.members

/-- A field whose type is not taken for something else that may stand in front of it. -/
structure FieldDecl.Readable (n : Numbering) (d : FieldDecl) (n' : Numbering) : Prop where
  written : ∀ id ∈ d.written, 1 ≤ id ∧ Numeral.fitsInt32 id = true
  unnumbered : d.written = none → d.requiredness = .unstated →
    Reader.Stops Reader.beginsNumber d.type.render.toList
  unstated : d.requiredness = .unstated → d.type ≠ .named "required" ∧ d.type ≠ .named "optional"
  type : d.type.Readable
  name : Reader.IsIdentifier false d.name
  assigned : n.assign d.written = .ok (d.id, n')

def ReadableFields (fields : List FieldDecl) : Prop :=
  Threaded FieldDecl.Readable (.startingAt 1) fields

structure RecordDecl.Readable (d : RecordDecl) : Prop where
  name : Reader.IsIdentifier false d.name
  fields : ReadableFields d.fields

structure FunctionDecl.Readable (d : FunctionDecl) : Prop where
  awaited : d.oneway = false → d.returns ≠ .named "oneway"
  returns : d.returns.Readable
  name : Reader.IsIdentifier false d.name
  params : ReadableFields d.params
  throws : ReadableFields d.throws

structure ServiceDecl.Readable (d : ServiceDecl) : Prop where
  name : Reader.IsIdentifier false d.name
  base : ∀ base ∈ d.base, Reader.IsIdentifier false base
  functions : Threaded (fun _ d _ => FunctionDecl.Readable d) () d.functions

def Declaration.Readable : Declaration → Prop
  | scoping d => d.scope ≠ .php → Reader.IsIdentifier (d.scope = .smalltalkCategory) d.name
  | inclusion _ => True
  | typedef d => d.Readable
  | enum d => d.Readable
  | record d => d.Readable
  | service d => d.Readable

namespace Reader

variable {α σ : Type}

theorem yields_itemsUntil {close : Char} {item : String → σ → Reader (α × σ)}
    {R : σ → α → σ → Prop} (h : ∀ doc s, Yields (item doc s) fun out => R s out.1 out.2) (s : σ) :
    Yields (itemsUntil close item s) (Threaded R s) := by
  refine (yields_fix (P := fun (state : List α × σ) found =>
    ∃ more, found = state.1 ++ more ∧ Threaded R state.2 more) ?_ ([], s)).imp ?_
  · rintro again hagain ⟨items, s⟩
    refine yields_bind _ fun doc => yields_bind _ fun next => ?_
    split
    · exact yields_bind _ fun _ => yields_pure ⟨[], by simp, .nil s⟩
    · refine (h doc s).bind fun out hout => (hagain _).imp fun found hfound => ?_
      obtain ⟨more, rfl, hmore⟩ := hfound
      exact ⟨out.1 :: more, by simp, .cons hout hmore⟩
  · rintro found ⟨more, rfl, hmore⟩
    exact hmore

theorem ends_typeExpr (c : Cursor) :
    Ends typeExpr c
      (fun t _ => t.Readable ∧ (Stops beginsGap c.rest → t.render.toList.head? = c.rest.head?))
      fun _ => True := by
  refine ends_fix (Q := fun _ c (t : TypeExpr) _ =>
    t.Readable ∧ (Stops beginsGap c.rest → t.render.toList.head? = c.rest.head?)) ?_ () c
  intro again hagain _ c
  have hnested : Yields (again ()) TypeExpr.Readable :=
    fun c => (hagain () c).imp (fun _ _ h => h.1) fun _ h => h
  refine (ends_word c).bind fun name c' hname => ?_
  split
  · refine (yields_bind _ fun _ => hnested.bind fun element helement =>
      yields_bind _ fun _ => yields_pure ⟨helement, fun hc => ?_⟩) c'
    rw [← hname.2 hc]
    simp [TypeExpr.render]
  · refine (yields_bind _ fun _ => hnested.bind fun element helement =>
      yields_bind _ fun _ => yields_pure ⟨helement, fun hc => ?_⟩) c'
    rw [← hname.2 hc]
    simp [TypeExpr.render]
  · refine (yields_bind _ fun _ => hnested.bind fun key hkey => yields_bind _ fun _ =>
      hnested.bind fun value hvalue => yields_bind _ fun _ =>
        yields_pure ⟨⟨hkey, hvalue⟩, fun hc => ?_⟩) c'
    rw [← hname.2 hc]
    simp [TypeExpr.render]
  · exact ⟨⟨hname.1, ‹_›, ‹_›, ‹_›⟩, hname.2⟩

theorem yields_typeExpr : Yields typeExpr TypeExpr.Readable :=
  fun c => (ends_typeExpr c).imp (fun _ _ h => h.1) fun _ h => h

section Enums

theorem yields_writtenValue :
    Yields writtenValue fun written => ∀ value ∈ written, Numeral.fitsInt32 value = true := by
  refine yields_bind _ fun mark => yields_bind _ fun next => ?_
  split
  · refine yields_bind _ fun _ => yields_integer.bind fun value hvalue => yields_pure ?_
    intro _ h
    exact Option.mem_some.1 h ▸ hvalue
  · exact yields_bind _ fun _ => yields_pure (by simp)

theorem yields_enumMember (doc : String) (n : Numbering) :
    Yields (enumMember doc n) fun out => out.1.Readable n out.2 := by
  refine yields_bind _ fun start => (yields_identifier false).bind fun name hname =>
    yields_writtenValue.bind fun written hwritten => yields_bind _ fun following => ?_
  split
  · next hassigned => exact yields_pure ⟨hname, hwritten, hassigned⟩
  · exact yields_failAt _ _
  · exact yields_failAt _ _

theorem yields_enumDecl (start : Position) (doc : String) :
    Yields (enumDecl start doc) EnumDecl.Readable :=
  (yields_identifier false).bind fun _ hname => yields_bind _ fun _ =>
    (yields_itemsUntil yields_enumMember _).bind fun _ hmembers => yields_pure ⟨hname, hmembers⟩

end Enums

section Fields

theorem yields_fieldId (start : Position) :
    Yields (fieldId start) fun id => 1 ≤ id ∧ Numeral.fitsInt32 id = true := by
  refine yields_integer.bind fun id hid => ?_
  split
  · exact yields_failAt _ _
  · next hpos => exact yields_bind _ fun _ => yields_pure ⟨Int.not_lt.1 hpos, hid⟩

theorem ends_writtenId (start : Position) (c : Cursor) :
    Ends (writtenId start) c (fun written c' =>
      (∀ id ∈ written, 1 ≤ id ∧ Numeral.fitsInt32 id = true) ∧
        (written = none → Stops beginsGap c'.rest ∧ Stops beginsNumber c'.rest)) fun _ => True := by
  refine (ends_peek c).bind fun next c' hnext => ?_
  split
  · refine Ends.bind (yields_fieldId start c') fun id _ hid => ⟨fun _ h => ?_, by simp⟩
    exact Option.mem_some.1 h ▸ hid
  · next hnumber =>
    refine ⟨by simp, fun _ => ⟨hnext.1, fun ch hch => ?_⟩⟩
    obtain rfl : next = ch := Option.some.inj (hnext.2.symm.trans hch)
    exact Bool.eq_false_iff.2 hnumber

theorem ends_fieldType (c : Cursor) :
    Ends fieldType c (fun out _ => out.2.Readable ∧ (out.1 = .unstated →
      (out.2 ≠ .named "required" ∧ out.2 ≠ .named "optional") ∧
        (Stops beginsGap c.rest → out.2.render.toList.head? = c.rest.head?))) fun _ => True := by
  refine (ends_typeExpr c).bind fun type c' htype => ?_
  split
  · exact (yields_typeExpr.bind fun _ h => yields_pure ⟨h, by simp⟩) c'
  · exact (yields_typeExpr.bind fun _ h => yields_pure ⟨h, by simp⟩) c'
  · exact ⟨htype.1, fun _ => ⟨⟨‹_›, ‹_›⟩, htype.2⟩⟩

theorem yields_field (doc : String) (n : Numbering) :
    Yields (field doc n) fun out => out.1.Readable n out.2 := by
  refine yields_bind _ fun start c => ?_
  refine (ends_writtenId start c).bind fun written c hwritten => ?_
  refine (ends_fieldType c).bind fun typing c' htyping => ?_
  refine ((yields_identifier false).bind fun name hname => yields_bind _ fun _ =>
    yields_bind _ fun following => ?_) c'
  -- Without an id or a modifier, the type stands where the id was looked for.
  have hunnumbered : written = none → typing.1 = .unstated →
      Stops beginsNumber typing.2.render.toList := by
    intro hnone hunstated ch hch
    obtain ⟨hgap, hnumber⟩ := hwritten.2 hnone
    rw [(htyping.2 hunstated).2 hgap] at hch
    exact hnumber ch hch
  split
  · next hassigned =>
    exact yields_pure ⟨hwritten.1, hunnumbered, fun h => (htyping.2 h).1, htyping.1, hname,
      hassigned⟩
  · exact yields_failAt _ _
  · exact yields_failAt _ _

theorem yields_fields (close : Char) : Yields (fields close) ReadableFields :=
  yields_itemsUntil yields_field _

theorem yields_recordDecl (kind : RecordKind) (start : Position) (doc : String) :
    Yields (recordDecl kind start doc) RecordDecl.Readable :=
  (yields_identifier false).bind fun _ hname => yields_bind _ fun _ =>
    (yields_fields _).bind fun _ hfields => yields_pure ⟨hname, hfields⟩

end Fields

section Services

theorem yields_returnType :
    Yields returnType fun out => (out.1 = false → out.2 ≠ .named "oneway") ∧ out.2.Readable := by
  refine yields_typeExpr.bind fun type htype => ?_
  split
  · exact yields_typeExpr.bind fun _ h => yields_pure ⟨by simp, h⟩
  · exact yields_pure ⟨fun _ => ‹_›, htype⟩

theorem yields_throwsClause : Yields throwsClause ReadableFields := by
  refine yields_bind _ fun mark => yields_bind _ fun next => ?_
  split
  · exact yields_bind _ fun _ => yields_fields _
  · exact yields_bind _ fun _ => yields_pure (.nil _)

theorem yields_function (doc : String) (state : Unit) :
    Yields (function doc state) fun out => out.1.Readable :=
  yields_bind _ fun _ => yields_returnType.bind fun _ hreturns =>
    (yields_identifier false).bind fun _ hname => yields_bind _ fun _ =>
      (yields_fields _).bind fun _ hparams => yields_throwsClause.bind fun _ hthrows =>
        yields_bind _ fun _ => yields_pure ⟨hreturns.1, hreturns.2, hname, hparams, hthrows⟩

theorem yields_baseService :
    Yields baseService fun base => ∀ name ∈ base, IsIdentifier false name := by
  refine yields_bind _ fun keyword => ?_
  split
  · refine (yields_identifier false).bind fun base hbase => yields_pure ?_
    intro _ h
    exact Option.mem_some.1 h ▸ hbase
  · exact yields_fail _
  · exact yields_pure (by simp)

theorem yields_serviceDecl (start : Position) (doc : String) :
    Yields (serviceDecl start doc) ServiceDecl.Readable :=
  (yields_identifier false).bind fun _ hname => yields_baseService.bind fun _ hbase =>
    yields_bind _ fun _ => (yields_itemsUntil yields_function ()).bind fun _ hfunctions =>
      yields_pure ⟨hname, hbase, hfunctions⟩

end Services

section Declarations

theorem yields_namespaceDecl (start : Position) :
    Yields (namespaceDecl start) fun d =>
      d.scope ≠ .php → IsIdentifier (d.scope = .smalltalkCategory) d.name := by
  refine yields_bind _ fun name => ?_
  split
  · exact yields_fail _
  · exact yields_fail _
  · exact (yields_identifier _).bind fun _ hname => yields_pure fun _ => hname

theorem yields_typedefDecl (start : Position) (doc : String) :
    Yields (typedefDecl start doc) TypedefDecl.Readable :=
  yields_typeExpr.bind fun _ htarget => (yields_identifier false).bind fun _ hname =>
    yields_pure ⟨htarget, hname⟩

theorem yields_declaration (doc : String) : Yields (declaration doc) Declaration.Readable := by
  refine yields_bind _ fun start => yields_bind _ fun keyword => ?_
  split
  · exact (yields_namespaceDecl start).bind fun _ h => yields_pure h
  · exact yields_bind _ fun _ => yields_pure fun h => absurd rfl h
  · exact yields_fail _
  · exact yields_bind _ fun _ => yields_pure trivial
  · exact yields_bind _ fun _ => yields_pure trivial
  · exact yields_fail _
  · exact (yields_typedefDecl start doc).bind fun _ h => yields_pure h
  · exact (yields_enumDecl start doc).bind fun _ h => yields_pure h
  · exact yields_fail _
  · exact (yields_recordDecl _ start doc).bind fun _ h => yields_pure h
  · exact (yields_recordDecl _ start doc).bind fun _ h => yields_pure h
  · exact (yields_recordDecl _ start doc).bind fun _ h => yields_pure h
  · exact (yields_serviceDecl start doc).bind fun _ h => yields_pure h
  · exact yields_failAt _ _

theorem yields_all_declarations {P : Declaration → Prop}
    (h : ∀ doc, Yields (declaration doc) P) :
    Yields declarations fun found => ∀ d ∈ found, P d := by
  refine (yields_fix (P := fun (found all : List Declaration) =>
    (∀ d ∈ found, P d) → ∀ d ∈ all, P d) ?_ []).imp fun _ hall => hall (by simp)
  intro again hagain found
  refine yields_bind _ fun doc => yields_bind _ fun text => ?_
  split
  · exact yields_pure fun hfound => hfound
  · refine (h doc).bind fun d hd => ?_
    split
    · exact yields_failAt _ _
    · refine (hagain _).imp fun all hall hfound => hall ?_
      simpa [or_imp, forall_and] using ⟨hfound, hd⟩

theorem yields_declarations :
    Yields declarations fun found => ∀ d ∈ found, d.Readable :=
  yields_all_declarations yields_declaration

end Declarations

end Reader

theorem Document.gives_parse {file text : String} {P : List Declaration → Prop}
    {E : SyntaxError → Prop}
    (h : Reader.Ends Reader.declarations (Cursor.ofText text) (fun found _ => P found) E) :
    Gives (Document.parse file text) (fun d => d.file = file ∧ P d.declarations) E := by
  have hfound : Gives (Reader.declarations.run' (Cursor.ofText text)) P E := by
    refine Gives.bind h ?_
    exact fun out hout => hout
  exact hfound.bind fun found hfound => ⟨rfl, hfound⟩

theorem Document.readable_of_parse {file text : String} {d : Document}
    (h : Document.parse file text = .ok d) :
    d.file = file ∧ ∀ decl ∈ d.declarations, decl.Readable :=
  (Document.gives_parse (Reader.yields_declarations _)).of_ok h

end ThriftIdl
