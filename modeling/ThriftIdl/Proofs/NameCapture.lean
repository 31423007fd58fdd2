import ThriftIdl.Proofs.LinkedSchema
import ThriftIdl.Proofs.TypedefMeaning

namespace ThriftIdl

open Linking (PartLinked TypesLinked Settled settleOrder settledNames lookupAfter baseLookup)
open TypeExpr (Known)

namespace Document

def usedTypes (d : Document) : List TypeExpr :=
  d.records.flatMap (fun r => r.fields.map (·.type)) ++
    d.services.flatMap fun s => s.functions.flatMap fun f =>
      f.returns :: (f.params.map (·.type) ++ f.throws.map (·.type))

def writtenTypes (d : Document) : List TypeExpr :=
  d.typedefs.map (·.target) ++ d.usedTypes

end Document

namespace SchemaPart

def usedTypes (part : SchemaPart) : List TypeId :=
  part.records.flatMap (fun r => r.fields.map (·.typeId)) ++
    part.services.flatMap fun s => s.methods.flatMap fun m =>
      m.returnType :: (m.params.map (·.typeId) ++ m.throws.map (·.typeId))

def recordedTypes (part : SchemaPart) : List TypeId :=
  part.typedefs.map (·.target) ++ part.usedTypes

end SchemaPart

/-- In one file a written type means one thing, and typedefs mean what they would mean once all
names of the file are known. -/
structure OneMeaning (program : ProgramId) (p : Program) (part : SchemaPart) (final : LinkState) :
    Prop where
  places : ∀ type id id', (type, id) ∈ p.document.writtenTypes.zip part.recordedTypes →
    (type, id') ∈ p.document.writtenTypes.zip part.recordedTypes → id = id'
  typedefs : ∀ decl t, (decl, t) ∈ p.document.typedefs.zip part.typedefs →
    (exec (decl.target.resolve (final.lookupType program)) final.types).1 = .ok (some t.target)

/-- A name that is known before any typedef of a program is settled. -/
def KnownOutside (programs : List Program) (p : Program) (name : String) : Prop :=
  (Builtin.ofName? name).isSome ∨ name ∈ (Linking.userTypes p.document).map Prod.fst ∨
    (includedSymbol Program.typeSymbol programs p name).isSome

instance (programs : List Program) (p : Program) : DecidablePred (KnownOutside programs p) :=
  fun _ => inferInstanceAs (Decidable (_ ∨ _ ∨ _))

def settledAt (programs : List Program) (p : Program) (name : String) : Nat :=
  (settleOrder (KnownOutside programs p) p.document.typedefs).idxOf name

/-- Every typedef is settled after those that it mentions. -/
def SettledInOrder (programs : List Program) (p : Program) : Prop :=
  ∀ decl ∈ p.document.typedefs, ∀ other ∈ p.document.typedefs, other.name ∈ decl.target.names →
    settledAt programs p other.name < settledAt programs p decl.name

instance (programs : List Program) (p : Program) : Decidable (SettledInOrder programs p) :=
  inferInstanceAs (Decidable (∀ decl ∈ p.document.typedefs, ∀ other ∈ p.document.typedefs,
    other.name ∈ decl.target.names →
      settledAt programs p other.name < settledAt programs p decl.name))

inductive Recorded (g : TypeGraph) (lookup : String → Option TypeId) : TypeExpr → TypeId → Prop
  | void : Recorded g lookup .void Builtin.void.id
  | known {type : TypeExpr} {id : TypeId} (h : type.Denotes g lookup id) :
      Recorded g lookup type id

section Places

variable {g : TypeGraph} {lookup : String → Option TypeId} {program : ProgramId} {p : Program}
  {part : SchemaPart} {st : LinkState} {locate : Position → Location}

theorem Recorded.unique {type : TypeExpr} {id id' : TypeId} (h : Recorded g lookup type id)
    (h' : Recorded g lookup type id') (hg : g.WellFormed) : id = id' := by
  cases h with
  | void =>
    cases h' with
    | void => rfl
    | known h' => exact absurd (List.mem_singleton_self "void") h'.void_not_mem
  | known h =>
    cases h' with
    | void => exact absurd (List.mem_singleton_self "void") h.void_not_mem
    | known h' => exact h.unique hg h'

theorem fields_recorded {decls : List FieldDecl} {fields : List Field}
    (h : List.Forall₂ (Linking.FieldLinked g lookup locate) decls fields) :
    List.Forall₂ (Recorded g lookup) (decls.map (·.type)) (fields.map (·.typeId)) :=
  List.rel_map (fun _ _ hf => .known hf.type) h

theorem method_recorded {decl : FunctionDecl} {method : Method}
    (h : Linking.MethodLinked g lookup locate decl method) :
    List.Forall₂ (Recorded g lookup)
      (decl.returns :: (decl.params.map (·.type) ++ decl.throws.map (·.type)))
      (method.returnType :: (method.params.map (·.typeId) ++ method.throws.map (·.typeId))) := by
  have hreturns : Recorded g lookup decl.returns method.returnType := by
    rcases h.returns with ⟨hvoid, hid⟩ | ⟨-, hdenotes⟩
    · rw [hvoid, hid]
      exact .void
    · exact .known hdenotes
  exact .cons hreturns (List.rel_append (fields_recorded h.params) (fields_recorded h.throws))

theorem Linking.PartLinked.used_recorded (h : PartLinked program p part st) :
    List.Forall₂ (Recorded st.types (st.lookupType program)) p.document.usedTypes
      part.usedTypes := by
  unfold Document.usedTypes SchemaPart.usedTypes
  apply List.rel_append
  · exact List.rel_flatMap h.records fun _ _ hr => fields_recorded hr.fields
  · exact List.rel_flatMap h.services fun _ _ hs =>
      List.rel_flatMap hs.methods fun _ _ hm => method_recorded hm

end Places

section Order

variable {program : ProgramId} {p : Program} {st : LinkState} {own : List (String × TypeId)}
  {settled newer older : List Linking.SettledTypedef} {decl : TypedefDecl}
  {r : ResolvedTypedef} {name : String}

theorem Linking.settleOrder_congr {outside outside' : String → Prop} [DecidablePred outside]
    [DecidablePred outside'] (h : ∀ name, outside name ↔ outside' name)
    (decls : List TypedefDecl) : settleOrder outside decls = settleOrder outside' decls := by
  obtain rfl : outside = outside' := funext fun name => propext (h name)
  congr

theorem Linking.TypesLinked.known_base (h : TypesLinked program p own settled st) (name : String) :
    Known (baseLookup st.programs p own) name ↔ KnownOutside st.programs p name := by
  unfold Known KnownOutside baseLookup
  rw [Option.isSome_or, Bool.or_eq_true, h.own_isSome]

theorem Linking.TypesLinked.settledNames_eq (h : TypesLinked program p own settled st) :
    settledNames settled = settleOrder (KnownOutside st.programs p) p.document.typedefs := by
  rw [h.order]
  exact Linking.settleOrder_congr h.known_base _

theorem idxOf_lt_iff (hnd : (settledNames (newer ++ (decl, r) :: older)).Nodup) :
    (settledNames (newer ++ (decl, r) :: older)).idxOf name <
        (settledNames (newer ++ (decl, r) :: older)).idxOf decl.name ↔
      name ∈ settledNames older := by
  rw [Linking.settledNames_append, Linking.settledNames_cons, List.append_assoc,
    List.singleton_append] at hnd ⊢
  have hdecl : decl.name ∉ settledNames older := by
    intro hm
    exact (List.nodup_append.1 hnd).2.2 _ hm _ List.mem_cons_self rfl
  rw [List.idxOf_append_of_notMem hdecl, List.idxOf_cons_self, Nat.add_zero]
  constructor
  · intro hlt
    by_contra hm
    rw [List.idxOf_append_of_notMem hm] at hlt
    omega
  · intro hm
    rw [List.idxOf_append_of_mem hm]
    exact List.idxOf_lt_length_iff.2 hm

end Order

section Capture

variable {program : ProgramId} {p : Program} {st : LinkState} {own : List (String × TypeId)}
  {settled newer older : List Linking.SettledTypedef} {decl : TypedefDecl}
  {r : ResolvedTypedef} {name : String}

theorem Linking.TypesLinked.target_denotes (h : TypesLinked program p own settled st)
    (he : settled = newer ++ (decl, r) :: older)
    (hbefore : ∀ other ∈ p.document.typedefs, other.name ∈ decl.target.names →
      other.name ∈ settledNames older) :
    decl.target.Denotes st.types (st.lookupType program) r.target := by
  have hseq := h.sequence
  have hdeclared := h.declared
  have hs : newer ++ (decl, r) :: older = (newer ++ [(decl, r)]) ++ older := by simp
  rw [h.lookup]
  rw [he] at hseq hdeclared ⊢
  apply hseq.target_kept
  intro name hn hlater
  rw [hs] at hseq hdeclared
  obtain ⟨s, hm, rfl⟩ := Linking.mem_settledNames.1 hlater
  have hmem := hbefore s.1 (hdeclared s (List.mem_append_left _ hm)) hn
  exact absurd hlater (hseq.not_mem_newer hmem)

theorem Linking.TypesLinked.typedef_not_base (h : TypesLinked program p own settled st)
    (hst : st.WellFormed) (hothers : ∀ inc ∈ p.includes, inc.target ≠ program)
    (hm : (decl, r) ∈ settled) : baseLookup st.programs p own decl.name ≠ some r.typeId := by
  have hown : own.lookup decl.name = none := by
    rw [← Option.not_isSome_iff_eq_none, h.own_isSome]
    exact Linking.typedef_not_user h.wellNamed (h.declared _ hm)
  unfold Linking.baseLookup
  rw [hown, Option.none_or]
  intro hincluded
  obtain ⟨inc, hinc, q, hq, name', hs⟩ := includedSymbol_eq_some hincluded
  have hthere := hst.symbols _ q hq name' _ hs
  have hhere : st.types.Declares r.typeId decl.name program := .inr ⟨_, h.sequence.node hm⟩
  exact hothers inc hinc (hthere.unique hhere).2

theorem Linking.TypesLinked.settled_before (h : TypesLinked program p own settled st)
    (hst : st.WellFormed) (hothers : ∀ inc ∈ p.includes, inc.target ≠ program)
    (he : settled = newer ++ (decl, r) :: older) {g : TypeGraph} (hgrow : st.types.Grows g)
    (hd : decl.target.Denotes g (st.lookupType program) r.target)
    {other : TypedefDecl} {s : ResolvedTypedef} (hs : (other, s) ∈ settled)
    (hn : other.name ∈ decl.target.names) : other.name ∈ settledNames older := by
  have hb : Builtin.ofName? other.name = none :=
    Linking.typedef_not_builtin h.wellNamed (h.declared _ hs)
  by_contra hnot
  have hseq := h.sequence
  rw [he] at hseq
  cases hseq.of_append with
  | cons hseq' fresh target node =>
    have hsame := hd.lookup_eq (target.grows hgrow) hn hb
    rw [h.lookup, h.sequence.lookup_eq hs] at hsame
    unfold Linking.lookupAfter at hsame
    rw [Linking.lookup_symbolsOf_eq_none hnot, Option.none_or] at hsame
    exact h.typedef_not_base hst hothers hs hsame.symm

theorem Linking.TypesLinked.targets_denote_iff (h : TypesLinked program p own settled st)
    (hst : st.WellFormed) (hothers : ∀ inc ∈ p.includes, inc.target ≠ program)
    (hall : ∀ decl ∈ p.document.typedefs, ∃ r, (decl, r) ∈ settled) :
    (∀ s ∈ settled, s.1.target.Denotes st.types (st.lookupType program) s.2.target) ↔
      SettledInOrder st.programs p := by
  unfold SettledInOrder settledAt
  rw [← h.settledNames_eq]
  have hnd := h.sequence.nodup
  constructor
  · intro hdenotes decl hdecl other hother hn
    obtain ⟨r, hr⟩ := hall decl hdecl
    obtain ⟨s, hs⟩ := hall other hother
    obtain ⟨newer, older, he, -⟩ := h.sequence.split hr
    have hbefore := h.settled_before hst hothers he (.refl _) (hdenotes _ hr) hs hn
    rw [he] at hnd ⊢
    exact (idxOf_lt_iff hnd).2 hbefore
  · rintro horder ⟨decl, r⟩ hr
    obtain ⟨newer, older, he, -⟩ := h.sequence.split hr
    apply h.target_denotes he
    intro other hother hn
    have hlt := horder decl (h.declared _ hr) other hother hn
    rw [he] at hnd hlt
    exact (idxOf_lt_iff hnd).1 hlt

theorem Linking.TypesLinked.settledInOrder (h : TypesLinked program p own settled st)
    (hall : ∀ decl ∈ p.document.typedefs, ∃ r, (decl, r) ∈ settled)
    (hun : Linking.Unhidden st p) : SettledInOrder st.programs p := by
  unfold SettledInOrder settledAt
  rw [← h.settledNames_eq]
  intro decl hdecl other hother hn
  obtain ⟨r, hr⟩ := hall decl hdecl
  obtain ⟨newer, older, he, hseq⟩ := h.sequence.split hr
  cases hseq with
  | cons hseq' fresh target node =>
    have hknown := target.known hn
    rw [Linking.known_lookupAfter, h.known_base] at hknown
    have hout : ¬ KnownOutside st.programs p other.name := by
      rintro (hb | hu | hincluded)
      · rw [Linking.typedef_not_builtin h.wellNamed hother] at hb
        cases hb
      · exact Linking.typedef_not_user h.wellNamed hother hu
      · rw [hun other hother] at hincluded
        cases hincluded
    have hnd := h.sequence.nodup
    rw [he] at hnd ⊢
    exact (idxOf_lt_iff hnd).2 (hknown.resolve_left hout)

end Capture

section Meaning

variable {program : ProgramId} {p : Program} {st : LinkState} {part : SchemaPart}
  {own : List (String × TypeId)} {settled : List Linking.SettledTypedef}

theorem target_denotes_of_resolve (h : TypesLinked program p own settled st)
    (hst : st.WellFormed) (hothers : ∀ inc ∈ p.includes, inc.target ≠ program)
    (hall : ∀ decl ∈ p.document.typedefs, ∃ r, (decl, r) ∈ settled) {decl : TypedefDecl}
    {r : ResolvedTypedef} (hr : (decl, r) ∈ settled)
    (hresolve : (exec (decl.target.resolve (st.lookupType program)) st.types).1 =
      .ok (some r.target)) :
    decl.target.Denotes st.types (st.lookupType program) r.target := by
  obtain ⟨hgrow, -, hout⟩ := TypeExpr.resolved decl.target hst.types
    fun _ _ hs => hst.usable hs
  rw [hresolve] at hout
  obtain ⟨newer, older, he, -⟩ := h.sequence.split hr
  apply h.target_denotes he
  intro other hother hn
  obtain ⟨s, hs⟩ := hall other hother
  cases hout with
  | known hd => exact h.settled_before hst hothers he hgrow hd hs hn

theorem Linking.PartLinked.allSettled (h : PartLinked program p part st) : ∃ own settled,
    TypesLinked program p own settled st ∧
    List.Forall₂ (Linking.TypedefLinkedTo p settled) p.document.typedefs part.typedefs ∧
    ∀ decl ∈ p.document.typedefs, ∃ r, (decl, r) ∈ settled := by
  obtain ⟨own, settled, ht, htypedefs⟩ := h.types
  refine ⟨own, settled, ht, htypedefs, ?_⟩
  intro decl hdecl
  obtain ⟨t, -, r, hr, -⟩ := forall₂_mem_left htypedefs hdecl
  exact ⟨r, hr⟩

theorem Linking.PartLinked.oneMeaning_iff (h : PartLinked program p part st) (hst : st.WellFormed)
    (hothers : ∀ inc ∈ p.includes, inc.target ≠ program) :
    OneMeaning program p part st ↔ SettledInOrder st.programs p := by
  obtain ⟨own, settled, ht, htypedefs, hall⟩ := h.allSettled
  rw [← ht.targets_denote_iff hst hothers hall]
  constructor
  · rintro ⟨-, hresolve⟩ ⟨decl, r⟩ hr
    apply target_denotes_of_resolve ht hst hothers hall hr
    obtain ⟨t, hzip, r', hr', rfl⟩ := forall₂_mem_left htypedefs (ht.declared _ hr)
    have hid : r.typeId = r'.typeId :=
      Option.some.inj ((ht.sequence.lookup_eq hr).symm.trans (ht.sequence.lookup_eq hr'))
    have hnode := ht.sequence.node hr
    rw [hid, ht.sequence.node hr'] at hnode
    have htarget : r'.target = r.target := (TypeNode.typedef.inj hnode).2.1
    rw [hresolve _ _ hzip, ← htarget]
    rfl
  · intro hdenotes
    have htargets : List.Forall₂ (Recorded st.types (st.lookupType program))
        (p.document.typedefs.map (·.target)) (part.typedefs.map (·.target)) := by
      apply List.rel_map _ htypedefs
      rintro decl t ⟨r, hr, rfl⟩
      exact .known (hdenotes _ hr)
    have hplaces := List.rel_append htargets h.used_recorded
    refine ⟨?_, ?_⟩
    · intro type id id' hid hid'
      exact (List.forall₂_zip hplaces hid).unique (List.forall₂_zip hplaces hid') hst.types
    · intro decl t hzip
      obtain ⟨r, hr, rfl⟩ := List.forall₂_zip htypedefs hzip
      rw [TypeExpr.exec_resolve_of_denotes (hdenotes _ hr) hst.types]
      rfl

theorem Linking.PartLinked.oneMeaning_of_unhidden (h : PartLinked program p part st)
    (hst : st.WellFormed) (hothers : ∀ inc ∈ p.includes, inc.target ≠ program)
    (hun : Linking.Unhidden st p) : OneMeaning program p part st := by
  obtain ⟨own, settled, ht, -, hall⟩ := h.allSettled
  exact (h.oneMeaning_iff hst hothers).2 (ht.settledInOrder hall hun)

theorem Linking.PartLinked.recorded_length (h : PartLinked program p part st) :
    p.document.writtenTypes.length = part.recordedTypes.length := by
  obtain ⟨own, settled, ht, htypedefs⟩ := h.types
  unfold Document.writtenTypes SchemaPart.recordedTypes
  rw [List.length_append, List.length_append, List.length_map, List.length_map,
    htypedefs.length_eq, h.used_recorded.length_eq]

end Meaning

section Load

variable {space : SearchSpace} {roots : List String} {schema : Schema} {loaded : LoadedPrograms}
  {parts : List SchemaPart} {final : LinkState}

theorem LoadLinked.each_part (h : LoadLinked space roots loaded parts final) :
    List.Forall₂ (fun program part => ∃ p, loaded.programs[program]? = some p ∧
      (∀ inc ∈ p.includes, inc.target ≠ program) ∧ PartLinked program p part final)
      loaded.order parts := by
  have hlinkable := h.found.linkable
  have hmem : ∀ program ∈ loaded.order, ∃ p, loaded.programs[program]? = some p ∧
      ∀ inc ∈ p.includes, inc.target ≠ program := by
    intro program hm
    obtain ⟨p, hu⟩ := hlinkable.unlinked program hm
    exact ⟨p, hu.present, hu.others⟩
  have hboth := (List.forall₂_and_left _ _).2 ⟨hmem, h.linked⟩
  refine hboth.imp ?_
  rintro program part ⟨⟨p, hp, hothers⟩, hpart⟩
  exact ⟨p, hp, hothers, hpart p hp⟩

theorem LoadLinked.oneMeaning_of_unhidden (h : LoadLinked space roots loaded parts final) :
    List.Forall₂ (fun program part => ∃ p, loaded.programs[program]? = some p ∧
      (Linking.Unhidden final p → OneMeaning program p part final)) loaded.order parts := by
  refine h.each_part.imp ?_
  rintro program part ⟨p, hp, hothers, hpart⟩
  exact ⟨p, hp, hpart.oneMeaning_of_unhidden h.advances.wellFormed hothers⟩

/-- Written types mean one thing in a file exactly if no typedef is settled before one that it
mentions; where one is, it takes the name from an include instead. -/
theorem load_one_meaning (h : load space roots = .ok schema) : ∃ loaded parts final,
    loadPrograms space roots = .ok loaded ∧
    exec (Linking.linkParts 0 loaded.order) (.ofPrograms loaded.programs) = (.ok parts, final) ∧
    schema = .ofParts final.types parts ∧
    List.Forall₂ (fun program part => ∃ p, loaded.programs[program]? = some p ∧
      p.document.writtenTypes.length = part.recordedTypes.length ∧
      (OneMeaning program p part final ↔ SettledInOrder final.programs p)) loaded.order parts := by
  obtain ⟨loaded, parts, final, hl, hlinked, rfl⟩ := load_linked h
  refine ⟨loaded, parts, final, hl, hlinked.ran, rfl, hlinked.each_part.imp ?_⟩
  rintro program part ⟨p, hp, hothers, hpart⟩
  exact ⟨p, hp, hpart.recorded_length, hpart.oneMeaning_iff hlinked.advances.wellFormed hothers⟩

end Load

def recordedByFile (space : SearchSpace) (roots : List String) :
    Except LoadError (List ProgramId × List (List TypeExpr) × List (List TypeId)) :=
  (loadPrograms space roots).bind fun loaded =>
    (exec (Linking.linkParts 0 loaded.order) (.ofPrograms loaded.programs)).1.map fun parts =>
      (loaded.order, loaded.programs.map (·.document.writtenTypes), parts.map (·.recordedTypes))

theorem recordedByFile_of_linked {space : SearchSpace} {roots : List String}
    {loaded : LoadedPrograms} {parts : List SchemaPart} {final : LinkState}
    (hl : loadPrograms space roots = .ok loaded)
    (hrun : exec (Linking.linkParts 0 loaded.order) (.ofPrograms loaded.programs) =
      (.ok parts, final)) :
    recordedByFile space roots = .ok (loaded.order,
      loaded.programs.map (·.document.writtenTypes), parts.map (·.recordedTypes)) := by
  unfold recordedByFile
  rw [hl]
  simp only [Except.bind]
  rw [hrun]
  rfl

/-- Every typedef stands before those that it mentions, and types are written twice. -/
def mentioning : SearchSpace :=
  ⟨⟨[(⟨true, ["main.thrift"]⟩, "typedef map<Id, Ids> T typedef list<Id> Ids typedef i32 Id " ++
    "struct S \x7b 1: list<Id> x 2: T y \x7d")], []⟩, []⟩

theorem mentioning_recorded : recordedByFile mentioning ["/main.thrift"] =
    .ok ([0], [[.map (.named "Id") (.named "Ids"), .list (.named "Id"), .named "i32",
      .list (.named "Id"), .named "T"]], [[14, 12, 4, 12, 15]]) := by
  cbv

theorem mentioning_settled : (loadPrograms mentioning ["/main.thrift"]).map (fun loaded =>
    loaded.programs.map fun p => decide (SettledInOrder
      (exec (Linking.linkParts 0 loaded.order) (.ofPrograms loaded.programs)).2.programs p)) =
      .ok [true] := by
  cbv

theorem mentioning_one_meaning : ∃ schema loaded parts final p part,
    load mentioning ["/main.thrift"] = .ok schema ∧
    loadPrograms mentioning ["/main.thrift"] = .ok loaded ∧
    exec (Linking.linkParts 0 loaded.order) (.ofPrograms loaded.programs) = (.ok parts, final) ∧
    schema = .ofParts final.types parts ∧
    loaded.programs[0]? = some p ∧ parts[0]? = some part ∧
    p.document.writtenTypes.zip part.recordedTypes =
      [(.map (.named "Id") (.named "Ids"), 14), (.list (.named "Id"), 12), (.named "i32", 4),
        (.list (.named "Id"), 12), (.named "T", 15)] ∧
    SettledInOrder final.programs p ∧ OneMeaning 0 p part final := by
  have hok : (load mentioning ["/main.thrift"]).isOk = true := by cbv
  cases h : load mentioning ["/main.thrift"] with
  | error e =>
    rw [h] at hok
    cases hok
  | ok schema =>
    obtain ⟨loaded, parts, final, hl, hrun, hschema, heach⟩ := load_one_meaning h
    have hrecorded := Except.ok.inj ((recordedByFile_of_linked hl hrun).symm.trans
      mentioning_recorded)
    obtain ⟨horder, hrecorded⟩ := Prod.mk.inj hrecorded
    obtain ⟨hwritten, hids⟩ := Prod.mk.inj hrecorded
    rw [horder] at heach
    cases heach with
    | @cons _ part _ others hfirst hothers =>
      obtain ⟨p, hp, -, hiff⟩ := hfirst
      have hsettled : SettledInOrder final.programs p := by
        have hall := mentioning_settled
        rw [hl] at hall
        have hget := congrArg (·[0]?) (Except.ok.inj hall)
        simpa [hp, hrun] using hget
      have hwritten : p.document.writtenTypes = [.map (.named "Id") (.named "Ids"),
          .list (.named "Id"), .named "i32", .list (.named "Id"), .named "T"] := by
        have hget := congrArg (·[0]?) hwritten
        simpa [hp] using hget
      have hids : part.recordedTypes = [14, 12, 4, 12, 15] := (List.cons.inj hids).1
      refine ⟨schema, loaded, _, final, p, part, rfl, hl, hrun, hschema, hp, rfl, ?_, hsettled,
        hiff.2 hsettled⟩
      rw [hwritten, hids]
      rfl

/-- The target of `U` is taken from the include, because the file's own `T` is settled later. -/
def capturing : SearchSpace :=
  ⟨⟨[(⟨true, ["main.thrift"]⟩,
      "include \"a.thrift\" typedef T U typedef i32 T struct S { 1: T x }"),
    (⟨true, ["a.thrift"]⟩, "typedef i64 T")], []⟩, []⟩

theorem capturing_recorded : recordedByFile capturing ["/main.thrift"] =
    .ok ([1, 0], [[.named "T", .named "i32", .named "T"], [.named "i64"]], [[5], [10, 4, 13]]) := by
  cbv

theorem capturing_loads : ∃ schema, load capturing ["/main.thrift"] = .ok schema := by
  have hok : (load capturing ["/main.thrift"]).isOk = true := by cbv
  cases h : load capturing ["/main.thrift"] with
  | ok schema => exact ⟨schema, rfl⟩
  | error e =>
    rw [h] at hok
    cases hok

theorem capturing_two_meanings : ∃ schema loaded parts final p part,
    load capturing ["/main.thrift"] = .ok schema ∧
    loadPrograms capturing ["/main.thrift"] = .ok loaded ∧
    exec (Linking.linkParts 0 loaded.order) (.ofPrograms loaded.programs) = (.ok parts, final) ∧
    schema = .ofParts final.types parts ∧
    loaded.order = [1, 0] ∧ loaded.programs[0]? = some p ∧ parts[1]? = some part ∧
    p.document.writtenTypes.zip part.recordedTypes =
      [(.named "T", 10), (.named "i32", 4), (.named "T", 13)] ∧
    ¬ OneMeaning 0 p part final := by
  obtain ⟨schema, h⟩ := capturing_loads
  obtain ⟨loaded, parts, final, hl, hlinked, hschema⟩ := load_linked h
  have hrecorded := Except.ok.inj ((recordedByFile_of_linked hl hlinked.ran).symm.trans
    capturing_recorded)
  obtain ⟨horder, hrecorded⟩ := Prod.mk.inj hrecorded
  obtain ⟨hwritten, hrecorded⟩ := Prod.mk.inj hrecorded
  obtain ⟨p, hp, hpwritten⟩ : ∃ p, loaded.programs[0]? = some p ∧
      p.document.writtenTypes = [.named "T", .named "i32", .named "T"] := by
    have hget := congrArg (·[0]?) hwritten
    simpa using hget
  obtain ⟨part, hpart, hids⟩ : ∃ part, parts[1]? = some part ∧
      part.recordedTypes = [10, 4, 13] := by
    have hget := congrArg (·[1]?) hrecorded
    simpa using hget
  have hzip : p.document.writtenTypes.zip part.recordedTypes =
      [(.named "T", 10), (.named "i32", 4), (.named "T", 13)] := by
    rw [hpwritten, hids]
    rfl
  refine ⟨schema, loaded, parts, final, p, part, h, hl, hlinked.ran, hschema, horder, hp, hpart,
    hzip, ?_⟩
  intro hone
  have hsame := hone.places (.named "T") 10 13
  rw [hzip] at hsame
  exact absurd (hsame (by simp) (by simp)) (by decide)

end ThriftIdl
