import ThriftIdl.Proofs.LinkedServices
import ThriftIdl.Proofs.TypedefFixpoint

namespace ThriftIdl.Linking

open TypeExpr (Known)

/-- What names stand for before any typedef of a program is settled. -/
def baseLookup (programs : List Program) (p : Program) (own : List (String × TypeId))
    (name : String) : Option TypeId :=
  (own.lookup name).or (includedSymbol Program.typeSymbol programs p name)

/-- How the types of a program stand in a state: `own` are those of its enums and records. -/
structure TypesLinked (program : ProgramId) (p : Program) (own : List (String × TypeId))
    (settled : List SettledTypedef) (st : LinkState) : Prop where
  wellNamed : nameFault? [] (definitions p.document) = none
  names : own.map Prod.fst = ((userTypes p.document).map Prod.fst).reverse
  present : ∃ q, st.programs[program]? = some q ∧ q.document = p.document ∧
    q.scope = (p.path, p.includes, symbolsOf settled ++ own)
  sequence : Settled st.types program (baseLookup st.programs p own) settled
  declared : ∀ s ∈ settled, s.1 ∈ p.document.typedefs
  order : settledNames settled =
    settleOrder (Known (baseLookup st.programs p own)) p.document.typedefs

def TypedefLinkedTo (p : Program) (settled : List SettledTypedef) (decl : TypedefDecl)
    (t : Typedef) : Prop :=
  ∃ r, (decl, r) ∈ settled ∧ t = linkTypedef p decl r

structure PartLinked (program : ProgramId) (p : Program) (part : SchemaPart) (st : LinkState) :
    Prop where
  types : ∃ own settled, TypesLinked program p own settled st ∧
    List.Forall₂ (TypedefLinkedTo p settled) p.document.typedefs part.typedefs
  enums : List.Forall₂ (EnumLinked (st.lookupType program) p) p.document.enums part.enums
  records : List.Forall₂ (RecordLinked st.types (st.lookupType program) p) p.document.records
    part.records
  services : List.Forall₂ (ServiceLinked st.types (st.lookupType program) p) p.document.services
    part.services

structure Unlinked (programs : List Program) (program : ProgramId) (p : Program) : Prop where
  present : programs[program]? = some p
  fresh : p.types = []
  others : ∀ inc ∈ p.includes, inc.target ≠ program

section Types

variable {st start mid final : LinkState} {program : ProgramId} {p : Program}
  {own : List (String × TypeId)} {settled : List SettledTypedef} {resolved : List ResolvedTypedef}

theorem baseLookup_congr {programs programs' : List Program}
    (h : ∀ inc ∈ p.includes, programs'[inc.target]?.map Program.scope =
      programs[inc.target]?.map Program.scope) :
    baseLookup programs' p own = baseLookup programs p own := by
  funext name
  unfold baseLookup
  rw [includedSymbol_congr rfl h]

theorem defineUserTypes_indexed {u : Unit} (hst : st.WellFormed)
    (h : Unlinked st.programs program p)
    (he : exec (defineUserTypes program) st = (.ok u, start)) :
    ∃ own, st.Defines program own start ∧
      own.map Prod.fst = ((userTypes p.document).map Prod.fst).reverse ∧
      Indexed start program (p.withTypes own) := by
  obtain ⟨hn, own, hd, hnames⟩ := defineUserTypes_ok hst h.present he
  refine ⟨own, hd, hnames, hd.wellFormed, hd.own h.present, hn, ?_, h.others⟩
  intro name
  unfold Program.typeSymbol Program.withTypes
  rw [h.fresh, List.append_nil, lookup_isSome, hnames, List.mem_reverse]

theorem defineUserTypes_names {u : Unit} (hst : st.WellFormed)
    (hp : st.programs[program]? = some p)
    (he : exec (defineUserTypes program) st = (.ok u, start)) :
    ∀ user ∈ userTypes p.document, start.NamesUser program user := by
  obtain ⟨hn, rfl⟩ := exec_defineUserTypes hp he
  have hnd := (List.nodup_append.1 (declared_nodup hn)).2.1
  exact .of_defineUsers hst hp (List.nodup_append.1 hnd).1

theorem AllSettled.namesUser {user : String × UserKind}
    (ha : AllSettled start program p.document.typedefs resolved settled mid)
    (hn : nameFault? [] (definitions p.document) = none) (hm : user ∈ userTypes p.document)
    (h : start.NamesUser program user) : mid.NamesUser program user := by
  refine h.defines ha.defines ?_
  intro hs
  unfold symbolsOf at hs
  rw [List.map_map, List.mem_map] at hs
  obtain ⟨s, hs, he⟩ := hs
  apply typedef_not_user hn (ha.declared s hs)
  exact List.mem_map.2 ⟨user, hm, he.symm⟩

theorem typesLinked (h : Unlinked st.programs program p)
    (hn : own.map Prod.fst = ((userTypes p.document).map Prod.fst).reverse)
    (hi : Indexed start program (p.withTypes own))
    (ha : AllSettled start program p.document.typedefs resolved settled mid)
    (hk : mid.Keeps program final) : TypesLinked program p own settled final := by
  have hscope : ∀ inc ∈ p.includes, final.programs[inc.target]?.map Program.scope =
      start.programs[inc.target]?.map Program.scope := by
    intro inc hinc
    rw [hk.scope, ha.defines.others (h.others inc hinc)]
  have hbase : start.lookupType program = baseLookup final.programs p own := by
    rw [baseLookup_congr hscope]
    funext name
    unfold LinkState.lookupType
    rw [lookupType_eq hi.present]
    unfold baseLookup Program.typeSymbol Program.withTypes
    rw [h.fresh, List.append_nil]
    rfl
  have hpresent := hk.own
  rw [ha.defines.own hi.present] at hpresent
  obtain ⟨q, hq, he⟩ := Option.map_eq_some_iff.1 hpresent
  have hq' : q.scope = (p.path, p.includes, symbolsOf settled ++ own) := by
    rw [Program.scope_of_outline he]
    simp [Program.scope, Program.withTypes, h.fresh]
  have hdoc : q.document = p.document := by
    simp only [Program.outline, Program.mk.injEq] at he
    exact he.2.1
  refine ⟨hi.wellNamed, hn, ⟨q, hq, hdoc, hq'⟩, ?_, ha.declared, ?_⟩
  · rw [← hbase]
    exact ha.sequence.grows hk.grows
  · simp only [← hbase]
    exact ha.order

theorem TypesLinked.own_isSome {name : String} (h : TypesLinked program p own settled st) :
    (own.lookup name).isSome ↔ name ∈ (userTypes p.document).map Prod.fst := by
  rw [lookup_isSome, h.names, List.mem_reverse]

theorem TypesLinked.lookup (h : TypesLinked program p own settled st) :
    st.lookupType program = lookupAfter (baseLookup st.programs p own) settled := by
  obtain ⟨q, hq, -, hscope⟩ := h.present
  have htypes : q.types = symbolsOf settled ++ own := congrArg (·.2.2) hscope
  have hincludes : q.includes = p.includes := congrArg (·.2.1) hscope
  funext name
  unfold LinkState.lookupType lookupAfter baseLookup
  rw [lookupType_eq hq, ← Option.or_assoc]
  unfold Program.typeSymbol
  rw [htypes, List.lookup_append]
  unfold includedSymbol
  rw [hincludes]

theorem TypesLinked.later (h : TypesLinked program p own settled st)
    (hgrow : st.types.Grows final.types)
    (hsame : final.programs[program]? = st.programs[program]?)
    (hinc : ∀ inc ∈ p.includes, final.programs[inc.target]? = st.programs[inc.target]?) :
    TypesLinked program p own settled final := by
  have hbase : baseLookup final.programs p own = baseLookup st.programs p own := by
    apply baseLookup_congr
    intro inc hm
    rw [hinc inc hm]
  refine ⟨h.wellNamed, h.names, ?_, ?_, h.declared, ?_⟩
  · rw [hsame]
    exact h.present
  · rw [hbase]
    exact h.sequence.grows hgrow
  · simp only [hbase]
    exact h.order

theorem PartLinked.later {part : SchemaPart} (h : PartLinked program p part st)
    (hgrow : st.types.Grows final.types)
    (hsame : final.programs[program]? = st.programs[program]?)
    (hinc : ∀ inc ∈ p.includes, final.programs[inc.target]? = st.programs[inc.target]?) :
    PartLinked program p part final := by
  obtain ⟨⟨own, settled, ht, htypedefs⟩, henums, hrecords, hservices⟩ := h
  have ht' := ht.later hgrow hsame hinc
  have hbase : baseLookup final.programs p own = baseLookup st.programs p own := by
    apply baseLookup_congr
    intro inc hm
    rw [hinc inc hm]
  have hl : final.lookupType program = st.lookupType program := by
    rw [ht'.lookup, ht.lookup, hbase]
  refine ⟨⟨own, settled, ht', htypedefs⟩, ?_, ?_, ?_⟩
  · rw [hl]
    exact henums
  · rw [hl]
    exact hrecords.imp fun _ _ => RecordLinked.grows hgrow
  · rw [hl]
    exact hservices.imp fun _ _ => ServiceLinked.grows hgrow

end Types

structure Advances (st : LinkState) (programs : List ProgramId) (st' : LinkState) : Prop where
  wellFormed : st'.WellFormed
  grows : st.types.Grows st'.types
  others : ∀ i, i ∉ programs → st'.programs[i]? = st.programs[i]?

section Parts

variable {st final : LinkState} {program : ProgramId} {p : Program} {first : ServiceId}
  {part : SchemaPart} {parts : List SchemaPart} {order : List ProgramId}

theorem mapM_enums_ok {decls : List EnumDecl} {enums : List EnumType} {st' : LinkState}
    (hst : st.WellFormed) (h : exec (decls.mapM (linkEnum program p)) st = (.ok enums, st')) :
    st.Keeps program st' ∧ List.Forall₂ (EnumLinked (st'.lookupType program) p) decls enums :=
  mapM_ok (fun _ lookup => EnumLinked lookup p) (fun _ h => h) linkEnum_ok hst h

theorem mapM_records_ok {decls : List RecordDecl} {records : List Record} {st' : LinkState}
    (hst : st.WellFormed) (h : exec (decls.mapM (linkRecord program p)) st = (.ok records, st')) :
    st.Keeps program st' ∧
      List.Forall₂ (RecordLinked st'.types (st'.lookupType program) p) decls records :=
  mapM_ok (fun g lookup => RecordLinked g lookup p) RecordLinked.grows linkRecord_ok hst h

theorem zipWith_linked (p : Program) {decls : List TypedefDecl} {resolved : List ResolvedTypedef}
    {settled : List SettledTypedef}
    (h : List.Forall₂ (fun decl r => (decl, r) ∈ settled) decls resolved) :
    List.Forall₂ (TypedefLinkedTo p settled) decls (decls.zipWith (linkTypedef p) resolved) := by
  induction h with
  | nil => exact .nil
  | cons hs _ ih => exact .cons ⟨_, hs, rfl⟩ ih

theorem linkPart_ok (hst : st.WellFormed) (hu : Unlinked st.programs program p)
    (h : exec (linkPart first program) st = (.ok part, final)) :
    Advances st [program] final ∧ PartLinked program p part final ∧
      ∀ user ∈ userTypes p.document, final.NamesUser program user := by
  unfold linkPart at h
  rw [exec_bind_of_ok (exec_get st), hu.present] at h
  dsimp only at h
  obtain ⟨_, start, h₁, h⟩ := exec_bind_ok_iff.1 h
  obtain ⟨resolved, mid, h₂, h⟩ := exec_bind_ok_iff.1 h
  obtain ⟨enums, st₃, h₃, h⟩ := exec_bind_ok_iff.1 h
  obtain ⟨records, st₄, h₄, h⟩ := exec_bind_ok_iff.1 h
  obtain ⟨services, st₅, h₅, h⟩ := exec_bind_ok_iff.1 h
  obtain ⟨own, hd, hn, hi⟩ := defineUserTypes_indexed hst hu h₁
  obtain ⟨settled, ha⟩ := defineTypedefs_settled hi h₂
  obtain ⟨hk₃, henums⟩ := mapM_enums_ok ha.defines.wellFormed h₃
  obtain ⟨hk₄, hrecords⟩ := mapM_records_ok hk₃.wellFormed h₄
  obtain ⟨hk₅, hservices⟩ := linkServices_ok hk₄.wellFormed h₅
  obtain ⟨rfl, rfl⟩ := exec_pure_ok_iff.1 h
  have hk : mid.Keeps program st₅ := (hk₃.trans hk₄).trans hk₅
  refine ⟨⟨hk.wellFormed, (hd.grows.trans ha.defines.grows).trans hk.grows, ?_⟩, ?_, ?_⟩
  · intro i hm
    have hne : i ≠ program := by simpa using hm
    rw [hk.others i hne, ha.defines.others hne, hd.others hne]
  · refine ⟨⟨own, settled, typesLinked hu hn hi ha hk, zipWith_linked p ha.aligned⟩, ?_, ?_,
      hservices⟩
    · rw [hk₅.lookupType, hk₄.lookupType]
      exact henums
    · rw [hk₅.lookupType]
      exact hrecords.imp fun _ _ => RecordLinked.grows hk₅.grows
  · intro user hm
    have hstart := defineUserTypes_names hst hu.present h₁ user hm
    exact (ha.namesUser hi.wellNamed hm hstart).mono hk.grows (hk.scope program)

structure Linkable (programs : List Program) (order : List ProgramId) : Prop where
  nodup : order.Nodup
  unlinked : ∀ i ∈ order, ∃ p, Unlinked programs i p
  includesFirst : order.Pairwise fun i j => ∀ p, programs[i]? = some p →
    ∀ inc ∈ p.includes, inc.target ≠ j

namespace Linkable

variable {programs : List Program} {done : List ProgramId}

theorem of_append (h : Linkable programs (done ++ order)) : Linkable programs done where
  nodup := (List.nodup_append.1 h.nodup).1
  unlinked i hi := h.unlinked i (List.mem_append_left _ hi)
  includesFirst := (List.pairwise_append.1 h.includesFirst).1

theorem of_append_right (h : Linkable programs (done ++ order)) : Linkable programs order where
  nodup := (List.nodup_append.1 h.nodup).2.1
  unlinked i hi := h.unlinked i (List.mem_append_right _ hi)
  includesFirst := (List.pairwise_append.1 h.includesFirst).2.1

theorem not_mem_done (h : Linkable programs (done ++ order)) {i : ProgramId} (hi : i ∈ order) :
    i ∉ done :=
  fun hm => (List.nodup_append.1 h.nodup).2.2 i hm i hi rfl

theorem not_mem_rest (h : Linkable programs (done ++ order)) {i : ProgramId} (hi : i ∈ done) :
    i ∉ order :=
  fun hm => h.not_mem_done hm hi

/-- What is still to be linked is as it was read. -/
theorem unchanged (h : Linkable programs (done ++ order)) (hadv : Advances st done final)
    (hsame : ∀ i ∈ done ++ order, st.programs[i]? = programs[i]?) :
    ∀ i ∈ order, final.programs[i]? = programs[i]? := by
  intro i hi
  rw [hadv.others i (h.not_mem_done hi)]
  exact hsame i (List.mem_append_right _ hi)

theorem includes_not_mem (h : Linkable programs (program :: order))
    (hp : programs[program]? = some p) :
    ∀ inc ∈ p.includes, inc.target ∉ order := by
  intro inc hinc hm
  exact (List.pairwise_cons.1 h.includesFirst).1 inc.target hm p hp inc hinc rfl

end Linkable

theorem linkParts_ok {programs : List Program} (hl : Linkable programs order)
    (hst : st.WellFormed) (hsame : ∀ i ∈ order, st.programs[i]? = programs[i]?)
    (h : exec (linkParts first order) st = (.ok parts, final)) :
    Advances st order final ∧ List.Forall₂ (fun program part =>
      ∀ p, programs[program]? = some p → PartLinked program p part final) order parts ∧
      ∀ program ∈ order, ∀ p, programs[program]? = some p →
        ∀ user ∈ userTypes p.document, final.NamesUser program user := by
  induction order generalizing st first parts with
  | nil =>
    obtain ⟨rfl, rfl⟩ := exec_pure_ok_iff.1 h
    exact ⟨⟨hst, .refl _, fun _ _ => rfl⟩, .nil, by simp⟩
  | cons program order ih =>
    have happ : Linkable programs ([program] ++ order) := hl
    have hnew : program ∉ order := happ.not_mem_rest List.mem_cons_self
    obtain ⟨p, hu⟩ := hl.unlinked program List.mem_cons_self
    have hp := hsame program List.mem_cons_self
    obtain ⟨part, st₁, h₁, h⟩ := exec_bind_ok_iff.1 h
    obtain ⟨others, st₂, h₂, h⟩ := exec_bind_ok_iff.1 h
    obtain ⟨rfl, rfl⟩ := exec_pure_ok_iff.1 h
    obtain ⟨hadv₁, hpart, husers⟩ := linkPart_ok hst ⟨hp.trans hu.present, hu.fresh, hu.others⟩ h₁
    obtain ⟨hadv₂, hparts, hothers⟩ :=
      ih happ.of_append_right hadv₁.wellFormed (happ.unchanged hadv₁ hsame) h₂
    refine ⟨⟨hadv₂.wellFormed, hadv₁.grows.trans hadv₂.grows, ?_⟩, .cons ?_ hparts, ?_⟩
    · intro i hi
      obtain ⟨hne, hi⟩ : i ≠ program ∧ i ∉ order := by simpa using hi
      rw [hadv₂.others i hi, hadv₁.others i (by simpa using hne)]
    · intro q hq
      obtain rfl : p = q := Option.some.inj (hu.present.symm.trans hq)
      apply hpart.later hadv₂.grows (hadv₂.others program hnew)
      intro inc hinc
      exact hadv₂.others _ (hl.includes_not_mem hq inc hinc)
    · intro i hi q hq user hm
      rcases List.mem_cons.1 hi with rfl | hi
      · obtain rfl : p = q := Option.some.inj (hu.present.symm.trans hq)
        refine (husers user hm).mono hadv₂.grows ?_
        rw [hadv₂.others i hnew]
      · exact hothers i hi q hq user hm

end Parts

end ThriftIdl.Linking
