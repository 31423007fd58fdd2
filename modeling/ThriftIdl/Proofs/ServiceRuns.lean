import ThriftIdl.Proofs.ServiceSymbols

namespace ThriftIdl.Linking

open Relation (TransGen)

/-- Linking of everything in a program but its services. -/
def linkTypes (program : ProgramId) (p : Program) :
    Linking (List EnumType × List Typedef × List Record) := do
  defineUserTypes program
  let resolved ← defineTypedefs program
  let enums ← p.document.enums.mapM (linkEnum program p)
  let typedefs := p.document.typedefs.zipWith (linkTypedef p) resolved
  let records ← p.document.records.mapM (linkRecord program p)
  return (enums, typedefs, records)

section Part

variable {st mid st' : LinkState} {programs : List Program} {done order : List ProgramId}
  {program : ProgramId} {p : Program} {first : ServiceId} {part : SchemaPart}
  {parts : List SchemaPart}

theorem exec_linkPart (hp : st.programs[program]? = some p) (first : ServiceId) :
    exec (linkPart first program) st = exec (do
      let (enums, typedefs, records) ← linkTypes program p
      let services ← linkServices program p first
      return ⟨enums, typedefs, records, services⟩) st := by
  unfold linkPart linkTypes
  rw [exec_bind_of_ok (exec_get st), hp]
  simp only [bind_assoc, pure_bind]

theorem linkTypes_ok {types : List EnumType × List Typedef × List Record} (hst : st.WellFormed)
    (hu : Unlinked st.programs program p) (h : exec (linkTypes program p) st = (.ok types, mid)) :
    mid.WellFormed ∧ nameFault? [] (definitions p.document) = none ∧
      ∃ added, mid.programs = st.programs.modify program (·.withTypes added) := by
  unfold linkTypes at h
  obtain ⟨_, start, h₁, h⟩ := exec_bind_ok_iff.1 h
  obtain ⟨resolved, st₂, h₂, h⟩ := exec_bind_ok_iff.1 h
  obtain ⟨enums, st₃, h₃, h⟩ := exec_bind_ok_iff.1 h
  obtain ⟨records, st₄, h₄, h⟩ := exec_bind_ok_iff.1 h
  obtain ⟨-, rfl⟩ := exec_pure_ok_iff.1 h
  obtain ⟨own, hd, hn, hi⟩ := defineUserTypes_indexed hst hu h₁
  obtain ⟨settled, ha⟩ := defineTypedefs_settled hi h₂
  obtain ⟨hk₃, -⟩ := mapM_enums_ok ha.defines.wellFormed h₃
  obtain ⟨hk₄, -⟩ := mapM_records_ok hk₃.wellFormed h₄
  have hsame₃ : SamePrograms st₂ st₃ := (Within.mapM linkEnum_within).of_ok h₃
  have hsame₄ : SamePrograms st₃ st₄ :=
    (Within.mapM (linkRecord_within (resolve_within program))).of_ok h₄
  refine ⟨hk₄.wellFormed, hi.wellNamed, symbolsOf settled ++ own, ?_⟩
  rw [show st₄.programs = st₂.programs from hsame₄.trans hsame₃]
  exact (hd.trans ha.defines).programs

theorem ServicesReady.of_indexed {types : List EnumType × List Typedef × List Record}
    (hst : st.WellFormed) (hu : Unlinked st.programs program p)
    (hi : ServicesIndexed ⟨programs, done⟩ st) (hnew : program ∉ done)
    (h : exec (linkTypes program p) st = (.ok types, mid)) :
    ServicesReady mid program p (⟨programs, done⟩ : LoadedPrograms).serviceCount := by
  obtain ⟨-, hn, added, hprograms⟩ := linkTypes_ok hst hu h
  refine ⟨?_, ?_, hu.others, ?_⟩
  · have hnil : p.services = [] := hi.services_eq_nil hu.present hnew
    refine ⟨p.withTypes added, ?_, rfl, hnil⟩
    rw [hprograms, List.getElem?_modify_eq, hu.present]
    rfl
  · have hnd := declared_nodup hn
    exact (List.nodup_append.1 (List.nodup_append.1 hnd).2.1).2.1
  · intro inc hinc q hq name id hs
    rw [hprograms, List.getElem?_modify_ne _ _ (hu.others inc hinc).symm] at hq
    exact ((hi.symbols inc.target q hq name id).1 hs).lt_count

theorem servicesIndexed_define {added : List (String × TypeId)}
    (hp : st.programs[program]? = some p) (hsource : programs[program]? = some p)
    (hi : ServicesIndexed ⟨programs, done⟩ st) (hnew : program ∉ done)
    (hnd : (p.document.services.map (·.name)).Nodup)
    (hmid : mid.programs = st.programs.modify program (·.withTypes added))
    (h : st'.programs = (mid.defineServices program
      (⟨programs, done⟩ : LoadedPrograms).serviceCount p.document.services).programs) :
    ServicesIndexed ⟨programs, done ++ [program]⟩ st' := by
  have hother (i : ProgramId) (hne : i ≠ program) : st'.programs[i]? = st.programs[i]? := by
    rw [h, defineServices_others hne, hmid, List.getElem?_modify_ne _ _ hne.symm]
  have hown : st'.programs[program]? = some { p.withTypes added with
      services := serviceSymbols (⟨programs, done⟩ : LoadedPrograms).serviceCount
        p.document.services ++ p.services } := by
    rw [h]
    unfold LinkState.defineServices
    rw [List.getElem?_modify_eq, hmid, List.getElem?_modify_eq, hp]
    rfl
  refine ⟨?_, ?_⟩
  · intro i
    by_cases hne : i = program
    · subst hne
      rw [hown]
      dsimp only
      rw [hsource]
      rfl
    · rw [hother i hne]
      exact hi.same i
  · intro i q hq name j
    by_cases hne : i = program
    · subst hne
      obtain rfl := Option.some.inj (hown.symm.trans hq)
      rw [serviceAt_own hsource hnew]
      unfold Program.serviceSymbol
      rw [hi.services_eq_nil hp hnew, List.append_nil]
      exact lookup_serviceSymbols hnd
    · rw [hother i hne] at hq
      rw [hi.symbols i q hq name j]
      apply (serviceAt_append ?_).symm
      simpa using hne

theorem linkPart_services (hst : st.WellFormed) (hu : Unlinked st.programs program p)
    (hsource : programs[program]? = some p) (hi : ServicesIndexed ⟨programs, done⟩ st)
    (hnew : program ∉ done)
    (h : exec (linkPart (⟨programs, done⟩ : LoadedPrograms).serviceCount program) st =
      (.ok part, st')) :
    ServicesLinked st' program p (⟨programs, done⟩ : LoadedPrograms).serviceCount part.services ∧
      ServicesIndexed ⟨programs, done ++ [program]⟩ st' := by
  rw [exec_linkPart hu.present] at h
  obtain ⟨types, mid, h₁, h⟩ := exec_bind_ok_iff.1 h
  obtain ⟨services, st₂, h₂, h⟩ := exec_bind_ok_iff.1 h
  obtain ⟨rfl, rfl⟩ := exec_pure_ok_iff.1 h
  have hready := ServicesReady.of_indexed hst hu hi hnew h₁
  obtain ⟨hmid, -, added, hprograms⟩ := linkTypes_ok hst hu h₁
  refine ⟨linkServices_linked hmid hready h₂, ?_⟩
  exact servicesIndexed_define hu.present hsource hi hnew hready.distinct hprograms
    (linkServices_programs h₂)

theorem ServicesLinked.later {services : List Service} {final : LinkState}
    (h : ServicesLinked st program p first services)
    (hl : final.lookupService program = st.lookupService program) :
    ServicesLinked final program p first services := by
  refine ⟨h.ids, ?_, ?_, h.within, h.acyclic⟩
  · rw [h.bases]
    unfold basesIn
    rw [hl]
  · unfold BaseFound
    rw [hl]
    exact h.found

theorem ServicesLinked.length_eq {services : List Service}
    (h : ServicesLinked st program p first services) :
    services.length = p.document.services.length := by
  have hids := congrArg List.length h.ids
  rwa [List.length_map, List.length_range'] at hids

theorem serviceCount_snoc (hp : programs[program]? = some p) :
    (⟨programs, done ++ [program]⟩ : LoadedPrograms).serviceCount =
      (⟨programs, done⟩ : LoadedPrograms).serviceCount + p.document.services.length := by
  unfold LoadedPrograms.serviceCount
  rw [declared_append, declared_one _ hp, List.length_append, List.length_map]

theorem lookupService_of_same {final : LinkState} (hp : st.programs[program]? = some p)
    (hsame : final.programs[program]? = st.programs[program]?)
    (hinc : ∀ inc ∈ p.includes, final.programs[inc.target]? = st.programs[inc.target]?) :
    final.lookupService program = st.lookupService program := by
  funext name
  unfold LinkState.lookupService
  rw [lookupService_eq hp, lookupService_eq (hsame.trans hp), includedSymbol_of_same rfl hinc]

theorem linkParts_services (hl : Linkable programs order) (hst : st.WellFormed)
    (hsame : ∀ i ∈ order, st.programs[i]? = programs[i]?)
    (hi : ServicesIndexed ⟨programs, done⟩ st) (hnew : ∀ i ∈ order, i ∉ done)
    (h : exec (linkParts (⟨programs, done⟩ : LoadedPrograms).serviceCount order) st =
      (.ok parts, st')) :
    ServicesIndexed ⟨programs, done ++ order⟩ st' ∧
      List.Forall₂ (fun i part => ∀ p, programs[i]? = some p →
        ∃ first, ServicesLinked st' i p first part.services) order parts ∧
      (parts.flatMap SchemaPart.services).map (·.id) = List.range'
        (⟨programs, done⟩ : LoadedPrograms).serviceCount
        (parts.flatMap SchemaPart.services).length ∧
      (⟨programs, done ++ order⟩ : LoadedPrograms).serviceCount =
        (⟨programs, done⟩ : LoadedPrograms).serviceCount +
          (parts.flatMap SchemaPart.services).length := by
  induction order generalizing st done parts with
  | nil =>
    obtain ⟨rfl, rfl⟩ := exec_pure_ok_iff.1 h
    rw [List.append_nil]
    exact ⟨hi, .nil, rfl, rfl⟩
  | cons program order ih =>
    have happ : Linkable programs ([program] ++ order) := hl
    have hfresh : program ∉ order := happ.not_mem_rest List.mem_cons_self
    obtain ⟨p, hu⟩ := hl.unlinked program List.mem_cons_self
    have hp := hsame program List.mem_cons_self
    obtain ⟨part, st₁, h₁, h⟩ := exec_bind_ok_iff.1 h
    obtain ⟨others, st₂, h₂, h⟩ := exec_bind_ok_iff.1 h
    obtain ⟨rfl, rfl⟩ := exec_pure_ok_iff.1 h
    have hu₁ : Unlinked st.programs program p := ⟨hp.trans hu.present, hu.fresh, hu.others⟩
    obtain ⟨hadv₁, -, -⟩ := linkPart_ok hst hu₁ h₁
    obtain ⟨hservices, hi₁⟩ :=
      linkPart_services hst hu₁ hu.present hi (hnew program List.mem_cons_self) h₁
    have hsame₁ := happ.unchanged hadv₁ hsame
    have hnew₁ : ∀ i ∈ order, i ∉ done ++ [program] := by
      intro i him
      rw [List.mem_append, not_or]
      exact ⟨hnew i (List.mem_cons_of_mem _ him), happ.not_mem_done him⟩
    have hcount : (⟨programs, done ++ [program]⟩ : LoadedPrograms).serviceCount =
        (⟨programs, done⟩ : LoadedPrograms).serviceCount + part.services.length := by
      rw [serviceCount_snoc hu.present, hservices.length_eq]
    rw [← hcount] at h₂
    obtain ⟨hi₂, hparts, hids, hcounts⟩ :=
      ih happ.of_append_right hadv₁.wellFormed hsame₁ hi₁ hnew₁ h₂
    obtain ⟨hadv₂, -, -⟩ := linkParts_ok happ.of_append_right hadv₁.wellFormed hsame₁ h₂
    rw [List.append_assoc, List.singleton_append] at hi₂ hcounts
    refine ⟨hi₂, .cons ?_ hparts, ?_, ?_⟩
    · intro q hq
      obtain rfl : p = q := Option.some.inj (hu.present.symm.trans hq)
      obtain ⟨q, hq, hsource⟩ := hi₁.exists_source hu.present
      have hincludes : q.includes = p.includes := congrArg (·.2.2) hsource
      refine ⟨_, hservices.later (lookupService_of_same hq (hadv₂.others program hfresh) ?_)⟩
      intro inc hinc
      exact hadv₂.others _ (hl.includes_not_mem hu.present inc (hincludes ▸ hinc))
    · rw [List.flatMap_cons, List.map_append, hservices.ids, hids, List.length_append,
        ← hservices.length_eq, hcount, List.range'_append_1]
    · rw [hcounts, hcount, List.flatMap_cons, List.length_append, Nat.add_assoc]

theorem linkParts_error (after : List ProgramId) {e : LoadError} {final : LinkState}
    (h : exec (linkParts first order) st = (.ok parts, mid))
    (he : exec (linkPart (first + (parts.flatMap SchemaPart.services).length) program) mid =
      (.error e, final)) :
    exec (linkParts first (order ++ program :: after)) st = (.error e, final) := by
  induction order generalizing st first parts with
  | nil =>
    obtain ⟨rfl, rfl⟩ := exec_pure_ok_iff.1 h
    exact exec_bind_of_error he
  | cons next order ih =>
    obtain ⟨part, st₁, h₁, h⟩ := exec_bind_ok_iff.1 h
    obtain ⟨others, st₂, h₂, h⟩ := exec_bind_ok_iff.1 h
    obtain ⟨rfl, rfl⟩ := exec_pure_ok_iff.1 h
    rw [List.flatMap_cons, List.length_append, ← Nat.add_assoc] at he
    rw [List.cons_append, linkParts, exec_bind_of_ok h₁]
    exact exec_bind_of_error (ih h₂ he)

theorem linkParts_append_iff {after : List ProgramId} {final : LinkState} :
    exec (linkParts first (order ++ after)) st = (.ok parts, final) ↔
      ∃ parts₁ mid parts₂, exec (linkParts first order) st = (.ok parts₁, mid) ∧
        exec (linkParts (first + (parts₁.flatMap SchemaPart.services).length) after) mid =
          (.ok parts₂, final) ∧ parts = parts₁ ++ parts₂ := by
  induction order generalizing st first parts with
  | nil =>
    constructor
    · intro h
      exact ⟨[], st, parts, rfl, h, rfl⟩
    · rintro ⟨parts₁, mid, parts₂, h₁, h₂, rfl⟩
      obtain ⟨rfl, rfl⟩ := exec_pure_ok_iff.1 h₁
      exact h₂
  | cons next order ih =>
    rw [List.cons_append, linkParts, linkParts]
    constructor
    · intro h
      obtain ⟨part, st₁, h₁, h⟩ := exec_bind_ok_iff.1 h
      obtain ⟨others, st₂, h₂, h⟩ := exec_bind_ok_iff.1 h
      obtain ⟨rfl, rfl⟩ := exec_pure_ok_iff.1 h
      obtain ⟨parts₁, mid, parts₂, hbefore, hafter, rfl⟩ := ih.1 h₂
      refine ⟨part :: parts₁, mid, parts₂, ?_, ?_, rfl⟩
      · rw [exec_bind_of_ok h₁, exec_bind_of_ok hbefore]
        rfl
      · rw [List.flatMap_cons, List.length_append, ← Nat.add_assoc]
        exact hafter
    · rintro ⟨parts₁, mid, parts₂, h, hafter, rfl⟩
      obtain ⟨part, st₁, h₁, h⟩ := exec_bind_ok_iff.1 h
      obtain ⟨others, st₂, h₂, h⟩ := exec_bind_ok_iff.1 h
      obtain ⟨rfl, rfl⟩ := exec_pure_ok_iff.1 h
      rw [List.flatMap_cons, List.length_append, ← Nat.add_assoc] at hafter
      rw [exec_bind_of_ok h₁, exec_bind_of_ok (ih.2 ⟨others, _, parts₂, h₂, hafter, rfl⟩)]
      rfl

end Part

end ThriftIdl.Linking
