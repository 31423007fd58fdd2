import ThriftIdl.Proofs.SchemaContents
import ThriftIdl.Proofs.ServiceInheritance

namespace ThriftIdl

open Linking (ServicesReady ServicesLinked BaseFound Unlinked Linkable)

/-- Linking a program never changes what was read of it. -/
def Program.source (p : Program) : Path × Document × List Include :=
  (p.path, p.document, p.includes)

namespace LoadedPrograms

def serviceCount (loaded : LoadedPrograms) : Nat := (loaded.declared Document.services).length

/-- Among all services a program's own one with this name has this place. -/
def ServiceAt (loaded : LoadedPrograms) (i : ProgramId) (name : String) (j : ServiceId) : Prop :=
  ∃ s, (loaded.declared Document.services)[j]? = some s ∧ s.id = i ∧ s.decl.name = name

/-- What a name, plain or qualified, stands for in a program that is included. -/
def OffersService (loaded : LoadedPrograms) (i : ProgramId) (name : String) (j : ServiceId) :
    Prop :=
  loaded.ServiceAt i name j ∨ (∀ k, ¬ loaded.ServiceAt i name k) ∧
    ∃ q own, loaded.programs[i]? = some q ∧ q.unqualified? name = some own ∧
      loaded.ServiceAt i own j

/-- A name stands for a program's own service, or else for that of the first include that has
it. -/
def NamesService (loaded : LoadedPrograms) (i : ProgramId) (name : String) (j : ServiceId) : Prop :=
  loaded.ServiceAt i name j ∨ (∀ k, ¬ loaded.ServiceAt i name k) ∧
    ∃ p before inc after, loaded.programs[i]? = some p ∧ p.includes = before ++ inc :: after ∧
      loaded.OffersService inc.target name j ∧
      ∀ earlier ∈ before, ∀ k, ¬ loaded.OffersService earlier.target name k

end LoadedPrograms

/-- The service symbols of a state are those of the programs in the order. -/
structure ServicesIndexed (loaded : LoadedPrograms) (st : LinkState) : Prop where
  same : ∀ i : ProgramId, st.programs[i]?.map Program.source = loaded.programs[i]?.map Program.source
  symbols : ∀ (i : ProgramId) q, st.programs[i]? = some q → ∀ name j, q.serviceSymbol name = some j ↔
    loaded.ServiceAt i name j

section Places

variable {programs : List Program} {done order : List ProgramId} {program i : ProgramId}
  {p : Program} {name : String} {j : ServiceId} {loaded : LoadedPrograms}

theorem declared_append {α : Type} (kind : Document → List α) (done order : List ProgramId) :
    (⟨programs, done ++ order⟩ : LoadedPrograms).declared kind =
      (⟨programs, done⟩ : LoadedPrograms).declared kind ++
        (⟨programs, order⟩ : LoadedPrograms).declared kind :=
  List.flatMap_append

theorem declared_one {α : Type} (kind : Document → List α) (hp : programs[program]? = some p) :
    (⟨programs, [program]⟩ : LoadedPrograms).declared kind =
      (kind p.document).map (⟨program, p, ·⟩) := by
  unfold LoadedPrograms.declared
  rw [List.flatMap_singleton]
  dsimp only
  rw [hp, Option.toList_some, List.flatMap_singleton]

theorem mem_declared_iff {α : Type} {kind : Document → List α} {s : Placed α} :
    s ∈ loaded.declared kind ↔ s.id ∈ loaded.order ∧ loaded.programs[s.id]? = some s.program ∧
      s.decl ∈ kind s.program.document := by
  unfold LoadedPrograms.declared
  simp only [List.mem_flatMap, List.mem_map, Option.mem_toList]
  constructor
  · rintro ⟨i, hi, p, hp, decl, hdecl, rfl⟩
    exact ⟨hi, hp, hdecl⟩
  · rintro ⟨hi, hp, hdecl⟩
    exact ⟨s.id, hi, s.program, hp, s.decl, hdecl, rfl⟩

theorem id_mem_of_declared {α : Type} {kind : Document → List α} {s : Placed α}
    (h : s ∈ loaded.declared kind) : s.id ∈ loaded.order :=
  (mem_declared_iff.1 h).1

namespace LoadedPrograms.ServiceAt

theorem mem (h : loaded.ServiceAt i name j) : i ∈ loaded.order := by
  obtain ⟨s, hs, rfl, -⟩ := h
  exact id_mem_of_declared (List.mem_of_getElem? hs)

theorem lt_count (h : loaded.ServiceAt i name j) : j < loaded.serviceCount := by
  obtain ⟨s, hs, -⟩ := h
  exact (List.getElem?_eq_some_iff.1 hs).1

end LoadedPrograms.ServiceAt

theorem serviceAt_append (hdone : i ∉ order) :
    (⟨programs, done ++ order⟩ : LoadedPrograms).ServiceAt i name j ↔
      (⟨programs, done⟩ : LoadedPrograms).ServiceAt i name j := by
  unfold LoadedPrograms.ServiceAt
  rw [declared_append]
  constructor
  · rintro ⟨s, hs, rfl, hname⟩
    rw [List.getElem?_append] at hs
    split at hs
    · exact ⟨s, hs, rfl, hname⟩
    · exact absurd (id_mem_of_declared (List.mem_of_getElem? hs)) hdone
  · rintro ⟨s, hs, rfl, hname⟩
    refine ⟨s, ?_, rfl, hname⟩
    rw [List.getElem?_append_left (List.getElem?_eq_some_iff.1 hs).1]
    exact hs

theorem serviceAt_own (hp : programs[program]? = some p) (hnew : program ∉ done) :
    (⟨programs, done ++ [program]⟩ : LoadedPrograms).ServiceAt program name j ↔
      ∃ k decl, p.document.services[k]? = some decl ∧ decl.name = name ∧
        (⟨programs, done⟩ : LoadedPrograms).serviceCount + k = j := by
  unfold LoadedPrograms.ServiceAt LoadedPrograms.serviceCount
  rw [declared_append, declared_one Document.services hp]
  constructor
  · rintro ⟨s, hs, hid, hname⟩
    rw [List.getElem?_append] at hs
    split at hs
    · have hm := id_mem_of_declared (List.mem_of_getElem? hs)
      rw [hid] at hm
      exact absurd hm hnew
    · next hle =>
      rw [List.getElem?_map] at hs
      obtain ⟨decl, hdecl, rfl⟩ := Option.map_eq_some_iff.1 hs
      exact ⟨_, decl, hdecl, hname, Nat.add_sub_cancel' (Nat.le_of_not_lt hle)⟩
  · rintro ⟨k, decl, hdecl, hname, rfl⟩
    refine ⟨⟨program, p, decl⟩, ?_, rfl, hname⟩
    rw [List.getElem?_append_right (Nat.le_add_right _ _), Nat.add_sub_cancel_left,
      List.getElem?_map, hdecl]
    rfl

end Places

namespace ServicesIndexed

variable {loaded : LoadedPrograms} {st st' : LinkState} {i : ProgramId} {q : Program}
  {name : String} {j : ServiceId}

theorem serviceSymbol_eq_none (h : ServicesIndexed loaded st) (hq : st.programs[i]? = some q)
    (hnone : ∀ k, ¬ loaded.ServiceAt i name k) : q.serviceSymbol name = none := by
  cases hs : q.serviceSymbol name with
  | none => rfl
  | some k => exact absurd ((h.symbols i q hq name k).1 hs) (hnone k)

theorem services_eq_nil (h : ServicesIndexed loaded st) (hq : st.programs[i]? = some q)
    (hi : i ∉ loaded.order) : q.services = [] := by
  cases hs : q.services with
  | nil => rfl
  | cons symbol rest =>
    have hnone : q.serviceSymbol symbol.1 = none :=
      h.serviceSymbol_eq_none hq fun k hk => hi hk.mem
    unfold Program.serviceSymbol at hnone
    simp [hs] at hnone

theorem source_eq (h : ServicesIndexed loaded st) (hq : st.programs[i]? = some q) :
    ∃ p, loaded.programs[i]? = some p ∧ p.source = q.source := by
  have hs := h.same i
  rw [hq, Option.map_some] at hs
  exact Option.map_eq_some_iff.1 hs.symm

theorem exists_source {p : Program} (h : ServicesIndexed loaded st)
    (hp : loaded.programs[i]? = some p) : ∃ q, st.programs[i]? = some q ∧ q.source = p.source := by
  have hs := h.same i
  rw [hp, Option.map_some] at hs
  exact Option.map_eq_some_iff.1 hs

theorem includes_eq {p : Program} (h : ServicesIndexed loaded st)
    (hp : loaded.programs[i]? = some p) (hq : st.programs[i]? = some q) :
    q.includes = p.includes := by
  obtain ⟨q', hq', hsource⟩ := h.exists_source hp
  obtain rfl := Option.some.inj (hq'.symm.trans hq)
  exact congrArg (·.2.2) hsource

theorem present (h : ServicesIndexed loaded st) (hi : loaded.ServiceAt i name j) :
    ∃ q, st.programs[i]? = some q := by
  obtain ⟨s, hs, rfl, -⟩ := hi
  obtain ⟨-, hp, -⟩ := mem_declared_iff.1 (List.mem_of_getElem? hs)
  obtain ⟨q, hq, -⟩ := h.exists_source hp
  exact ⟨q, hq⟩

theorem offered_iff (h : ServicesIndexed loaded st) :
    (st.programs[i]?.bind fun q =>
      q.serviceSymbol name <|> (q.unqualified? name).bind q.serviceSymbol) = some j ↔
      loaded.OffersService i name j := by
  cases hq : st.programs[i]? with
  | none =>
    have hnone (name : String) (k : ServiceId) : ¬ loaded.ServiceAt i name k := by
      intro hk
      obtain ⟨q, hq'⟩ := h.present hk
      simp [hq] at hq'
    simp [LoadedPrograms.OffersService, hnone]
  | some q =>
    obtain ⟨p, hp, hsource⟩ := h.source_eq hq
    have hstem : p.unqualified? = q.unqualified? := by
      have hpath : p.path = q.path := congrArg Prod.fst hsource
      funext name
      simp [Program.unqualified?, Program.name, hpath]
    rw [Option.bind_some, Option.orElse_eq_orElse, Option.orElse_eq_or, Option.or_eq_some_iff,
      h.symbols i q hq]
    unfold LoadedPrograms.OffersService
    apply or_congr_right
    constructor
    · rintro ⟨hnone, hs⟩
      obtain ⟨own, hown, hs⟩ := Option.bind_eq_some_iff.1 hs
      refine ⟨?_, p, own, hp, by rw [hstem, hown], (h.symbols i q hq own j).1 hs⟩
      intro k hk
      rw [(h.symbols i q hq name k).2 hk] at hnone
      cases hnone
    · rintro ⟨hnone, p', own, hp', hown, hs⟩
      obtain rfl : p = p' := Option.some.inj (hp.symm.trans hp')
      refine ⟨h.serviceSymbol_eq_none hq hnone, ?_⟩
      rw [← hstem, hown]
      exact (h.symbols i q hq own j).2 hs

theorem included_iff (h : ServicesIndexed loaded st) :
    includedSymbol Program.serviceSymbol st.programs q name = some j ↔
      ∃ before inc after, q.includes = before ++ inc :: after ∧
        loaded.OffersService inc.target name j ∧
        ∀ earlier ∈ before, ∀ k, ¬ loaded.OffersService earlier.target name k := by
  unfold includedSymbol
  rw [List.findSome?_eq_some_iff]
  have hnone (inc : Include) : (st.programs[inc.target]?.bind fun q =>
      q.serviceSymbol name <|> (q.unqualified? name).bind q.serviceSymbol) = none ↔
        ∀ k, ¬ loaded.OffersService inc.target name k := by
    rw [Option.eq_none_iff_forall_ne_some]
    exact forall_congr' fun k => not_congr h.offered_iff
  simp only [h.offered_iff, hnone]

theorem lookupService_iff (h : ServicesIndexed loaded st) :
    st.lookupService i name = some j ↔ loaded.NamesService i name j := by
  unfold LinkState.lookupService LoadedPrograms.NamesService
  cases hq : st.programs[i]? with
  | none =>
    have hnone (k : ServiceId) : ¬ loaded.ServiceAt i name k := by
      intro hk
      obtain ⟨q, hq'⟩ := h.present hk
      simp [hq] at hq'
    have hp : loaded.programs[i]? = none := by
      have hs := h.same i
      rw [hq, Option.map_none] at hs
      exact Option.map_eq_none_iff.1 hs.symm
    simp [lookupService, visibleSymbol, hq, hnone, hp]
  | some q =>
    obtain ⟨p, hp, hsource⟩ := h.source_eq hq
    have hincludes : p.includes = q.includes := congrArg (·.2.2) hsource
    rw [lookupService_eq hq, Option.or_eq_some_iff, h.symbols i q hq, h.included_iff]
    apply or_congr_right
    constructor
    · rintro ⟨hnone, before, inc, after, he, hoffers, hearlier⟩
      refine ⟨?_, p, before, inc, after, hp, by rw [hincludes, he], hoffers, hearlier⟩
      intro k hk
      rw [(h.symbols i q hq name k).2 hk] at hnone
      cases hnone
    · rintro ⟨hnone, p', before, inc, after, hp', he, hoffers, hearlier⟩
      obtain rfl : p = p' := Option.some.inj (hp.symm.trans hp')
      exact ⟨h.serviceSymbol_eq_none hq hnone, before, inc, after, by rw [← hincludes, he],
        hoffers, hearlier⟩

end ServicesIndexed

end ThriftIdl
