import Mathlib.Data.Fintype.Card
import Mathlib.Data.Fintype.EquivFin
import Mathlib.Data.Fintype.Sets
import Mathlib.Order.WellFounded
import ThriftIdl.Proofs.DeclaredNames
import ThriftIdl.Proofs.TypedefRounds

namespace ThriftIdl.Linking

open TypeExpr (Known)

/-- A program whose enums and records have their symbols, and whose typedefs have none yet. It
includes other programs only. -/
structure Indexed (st : LinkState) (program : ProgramId) (p : Program) : Prop where
  wellFormed : st.WellFormed
  present : st.programs[program]? = some p
  wellNamed : nameFault? [] (definitions p.document) = none
  own : ∀ name, (p.typeSymbol name).isSome ↔ name ∈ (userTypes p.document).map Prod.fst
  others : ∀ inc ∈ p.includes, inc.target ≠ program

/-- No typedef has a name that the program sees through its includes. -/
def Unhidden (st : LinkState) (p : Program) : Prop :=
  ∀ decl ∈ p.document.typedefs, includedSymbol Program.typeSymbol st.programs p decl.name = none

theorem indexed_of_typedefs {document : Document}
    (hn : nameFault? [] (definitions document) = none) (hu : userTypes document = []) :
    Indexed (.ofPrograms [.ofDocument .here document]) 0 (.ofDocument .here document) := by
  refine ⟨LinkState.wellFormed_ofPrograms (by simp [Program.ofDocument]), rfl, hn, ?_, ?_⟩
  · intro name
    simp [Program.ofDocument, Program.typeSymbol, hu]
  · intro inc hinc
    simp [Program.ofDocument] at hinc

def Mentions (decls : List TypedefDecl) (decl other : TypedefDecl) : Prop :=
  decl ∈ decls ∧ other ∈ decls ∧ other.name ∈ decl.target.names

structure Resolvable (lookup : String → Option TypeId) (decls : List TypedefDecl) : Prop where
  noVoid : ∀ decl ∈ decls, "void" ∉ decl.target.names
  known : ∀ decl ∈ decls, ∀ name ∈ decl.target.names,
    Known lookup name ∨ name ∈ decls.map (·.name)
  acyclic : ∀ decl, ¬ Relation.TransGen (Mentions decls) decl decl

structure AllSettled (start : LinkState) (program : ProgramId) (decls : List TypedefDecl)
    (resolved : List ResolvedTypedef) (settled : List SettledTypedef) (final : LinkState) :
    Prop where
  defines : start.Defines program (symbolsOf settled) final
  sequence : Settled final.types program (start.lookupType program) settled
  aligned : List.Forall₂ (fun decl r => (decl, r) ∈ settled) decls resolved
  declared : ∀ s ∈ settled, s.1 ∈ decls
  order : settledNames settled = settleOrder (Known (start.lookupType program)) decls

section Runs

variable {st final : LinkState} {program : ProgramId} {p : Program} {decls : List TypedefDecl}
  {entries : List TypedefEntry} {resolved : List ResolvedTypedef} {settled : List SettledTypedef}

theorem Indexed.progress (h : Indexed st program p) :
    Progress st program (p.document.typedefs.map (·, none)) [] st := by
  refine ⟨.refl h.wellFormed, .nil, ?_, ?_⟩
  · simp
  · rw [List.map_map]
    exact typedefs_nodup h.wellNamed

theorem Indexed.rounds_end (h : Indexed st program p) :
    RoundsEnd st program p.locate p.document.typedefs
      (exec (typedefRounds program p.locate (p.document.typedefs.map (·, none))) st) := by
  have hsame : (p.document.typedefs.map fun decl => ((decl, none) : TypedefEntry)).map Prod.fst =
      p.document.typedefs := by
    rw [List.map_map]
    exact List.map_id _
  exact typedefRounds_end h.present h.others h.progress hsame (Nat.le_refl 0) rfl

theorem Indexed.defineTypedefs_end (h : Indexed st program p) : ∃ result final,
    RoundsEnd st program p.locate p.document.typedefs (result, final) ∧
      exec (defineTypedefs program) st =
        (result.map fun entries => entries.filterMap (·.2), final) := by
  have hr := h.rounds_end
  unfold defineTypedefs
  rw [exec_bind_of_ok (exec_get st), h.present]
  dsimp only
  rw [exec_bind]
  rcases hrun : exec (typedefRounds program p.locate (p.document.typedefs.map (·, none))) st with
    ⟨_ | _, final⟩
  · rw [hrun] at hr
    exact ⟨_, final, hr, rfl⟩
  · rw [hrun] at hr
    exact ⟨_, final, hr, rfl⟩

theorem forall₂_resolved (hp : pending entries = []) (hm : ∀ e ∈ entries, ∀ r, e.2 = some r →
    (e.1, r) ∈ settled) :
    List.Forall₂ (fun decl r => (decl, r) ∈ settled) (entries.map Prod.fst)
      (entries.filterMap (·.2)) := by
  induction entries with
  | nil => exact .nil
  | cons entry entries ih =>
    obtain ⟨decl, _ | r⟩ := entry
    · exact absurd List.mem_cons_self (pending_eq_nil_iff.1 hp decl)
    · have hp' : pending entries = [] := hp
      refine .cons ?_ (ih hp' fun e he => hm e (List.mem_cons_of_mem _ he))
      exact hm _ List.mem_cons_self r rfl

theorem allSettled_of_done (h : Progress st program entries settled final)
    (same : entries.map Prod.fst = decls) (hp : pending entries = [])
    (order : settledNames settled = settleOrder (Known (st.lookupType program)) decls) :
    AllSettled st program decls (entries.filterMap (·.2)) settled final := by
  refine ⟨h.defines, h.sequence, ?_, ?_, order⟩
  · rw [← same]
    apply forall₂_resolved hp
    rintro ⟨decl, _⟩ he r rfl
    exact (h.recorded decl r).1 he
  · rintro ⟨decl, r⟩ hs
    rw [← same]
    exact List.mem_map_of_mem ((h.recorded decl r).2 hs)

theorem defineTypedefs_settled (h : Indexed st program p)
    (he : exec (defineTypedefs program) st = (.ok resolved, final)) :
    ∃ settled, AllSettled st program p.document.typedefs resolved settled final := by
  obtain ⟨result, final', hr, hrun⟩ := h.defineTypedefs_end
  rw [hrun] at he
  cases hr with
  | void hm hv => simp [Except.map] at he
  | stuck hpr same hp waits => simp [Except.map] at he
  | @done _ entries settled hpr same hp order =>
    obtain ⟨rfl, rfl⟩ : entries.filterMap (·.2) = resolved ∧ final' = final := by
      simpa [Except.map] using he
    exact ⟨settled, allSettled_of_done hpr same hp order⟩

end Runs

section Acyclic

variable {decls pending : List TypedefDecl}

theorem exists_not_mentions (hac : ∀ decl, ¬ Relation.TransGen (Mentions decls) decl decl)
    (hsub : ∀ decl ∈ pending, decl ∈ decls) (hne : pending ≠ []) :
    ∃ decl ∈ pending, ∀ other ∈ pending, ¬ Mentions decls decl other := by
  let below (a b : {decl // decl ∈ decls}) : Prop := Relation.TransGen (Mentions decls) b.1 a.1
  have htrans : IsTrans _ below := ⟨fun a b c hab hbc => hbc.trans hab⟩
  have hirrefl : Std.Irrefl below := ⟨fun a => hac a.1⟩
  have hfin : Finite {decl // decl ∈ decls} := Finite.of_fintype _
  have hwf : WellFounded below := Finite.wellFounded_of_trans_of_irrefl below
  obtain ⟨first, hfirst⟩ := List.exists_mem_of_ne_nil pending hne
  obtain ⟨decl, hd, hmin⟩ :=
    hwf.has_min {decl | decl.1 ∈ pending} ⟨⟨first, hsub first hfirst⟩, hfirst⟩
  refine ⟨decl.1, hd, ?_⟩
  intro other ho hm
  exact hmin ⟨other, hsub other ho⟩ ho (.single hm)

end Acyclic

section Complete

variable {st final : LinkState} {program : ProgramId} {p : Program} {entries : List TypedefEntry}
  {settled : List SettledTypedef}

theorem Progress.mem_pending_iff {decls : List TypedefDecl}
    (h : Progress st program entries settled final) (same : entries.map Prod.fst = decls)
    {decl : TypedefDecl} :
    decl ∈ pending entries ↔ decl ∈ decls ∧ decl.name ∉ settledNames settled := by
  rw [mem_pending, ← same]
  constructor
  · intro he
    exact ⟨List.mem_map_of_mem he, h.fresh he⟩
  · rintro ⟨hm, hn⟩
    obtain ⟨⟨decl, _ | r⟩, he, rfl⟩ := List.mem_map.1 hm
    · exact he
    · exact absurd (mem_settledNames.2 ⟨_, (h.recorded decl r).1 he, rfl⟩) hn

theorem not_stuck {decls : List TypedefDecl} (hr : Resolvable (st.lookupType program) decls)
    (h : Progress st program entries settled final) (same : entries.map Prod.fst = decls)
    (hp : pending entries ≠ []) (waits : ∀ decl ∈ pending entries, ∃ name ∈ decl.target.names,
      ¬ Known (lookupAfter (st.lookupType program) settled) name) : False := by
  have hsub : ∀ decl ∈ pending entries, decl ∈ decls :=
    fun decl hm => ((h.mem_pending_iff same).1 hm).1
  obtain ⟨decl, hm, hnone⟩ := exists_not_mentions hr.acyclic hsub hp
  obtain ⟨name, hn, hk⟩ := waits decl hm
  rw [known_lookupAfter, not_or] at hk
  have hdecl : name ∈ decls.map (·.name) := (hr.known decl (hsub decl hm) name hn).resolve_left hk.1
  obtain ⟨other, ho, rfl⟩ := List.mem_map.1 hdecl
  exact hnone other ((h.mem_pending_iff same).2 ⟨ho, hk.2⟩) ⟨hsub decl hm, ho, hn⟩

theorem defineTypedefs_complete (h : Indexed st program p)
    (hr : Resolvable (st.lookupType program) p.document.typedefs) :
    ∃ resolved final, exec (defineTypedefs program) st = (.ok resolved, final) := by
  obtain ⟨result, final, hr', hrun⟩ := h.defineTypedefs_end
  rw [hrun]
  cases hr' with
  | void hm hv => exact absurd hv (hr.noVoid _ hm)
  | stuck hpr same hp waits => exact (not_stuck hr hpr same hp fun d hm => (waits d hm).2).elim
  | done hpr same hp order => exact ⟨_, _, rfl⟩

end Complete

end ThriftIdl.Linking
