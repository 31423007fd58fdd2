import ThriftIdl.Proofs.GuardedStates

namespace ThriftIdl

open Relation (ReflTransGen)

namespace Linking

open LinkState (Guarded GuardedAmong Interns Awaits)

/-- From a state on, a run goes by steps of one kind, and what it returns has a property. -/
structure RunsBy {α : Type} (R : LinkState → LinkState → Prop) (st : LinkState) (x : Linking α)
    (Q : α → LinkState → Prop) : Prop where
  steps : ReflTransGen R st (exec x st).2
  result : ∀ a st', exec x st = (.ok a, st') → Q a st'

section Rules

variable {α β : Type} {R R' : LinkState → LinkState → Prop} {program : ProgramId}
  {st st' : LinkState} {x : Linking α} {f : α → Linking β} {a : α} {Q : α → LinkState → Prop}
  {S : β → LinkState → Prop} {P : LoadError → Prop}

theorem RunsBy.mono (h : RunsBy R st x Q) (hr : ∀ st st', R st st' → R' st st') :
    RunsBy R' st x Q :=
  ⟨ReflTransGen.mono hr _ _ h.steps, h.result⟩

theorem RunsBy.reaches (h : RunsBy R st x Q) (hx : exec x st = (.ok a, st')) :
    ReflTransGen R st st' := by
  have hsteps := h.steps
  rwa [hx] at hsteps

theorem RunsBy.imp {Q' : α → LinkState → Prop} (h : RunsBy R st x Q)
    (hq : ∀ a st', Q a st' → Q' a st') : RunsBy R st x Q' :=
  ⟨h.steps, fun a st' hx => hq a st' (h.result a st' hx)⟩

theorem RunsBy.bind (h : RunsBy R st x Q)
    (hf : ∀ a st', exec x st = (.ok a, st') → Q a st' → RunsBy R st' (f a) S) :
    RunsBy R st (x >>= f) S := by
  have hsteps := h.steps
  rcases hx : exec x st with ⟨e | a, st'⟩
  · rw [hx] at hsteps
    have hrun : exec (x >>= f) st = (.error e, st') := exec_bind_of_error hx
    refine ⟨?_, ?_⟩
    · rw [hrun]
      exact hsteps
    · intro b st'' hb
      rw [hrun] at hb
      cases hb
  · rw [hx] at hsteps
    have hrun : exec (x >>= f) st = exec (f a) st' := exec_bind_of_ok hx
    have hrest := hf a st' hx (h.result a st' hx)
    refine ⟨?_, ?_⟩
    · rw [hrun]
      exact hsteps.trans hrest.steps
    · rw [hrun]
      exact hrest.result

theorem runsBy_pure (h : Q a st) : RunsBy R st (pure a) Q := by
  refine ⟨.refl, ?_⟩
  intro b st' hb
  obtain ⟨rfl, rfl⟩ := exec_pure_ok_iff.1 hb
  exact h

theorem runsBy_refuse (location : Location) (fault : LinkFault) :
    RunsBy R st (refuse location fault) Q :=
  ⟨.refl, nofun⟩

theorem runsBy_get {f : LinkState → Linking β} (h : RunsBy R st (f st) S) :
    RunsBy R st (get >>= f) S := by
  have hrun : exec (get >>= f) st = exec (f st) st := exec_bind_of_ok (exec_get st)
  exact ⟨hrun ▸ h.steps, hrun ▸ h.result⟩

theorem runsBy_modify {g : LinkState → LinkState} {Q : PUnit → LinkState → Prop}
    (h : ReflTransGen R st (g st)) (hq : Q ⟨⟩ (g st)) : RunsBy R st (modify g) Q := by
  refine ⟨h, ?_⟩
  rintro ⟨⟩ st' hx
  obtain ⟨-, rfl⟩ := Prod.mk.inj hx
  exact hq

theorem RunsBy.of_within (h : Within (Interns program) P x) (hst : st.WellFormed) :
    RunsBy (Guarded program) st x fun _ st' => Interns program st st' :=
  ⟨((h st).1 hst).2.2, fun _ _ hx => h.of_ok hx⟩

end Rules

section Program

variable {program : ProgramId} {document : Document} {types services : List String}
  {first : ServiceId} {st st' : LinkState} {p : Program} {locate : Position → Location}
  {location : Location} {type : TypeExpr} {id : TypeId}

theorem resolve_usable (hst : st.WellFormed)
    (h : exec (resolve program location type) st = (.ok (some id), st')) :
    st'.types.Usable id := by
  obtain ⟨g, r, hgrow, hg, hout, he⟩ := resolve_cases hst program location type
  rw [he] at h
  cases hout with
  | void => simp [Except.mapError] at h
  | unknown => simp [Except.mapError] at h
  | known hd =>
    obtain ⟨rfl, rfl⟩ : _ = id ∧ _ = st' := by simpa [Except.mapError] using h
    exact hd.usable hg fun name id hs => hgrow.usable (hst.usable hs)

theorem resolve_interns (program : ProgramId) (location : Location) (type : TypeExpr) :
    Within (Interns program) FoundInDeclaration (resolve program location type) := by
  intro st
  refine ⟨?_, (resolve_within program location type st).2⟩
  intro hst
  rw [exec_resolve]
  have hlookup : ∀ name id, st.lookupType program name = some id → st.types.Usable id :=
    fun _ _ hs => hst.usable hs
  have henlarges := type.resolve_enlarges hst.types hlookup
  refine ⟨rfl, hst.setTypes (henlarges.wellFormed hst.types) henlarges.grows, ?_⟩
  refine ReflTransGen.lift (fun g => ({ st with types := g } : LinkState)) ?_ _ _ henlarges
  rintro g _ ⟨node, hcontains, rfl⟩
  exact .intern hcontains.usable

theorem defineUsers_guarded {users : List (String × UserKind)}
    (h : st.Awaits program document (users.map Prod.fst ++ types) services first)
    (hnd : (users.map Prod.fst ++ types).Nodup) :
    ReflTransGen (Guarded program) st (users.foldl (.defineUser program) st) ∧
      (users.foldl (.defineUser program) st).Awaits program document types services first := by
  induction users generalizing st with
  | nil => exact ⟨.refl, h⟩
  | cons user users ih =>
    obtain ⟨hnew, hnd⟩ := List.nodup_cons.1 hnd
    obtain ⟨hsteps, hawaits⟩ := h.declare hnew (.inl ⟨user.2, rfl⟩)
    obtain ⟨hsteps', hawaits'⟩ := ih hawaits hnd
    exact ⟨hsteps.trans hsteps', hawaits'⟩

theorem defineUserTypes_guarded (hst : st.WellFormed) (hp : st.programs[program]? = some p)
    (htypes : p.types = []) (hservices : p.services = []) (hcount : st.serviceCount = first) :
    RunsBy (Guarded program) st (defineUserTypes program) fun _ st' =>
      nameFault? [] (definitions p.document) = none ∧ st'.Awaits program p.document
        (p.document.typedefs.map (·.name)) (p.document.services.map (·.name)) first := by
  apply runsBy_get
  rw [hp]
  dsimp only
  split
  · exact runsBy_refuse _ _
  · next hn =>
    have hawaits : st.Awaits program p.document
        ((userTypes p.document).map Prod.fst ++ p.document.typedefs.map (·.name))
        (p.document.services.map (·.name)) first := by
      refine ⟨hst, ⟨p, hp, rfl, ?_, ?_⟩, hcount⟩
      · simp [Program.typeSymbol, htypes]
      · simp [Program.serviceSymbol, hservices]
    have hnd : ((userTypes p.document).map Prod.fst ++ p.document.typedefs.map (·.name)).Nodup := by
      have hall := declared_nodup hn
      rw [← List.append_assoc] at hall
      exact List.nodup_append_comm.1 (List.nodup_append.1 hall).1
    obtain ⟨hsteps, hdone⟩ := defineUsers_guarded hawaits hnd
    exact runsBy_modify hsteps ⟨hn, hdone⟩

theorem pending_cons (entry : TypedefEntry) (entries : List TypedefEntry) :
    pending (entry :: entries) = pending [entry] ++ pending entries :=
  List.filterMap_append (l := [entry])

def pendingNames (entries : List TypedefEntry) : List String :=
  (pending entries).map (·.name)

theorem pendingNames_cons (entry : TypedefEntry) (entries : List TypedefEntry) :
    pendingNames (entry :: entries) = pendingNames [entry] ++ pendingNames entries := by
  unfold pendingNames
  rw [pending_cons, List.map_append]

theorem tryTypedef_guarded {entry : TypedefEntry}
    (h : st.Awaits program document (pendingNames [entry] ++ types) services first)
    (hnd : (pendingNames [entry] ++ types).Nodup) :
    RunsBy (Guarded program) st (tryTypedef program locate entry) fun entry' st' =>
      st'.Awaits program document (pendingNames [entry'] ++ types) services first ∧
        (pendingNames [entry']).Sublist (pendingNames [entry]) := by
  obtain ⟨decl, _ | resolved⟩ := entry
  · obtain ⟨hnew, -⟩ := List.nodup_cons.1 hnd
    refine (RunsBy.of_within (resolve_interns program (locate decl.position) decl.target)
      h.wellFormed).bind ?_
    rintro (_ | target) st' hx hi
    · exact runsBy_pure ⟨h.interns hi, List.Sublist.refl _⟩
    · have htarget := resolve_usable h.wellFormed hx
      obtain ⟨hsteps, hawaits⟩ := (h.interns hi).declare hnew (.inr ⟨target, rfl, htarget⟩)
      refine ⟨hsteps, ?_⟩
      intro entry' st'' hx'
      obtain ⟨he, rfl⟩ := Prod.mk.inj hx'
      obtain rfl := Except.ok.inj he
      exact ⟨hawaits, List.nil_sublist _⟩
  · exact runsBy_pure ⟨h, List.Sublist.refl _⟩

theorem mapM_tryTypedef_guarded {todo : List TypedefEntry}
    (h : st.Awaits program document (pendingNames todo ++ types) services first)
    (hnd : (pendingNames todo ++ types).Nodup) :
    RunsBy (Guarded program) st (todo.mapM (tryTypedef program locate)) fun todo' st' =>
      st'.Awaits program document (pendingNames todo' ++ types) services first ∧
        (pendingNames todo').Sublist (pendingNames todo) := by
  induction todo generalizing st types with
  | nil => exact runsBy_pure ⟨h, List.Sublist.refl _⟩
  | cons entry todo ih =>
    rw [pendingNames_cons, List.append_assoc] at h hnd
    rw [List.mapM_cons]
    refine (tryTypedef_guarded h hnd).bind fun entry' st₁ _ htried => ?_
    obtain ⟨hawaits, hsub⟩ := htried
    -- What is left of this entry waits while the others are tried, and the other way round.
    have hperm (names : List String) :
        (pendingNames [entry'] ++ (names ++ types)).Perm (names ++ (pendingNames [entry'] ++ types)) :=
      List.perm_append_comm_assoc _ _ _
    have hnd' := (hperm _).nodup_iff.1 ((hsub.append_right _).nodup hnd)
    refine (ih (hawaits.subset (hperm _).symm.subset) hnd').bind fun todo' st₂ _ hrest => ?_
    obtain ⟨hawaits', hsub'⟩ := hrest
    refine runsBy_pure ⟨?_, ?_⟩
    · rw [pendingNames_cons, List.append_assoc]
      exact hawaits'.subset (hperm _).subset
    · rw [pendingNames_cons, pendingNames_cons entry]
      exact hsub.append hsub'

theorem typedefRounds_guarded {entries : List TypedefEntry}
    (h : st.Awaits program document (pendingNames entries) services first)
    (hnd : (pendingNames entries).Nodup) :
    RunsBy (Guarded program) st (typedefRounds program locate entries) fun _ st' =>
      st'.Awaits program document [] services first := by
  induction hn : (pending entries).length using Nat.strongRecOn generalizing entries st with
  | ind n ih =>
    rw [typedefRounds]
    split
    · exact runsBy_pure (h.subset (List.nil_subset _))
    · rw [← List.append_nil (pendingNames entries)] at h hnd
      refine (mapM_tryTypedef_guarded h hnd).bind fun entries' st' _ hround => ?_
      obtain ⟨hawaits, hsub⟩ := hround
      rw [List.append_nil] at hawaits hnd
      split
      · next hlt => exact ih _ (hn ▸ hlt) hawaits (hsub.nodup hnd) rfl
      · exact runsBy_get (runsBy_refuse _ _)

theorem defineTypedefs_guarded
    (h : st.Awaits program document (document.typedefs.map (·.name)) services first)
    (hnd : (document.typedefs.map (·.name)).Nodup) :
    RunsBy (Guarded program) st (defineTypedefs program) fun _ st' =>
      st'.Awaits program document [] services first := by
  obtain ⟨p, hp, rfl, -⟩ := h.undefined
  have hpending : pendingNames (p.document.typedefs.map (·, none)) =
      p.document.typedefs.map (·.name) := by
    simp [pendingNames, pending, List.filterMap_map]
  apply runsBy_get
  rw [hp]
  dsimp only
  rw [← hpending] at h hnd
  exact (typedefRounds_guarded h hnd).bind fun _ _ _ hdone => runsBy_pure hdone

theorem defineServices_guarded {decls : List ServiceDecl} {k : Nat}
    (h : st.Awaits program document types (decls.map (·.name)) (first + k))
    (hnd : (decls.map (·.name)).Nodup) :
    ReflTransGen (Guarded program) st ((decls.zipIdx k).foldl
        (fun st (decl, i) => st.defineService program decl.name (first + i)) st) ∧
      ((decls.zipIdx k).foldl
        (fun st (decl, i) => st.defineService program decl.name (first + i)) st).Awaits
          program document types [] (first + k + decls.length) := by
  induction decls generalizing st k with
  | nil => exact ⟨.refl, h⟩
  | cons decl decls ih =>
    obtain ⟨hnew, hnd⟩ := List.nodup_cons.1 hnd
    obtain ⟨hdefine, hawaits⟩ := h.defineService hnew
    obtain ⟨hsteps, hdone⟩ := ih (k := k + 1) hawaits hnd
    rw [List.zipIdx_cons, List.foldl_cons]
    refine ⟨.trans (.single hdefine) hsteps, ?_⟩
    rw [List.length_cons, Nat.add_comm decls.length, ← Nat.add_assoc]
    exact hdone

theorem linkServices_guarded
    (h : st.Awaits program p.document types (p.document.services.map (·.name)) first)
    (hnd : (p.document.services.map (·.name)).Nodup) :
    RunsBy (Guarded program) st (linkServices program p first) fun services st' =>
      st'.WellFormed ∧ st'.serviceCount = first + services.length := by
  have hrun : RunsBy (Guarded program) st (linkServices program p first) fun _ st' =>
      st'.Awaits program p.document types [] (first + p.document.services.length) := by
    obtain ⟨hsteps, hdefined⟩ := defineServices_guarded (k := 0) h hnd
    refine RunsBy.bind (Q := fun _ st₁ => st₁.Awaits program p.document types []
      (first + p.document.services.length)) (runsBy_modify hsteps hdefined) fun _ st₁ _ h₁ => ?_
    refine (RunsBy.of_within (linkBases_within p.document.services) h₁.wellFormed).bind
      fun bases st₂ _ h₂ => ?_
    have h₂ := h₁.interns h₂
    split
    · exact runsBy_refuse _ _
    · refine (RunsBy.of_within (P := FoundInDeclaration) ?_ h₂.wellFormed).imp
        fun _ _ h₃ => h₂.interns h₃
      apply Within.mapM
      rintro ⟨⟨decl, base⟩, i⟩
      exact linkService_within (resolve_interns program) (first + i) decl base
  refine ⟨hrun.steps, ?_⟩
  intro services st' hx
  have hdone := hrun.result services st' hx
  obtain ⟨-, hall⟩ := linkServices_ok h.wellFormed hx
  exact ⟨hdone.wellFormed, by rw [hdone.count, hall.length_eq]⟩

theorem linkPart_guarded (hst : st.WellFormed) (hp : st.programs[program]? = some p)
    (htypes : p.types = []) (hservices : p.services = []) (hcount : st.serviceCount = first) :
    RunsBy (Guarded program) st (linkPart first program) fun part st' =>
      st'.WellFormed ∧ st'.serviceCount = first + part.services.length := by
  apply runsBy_get
  rw [hp]
  dsimp only
  refine (defineUserTypes_guarded hst hp htypes hservices hcount).bind fun _ st₁ _ hnamed => ?_
  obtain ⟨hn, h₁⟩ := hnamed
  refine (defineTypedefs_guarded h₁ (typedefs_nodup hn)).bind fun resolved st₂ _ h₂ => ?_
  have henums : Within (Interns program) FoundInDeclaration
      (p.document.enums.mapM (linkEnum program p)) := Within.mapM fun decl => linkEnum_within decl
  refine (RunsBy.of_within henums h₂.wellFormed).bind fun enums st₃ _ h₃ => ?_
  have h₃ := h₂.interns h₃
  have hrecords : Within (Interns program) FoundInDeclaration
      (p.document.records.mapM (linkRecord program p)) :=
    Within.mapM fun decl => linkRecord_within (resolve_interns program) decl
  refine (RunsBy.of_within hrecords h₃.wellFormed).bind fun records st₄ _ h₄ => ?_
  have h₄ := h₃.interns h₄
  have hnd := (List.nodup_append.1 (List.nodup_append.1 (declared_nodup hn)).2.1).2.1
  exact (linkServices_guarded h₄ hnd).bind fun services st₅ _ hdone => runsBy_pure hdone

theorem linkParts_guarded {order : List ProgramId} (hnd : order.Nodup) (hst : st.WellFormed)
    (hfresh : ∀ i ∈ order, ∃ p, st.programs[i]? = some p ∧ p.types = [] ∧ p.services = [])
    (hcount : st.serviceCount = first) :
    RunsBy (GuardedAmong order) st (linkParts first order) fun parts st' =>
      st'.serviceCount = first + (parts.flatMap SchemaPart.services).length := by
  induction order generalizing st first with
  | nil => exact runsBy_pure hcount
  | cons program order ih =>
    obtain ⟨hnew, hnd⟩ := List.nodup_cons.1 hnd
    obtain ⟨p, hp, htypes, hservices⟩ := hfresh program List.mem_cons_self
    have hpart := linkPart_guarded hst hp htypes hservices hcount
    refine (hpart.mono fun _ _ h => ⟨program, List.mem_cons_self, h⟩).bind
      fun part st₁ hx hdone => ?_
    have hfresh₁ : ∀ i ∈ order, ∃ p, st₁.programs[i]? = some p ∧ p.types = [] ∧
        p.services = [] := by
      intro i hi
      have hne : i ≠ program := by
        rintro rfl
        exact hnew hi
      rw [LinkState.others_of_guarded (hpart.reaches hx) hne]
      exact hfresh i (List.mem_cons_of_mem _ hi)
    refine ((ih hnd hdone.1 hfresh₁ hdone.2).mono ?_).bind fun parts st₂ _ hcount₂ => ?_
    · rintro _ _ ⟨i, hi, h⟩
      exact ⟨i, List.mem_cons_of_mem _ hi, h⟩
    · apply runsBy_pure
      rw [hcount₂, List.flatMap_cons, List.length_append, Nat.add_assoc]

end Program

end Linking

end ThriftIdl
