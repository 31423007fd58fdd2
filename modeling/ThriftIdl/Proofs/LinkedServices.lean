import ThriftIdl.Proofs.LinkedDeclarations

namespace ThriftIdl

namespace LinkState.Keeps

variable {st : LinkState} {program : ProgramId}

theorem defineService (h : st.WellFormed) (name : String) (id : ServiceId) :
    st.Keeps program (st.defineService program name id) := by
  have hsymbols (i : ProgramId) (q : Program)
      (hq : (st.programs.modify program fun p => p.defineService name id)[i]? = some q) :
      ∃ p, st.programs[i]? = some p ∧ q.types = p.types := by
    by_cases hi : program = i
    · subst hi
      rw [List.getElem?_modify_eq] at hq
      obtain ⟨p, hp, rfl⟩ := Option.map_eq_some_iff.1 hq
      exact ⟨p, hp, rfl⟩
    · rw [List.getElem?_modify_ne _ _ hi] at hq
      exact ⟨q, hq, rfl⟩
  refine ⟨⟨h.types, ?_⟩, .refl _, ?_, ?_⟩
  · intro i q hq name' id' hs
    obtain ⟨p, hp, ht⟩ := hsymbols i q hq
    unfold Program.typeSymbol at hs
    rw [ht] at hs
    exact h.symbols i p hp name' id' hs
  · intro i hi
    exact List.getElem?_modify_ne _ _ (Ne.symm hi)
  · unfold LinkState.defineService
    rw [List.getElem?_modify_eq]
    cases st.programs[program]? <;> rfl

theorem defineServices (h : st.WellFormed) (first : ServiceId) (decls : List (ServiceDecl × Nat)) :
    st.Keeps program (decls.foldl
      (fun st (decl, i) => st.defineService program decl.name (first + i)) st) := by
  induction decls generalizing st with
  | nil => exact .refl h
  | cons decl decls ih =>
    have h₁ : st.Keeps program (st.defineService program decl.1.name (first + decl.2)) :=
      defineService h decl.1.name (first + decl.2)
    exact h₁.trans (ih h₁.wellFormed)

end LinkState.Keeps

namespace Linking

variable {st st' : LinkState} {program : ProgramId} {p : Program} {locate : Position → Location}

theorem linkBase_ok {decl : ServiceDecl} {base : Option ServiceId}
    (h : exec (linkBase program locate decl) st = (.ok base, st')) : st' = st := by
  unfold linkBase at h
  split at h
  · exact (exec_pure_ok_iff.1 h).2.symm
  · rw [exec_bind_of_ok (exec_get st)] at h
    split at h
    · exact (exec_pure_ok_iff.1 h).2.symm
    · simp [exec_refuse] at h

theorem linkBases_ok {decls : List ServiceDecl} {bases : List (Option ServiceId)}
    (hst : st.WellFormed) (h : exec (decls.mapM (linkBase program locate)) st = (.ok bases, st')) :
    st.Keeps program st' ∧ decls.length = bases.length := by
  have hstep {decl : ServiceDecl} {st st' : LinkState} {base : Option ServiceId}
      (hst : st.WellFormed) (h : exec (linkBase program locate decl) st = (.ok base, st')) :
      st.Keeps program st' ∧ True := by
    obtain rfl := linkBase_ok h
    exact ⟨.refl hst, trivial⟩
  obtain ⟨hk, hall⟩ := mapM_ok (fun _ _ _ _ => True) (fun _ _ => trivial) hstep hst h
  exact ⟨hk, hall.length_eq⟩

theorem zipIdx_decls {decls : List ServiceDecl} {bases : List (Option ServiceId)}
    (h : decls.length = bases.length) :
    ((decls.zip bases).zipIdx.map fun item => item.1.1) = decls := by
  have hfst : ((decls.zip bases).zipIdx.map Prod.fst).map Prod.fst = decls := by
    rw [List.zipIdx_map_fst, List.map_fst_zip (Nat.le_of_eq h)]
  rwa [List.map_map] at hfst

theorem linkServices_ok {first : ServiceId} {services : List Service} (hst : st.WellFormed)
    (h : exec (linkServices program p first) st = (.ok services, st')) :
    st.Keeps program st' ∧ List.Forall₂ (ServiceLinked st'.types (st'.lookupType program) p)
      p.document.services services := by
  obtain ⟨_, st₁, h₁, hrest⟩ := exec_bind_ok_iff.1 h
  obtain ⟨bases, st₂, h₂, h₃⟩ := exec_bind_ok_iff.1 hrest
  have hk₁ : st.Keeps program st₁ := by
    rw [exec_modify, Prod.mk.injEq] at h₁
    rw [← h₁.2]
    exact .defineServices hst first _
  obtain ⟨hk₂, hlen⟩ := linkBases_ok hk₁.wellFormed h₂
  split at h₃
  · simp [exec_refuse] at h₃
  · have hstep {item : (ServiceDecl × Option ServiceId) × Nat} {st st' : LinkState}
        {service : Service} (hst : st.WellFormed)
        (h : exec (linkService program p (first + item.2) item.1.1 item.1.2) st =
          (.ok service, st')) :
        st.Keeps program st' ∧
          ServiceLinked st'.types (st'.lookupType program) p item.1.1 service := by
      obtain ⟨hk, hs, -⟩ := linkService_ok hst h
      exact ⟨hk, hs⟩
    obtain ⟨hk₃, hall⟩ := mapM_ok (fun g lookup item => ServiceLinked g lookup p item.1.1)
      ServiceLinked.grows hstep hk₂.wellFormed h₃
    refine ⟨(hk₁.trans hk₂).trans hk₃, ?_⟩
    rw [← zipIdx_decls hlen, List.forall₂_map_left_iff]
    exact hall

end Linking

end ThriftIdl
