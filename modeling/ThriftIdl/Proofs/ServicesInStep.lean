import ThriftIdl.Proofs.TypesInStep

namespace ThriftIdl.Linking

open LinkState (InStep)
open TypeGraph (Alike)

structure MethodAlike (g g' : TypeGraph) (method method' : Method) : Prop where
  copied : method' = { method with
    returnType := method'.returnType, params := method'.params, throws := method'.throws }
  returnType : g.Alike g' method.returnType method'.returnType
  params : List.Forall₂ (FieldAlike g g') method.params method'.params
  throws : List.Forall₂ (FieldAlike g g') method.throws method'.throws

/-- What two services have in common but for the services that they extend. -/
structure ServiceAlike (g g' : TypeGraph) (service service' : Service) : Prop where
  copied : service' = { service with
    id := service'.id, base := service'.base, methods := service'.methods }
  methods : List.Forall₂ (MethodAlike g g') service.methods service'.methods

section Rules

variable {st st' : LinkState} {i i' : ProgramId} {locate : Position → Location}
  {p p' : Program} {first first' : ServiceId}

theorem persists_method : Persists MethodAlike := by
  intro g g' h h' method method' hev hev' ha
  exact ⟨ha.copied, ha.returnType.evolves hev hev', persists_fields _ _ _ _ _ _ hev hev' ha.params,
    persists_fields _ _ _ _ _ _ hev hev' ha.throws⟩

theorem persists_methods : Persists fun g g' => List.Forall₂ (MethodAlike g g') := by
  intro g g' h h' methods methods' hev hev' ha
  exact ha.imp fun _ _ => persists_method _ _ _ _ _ _ hev hev'

theorem persists_service : Persists ServiceAlike := by
  intro g g' h h' service service' hev hev' ha
  exact ⟨ha.copied, persists_methods _ _ _ _ _ _ hev hev' ha.methods⟩

theorem linkReturnType_follows (h : InStep i i' st st') (location : Location) (type : TypeExpr) :
    Follows i i' Alike (linkReturnType i location type) (linkReturnType i' location type)
      st st' := by
  unfold linkReturnType
  by_cases hv : type = .void
  · rw [if_pos hv, if_pos hv]
    exact .pure h (.builtin h.wellFormed.types h.wellFormed'.types .void)
  · rw [if_neg hv, if_neg hv]
    exact resolveKnown_follows h location type

theorem refuseIf_follows (h : InStep i i' st st') {fault fault' : Option LinkFault}
    (location : Location) (hf : fault = none → fault' = none) :
    Follows i i' (fun _ _ _ _ => True) (refuseIf location fault) (refuseIf location fault')
      st st' := by
  cases fault with
  | some fault => exact .throw
  | none =>
    rw [hf rfl]
    exact .pure h trivial

theorem onewayFault?_alike (h : InStep i i' st st') (decl : FunctionDecl) {id id' : TypeId}
    (ha : st.types.Alike st'.types id id') : onewayFault? decl id' = onewayFault? decl id := by
  unfold onewayFault?
  simp only [ne_eq, ha.eq_builtin_iff h.wellFormed.types h.wellFormed'.types]

theorem checkThrown_follows (h : InStep i i' st st') (function : String) {field field' : Field}
    (ha : FieldAlike st.types st'.types field field') :
    Follows i i' (fun _ _ _ _ => True) (checkThrown function field) (checkThrown function field')
      st st' := by
  apply Follows.get
  rw [ha.copied]
  apply refuseIf_follows h
  unfold throwsFault?
  rw [ha.type.userKind h.wellFormed.types h.wellFormed'.types]
  split
  · intro
    rfl
  · intro hf
    cases hf

theorem checkAllThrown_follows (h : InStep i i' st st') (function : String)
    {fields fields' : List Field} (ha : List.Forall₂ (FieldAlike st.types st'.types) fields fields') :
    Follows i i' (fun _ _ _ _ => True) (fields.forM (checkThrown function))
      (fields'.forM (checkThrown function)) st st' := by
  apply Follows.forM ha h
  intro field field' t t' hfield hstep hev hev'
  exact checkThrown_follows hstep function (persists_field _ _ _ _ _ _ hev hev' hfield)

theorem linkMethod_follows (h : InStep i i' st st') (decl : FunctionDecl) :
    Follows i i' MethodAlike (linkMethod i locate decl) (linkMethod i' locate decl) st st' := by
  apply (linkReturnType_follows h _ _).bind
  rintro id id' t t' hstep - - hid
  rw [onewayFault?_alike hstep decl hid]
  apply (refuseIf_follows hstep _ fun hf => hf).bind
  rintro _ _ u u' hstep heu heu' -
  apply (linkFields_follows hstep decl.params).bind
  rintro params params' v v' hstep hev hev' hparams
  apply (linkFields_follows hstep decl.throws).bind
  rintro thrown thrown' w w' hstep hew hew' hthrown
  apply (checkAllThrown_follows hstep decl.name hthrown).bind
  rintro _ _ x x' hstep hex hex' -
  refine .pure hstep ⟨rfl, ?_, ?_, ?_⟩
  · exact hid.evolves (((heu.trans hev).trans hew).trans hex)
      (((heu'.trans hev').trans hew').trans hex')
  · exact persists_fields _ _ _ _ _ _ (hew.trans hex) (hew'.trans hex') hparams
  · exact persists_fields _ _ _ _ _ _ hex hex' hthrown

theorem linkMethods_follows (h : InStep i i' st st') (service : String)
    (earlier decls : List FunctionDecl) :
    Follows i i' (fun g g' => List.Forall₂ (MethodAlike g g'))
      (linkMethods i locate service earlier decls) (linkMethods i' locate service earlier decls)
      st st' := by
  induction decls generalizing earlier st st' with
  | nil => exact .pure h .nil
  | cons decl later ih =>
    unfold linkMethods
    split
    · exact .throw
    · apply (linkMethod_follows h decl).bind
      rintro method method' t t' hstep - - hmethod
      apply (ih hstep (decl :: earlier)).bind
      rintro methods methods' u u' hstep hev hev' hmethods
      exact .pure hstep (.cons (persists_method _ _ _ _ _ _ hev hev' hmethod) hmethods)

theorem linkService_follows (hdoc : p'.document = p.document) (h : InStep i i' st st')
    (id id' : ServiceId) (decl : ServiceDecl) (base base' : Option ServiceId) :
    Follows i i' ServiceAlike (linkService i p id decl base) (linkService i' p' id' decl base')
      st st' := by
  unfold linkService
  rw [locate_eq hdoc, namespaces_eq hdoc]
  apply (linkMethods_follows h decl.name [] decl.functions).bind
  rintro methods methods' t t' hstep - - hmethods
  exact .pure hstep ⟨rfl, hmethods⟩

/-- Two programs of one text see services under the same names, whatever ids these have. -/
theorem ServicesReady.baseFound (hdoc : p'.document = p.document) (hr : ServicesReady st i p first)
    (hr' : ServicesReady st' i' p' first')
    (hseen : ∀ name, (includedSymbol Program.serviceSymbol st.programs p name).isSome →
      (includedSymbol Program.serviceSymbol st'.programs p' name).isSome) {decl : ServiceDecl}
    (hf : BaseFound (st.defineServices i first p.document.services) i decl) :
    BaseFound (st'.defineServices i' first' p'.document.services) i' decl := by
  intro name hname
  have hs := hf name hname
  rw [hr.lookup, Option.isSome_or, Bool.or_eq_true, lookup_isSome] at hs
  rw [hr'.lookup, Option.isSome_or, Bool.or_eq_true, lookup_isSome]
  rw [serviceSymbols_names] at hs ⊢
  rw [hdoc]
  exact hs.imp_right (hseen name)

theorem linkEach_follows (hdoc : p'.document = p.document) (h : InStep i i' st st')
    {decls : List ServiceDecl} {bases bases' : List (Option ServiceId)}
    (hlength : decls.length = bases.length) (hlength' : decls.length = bases'.length) :
    Follows i i' (fun g g' => List.Forall₂ (ServiceAlike g g'))
      ((decls.zip bases).zipIdx.mapM fun ((decl, base), k) => linkService i p (first + k) decl base)
      ((decls.zip bases').zipIdx.mapM fun ((decl, base), k) =>
        linkService i' p' (first' + k) decl base) st st' := by
  have hitems : List.Forall₂ (fun item item' : (ServiceDecl × Option ServiceId) × Nat =>
      item.1.1 = item'.1.1) (decls.zip bases).zipIdx (decls.zip bases').zipIdx := by
    have hdecls := (zipIdx_decls hlength).trans (zipIdx_decls hlength').symm
    rwa [← List.forall₂_eq_eq_eq, List.forall₂_map_left_iff, List.forall₂_map_right_iff] at hdecls
  apply Follows.mapM persists_service hitems h
  rintro ⟨⟨decl, base⟩, k⟩ ⟨⟨_, base'⟩, k'⟩ t t' rfl hstep - -
  exact linkService_follows hdoc hstep _ _ decl base base'

theorem linkServices_follows (hdoc : p'.document = p.document) (h : InStep i i' st st')
    (hr : ServicesReady st i p first) (hr' : ServicesReady st' i' p' first')
    (hseen : ∀ name, (includedSymbol Program.serviceSymbol st.programs p name).isSome →
      (includedSymbol Program.serviceSymbol st'.programs p' name).isSome) :
    Follows i i' (fun g g' => List.Forall₂ (ServiceAlike g g')) (linkServices i p first)
      (linkServices i' p' first') st st' := by
  have hservices : p'.document.services = p.document.services := by rw [hdoc]
  have hk := defineServices_keeps h.wellFormed i first p.document.services
  have hk' := defineServices_keeps h.wellFormed' i' first' p'.document.services
  have hstep := h.later (hk.later h.wellFormed) (hk'.later h.wellFormed')
  apply Follows.of_exec (exec_linkServices ..) (exec_linkServices ..) rfl rfl
  intro services t hx
  obtain ⟨bases, st₁, h₁, h₂⟩ := exec_bind_ok_iff.1 hx
  have hfound := basesFound_of_ok h₁
  rw [exec_linkBases hfound] at h₁
  obtain ⟨hbases, rfl⟩ := Prod.mk.inj h₁
  obtain rfl := Except.ok.inj hbases
  have hfound' : ∀ decl ∈ p'.document.services,
      BaseFound (st'.defineServices i' first' p'.document.services) i' decl := by
    intro decl hm
    rw [hservices] at hm
    exact hr.baseFound hdoc hr' hseen (hfound decl hm)
  rw [exec_bind_of_ok (exec_linkBases hfound')]
  cases hfault : inheritanceFault? first p.document.services
      (basesIn (st.defineServices i first p.document.services) i p.document.services) with
  | some fault =>
    rw [hfault] at h₂
    simp [exec_refuse] at h₂
  | none =>
    have hfault' := (inheritanceFault?_eq_none_iff hr.baseWithin_iff).1 hfault
    rw [← hservices, ← inheritanceFault?_eq_none_iff hr'.baseWithin_iff] at hfault'
    rw [hfault] at h₂
    rw [hfault', hservices]
    rw [hservices] at hstep
    refine linkEach_follows hdoc hstep ?_ ?_ services t h₂
    · exact (List.length_map _).symm
    · exact (List.length_map _).symm

end Rules

end ThriftIdl.Linking
