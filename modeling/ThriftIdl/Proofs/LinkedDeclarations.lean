import Mathlib.Data.List.Forall2
import ThriftIdl.Linking.Program
import ThriftIdl.Proofs.LinkStates

namespace ThriftIdl.Linking

section Declarations

variable (g : TypeGraph) (lookup : String → Option TypeId) (locate : Position → Location)

structure FieldLinked (decl : FieldDecl) (field : Field) : Prop where
  type : decl.type.Denotes g lookup field.typeId
  copied : field = ⟨decl.id, decl.name, decl.requiredness, field.typeId, decl.documentation,
    locate decl.position⟩

/-- Only a result may be `void`, and only as a whole. -/
structure MethodLinked (decl : FunctionDecl) (method : Method) : Prop where
  returns : (decl.returns = .void ∧ method.returnType = Builtin.void.id) ∨
    (decl.returns ≠ .void ∧ decl.returns.Denotes g lookup method.returnType)
  params : List.Forall₂ (FieldLinked g lookup locate) decl.params method.params
  throws : List.Forall₂ (FieldLinked g lookup locate) decl.throws method.throws
  copied : method = ⟨decl.name, decl.oneway, method.returnType, method.params, method.throws,
    decl.documentation, locate decl.position⟩

structure EnumLinked (p : Program) (decl : EnumDecl) (enum : EnumType) : Prop where
  typeId : enum.typeId = (lookup decl.name).getD 0
  copied : enum = ⟨decl.name, enum.typeId,
    decl.members.map fun m => ⟨m.name, m.value, m.documentation, p.locate m.position⟩,
    decl.documentation, p.locate decl.position, p.namespaces⟩

structure RecordLinked (p : Program) (decl : RecordDecl) (record : Record) : Prop where
  typeId : record.typeId = (lookup decl.name).getD 0
  fields : List.Forall₂ (FieldLinked g lookup p.locate) decl.fields record.fields
  copied : record = ⟨decl.name, decl.kind, record.typeId, record.fields, decl.documentation,
    p.locate decl.position, p.namespaces⟩

structure ServiceLinked (p : Program) (decl : ServiceDecl) (service : Service) : Prop where
  methods : List.Forall₂ (MethodLinked g lookup p.locate) decl.functions service.methods
  copied : service = ⟨service.id, decl.name, service.base, service.methods, decl.documentation,
    p.locate decl.position, p.namespaces⟩

end Declarations

section Growth

variable {g g' : TypeGraph} {lookup : String → Option TypeId} {locate : Position → Location}
  {p : Program}

theorem FieldLinked.grows {decl : FieldDecl} {field : Field} (hgrow : g.Grows g')
    (h : FieldLinked g lookup locate decl field) : FieldLinked g' lookup locate decl field :=
  ⟨h.type.grows hgrow, h.copied⟩

theorem MethodLinked.grows {decl : FunctionDecl} {method : Method} (hgrow : g.Grows g')
    (h : MethodLinked g lookup locate decl method) : MethodLinked g' lookup locate decl method where
  returns := h.returns.imp_right fun ⟨hne, hd⟩ => ⟨hne, hd.grows hgrow⟩
  params := h.params.imp fun _ _ => FieldLinked.grows hgrow
  throws := h.throws.imp fun _ _ => FieldLinked.grows hgrow
  copied := h.copied

theorem RecordLinked.grows {decl : RecordDecl} {record : Record} (hgrow : g.Grows g')
    (h : RecordLinked g lookup p decl record) : RecordLinked g' lookup p decl record :=
  ⟨h.typeId, h.fields.imp fun _ _ => FieldLinked.grows hgrow, h.copied⟩

theorem ServiceLinked.grows {decl : ServiceDecl} {service : Service} (hgrow : g.Grows g')
    (h : ServiceLinked g lookup p decl service) : ServiceLinked g' lookup p decl service :=
  ⟨h.methods.imp fun _ _ => MethodLinked.grows hgrow, h.copied⟩

end Growth

variable {st st' : LinkState} {program : ProgramId} {p : Program} {locate : Position → Location}

theorem mapM_ok {α β : Type} {f : α → Linking β}
    (Q : TypeGraph → (String → Option TypeId) → α → β → Prop)
    (grows : ∀ {g g' lookup item result}, g.Grows g' → Q g lookup item result →
      Q g' lookup item result)
    (step : ∀ {item st result st'}, st.WellFormed → exec (f item) st = (.ok result, st') →
      st.Keeps program st' ∧ Q st'.types (st'.lookupType program) item result)
    {items : List α} {results : List β} (hst : st.WellFormed)
    (h : exec (items.mapM f) st = (.ok results, st')) :
    st.Keeps program st' ∧ List.Forall₂ (Q st'.types (st'.lookupType program)) items results := by
  induction items generalizing st results with
  | nil =>
    obtain ⟨rfl, rfl⟩ := exec_pure_ok_iff.1 h
    exact ⟨.refl hst, .nil⟩
  | cons item items ih =>
    rw [List.mapM_cons] at h
    obtain ⟨result, st₁, h₁, h⟩ := exec_bind_ok_iff.1 h
    obtain ⟨others, st₂, h₂, h⟩ := exec_bind_ok_iff.1 h
    obtain ⟨rfl, rfl⟩ := exec_pure_ok_iff.1 h
    obtain ⟨hk, hq⟩ := step hst h₁
    obtain ⟨hk', hqs⟩ := ih hk.wellFormed h₂
    refine ⟨hk.trans hk', .cons ?_ hqs⟩
    rw [hk'.lookupType]
    exact grows hk'.grows hq

theorem linkField_ok {decl : FieldDecl} {field : Field} (hst : st.WellFormed)
    (h : exec (linkField program locate decl) st = (.ok field, st')) :
    st.Keeps program st' ∧ FieldLinked st'.types (st'.lookupType program) locate decl field := by
  obtain ⟨typeId, st₁, h₁, h⟩ := exec_bind_ok_iff.1 h
  obtain ⟨rfl, rfl⟩ := exec_pure_ok_iff.1 h
  obtain ⟨hk, hd⟩ := resolveKnown_ok hst h₁
  exact ⟨hk, hd, rfl⟩

theorem linkFields_ok {decls : List FieldDecl} {fields : List Field} (hst : st.WellFormed)
    (h : exec (linkFields program locate decls) st = (.ok fields, st')) :
    st.Keeps program st' ∧
      List.Forall₂ (FieldLinked st'.types (st'.lookupType program) locate) decls fields :=
  mapM_ok (fun g lookup => FieldLinked g lookup locate) FieldLinked.grows linkField_ok hst h

theorem refuseIf_ok {location : Location} {fault : Option LinkFault} {u : Unit}
    (h : exec (refuseIf location fault) st = (.ok u, st')) : fault = none ∧ st' = st := by
  cases fault with
  | none => exact ⟨rfl, (exec_pure_ok_iff.1 h).2.symm⟩
  | some fault => simp [refuseIf, exec_refuse] at h

theorem checkThrown_ok {field : Field} {function : String} {u : Unit}
    (h : exec (checkThrown function field) st = (.ok u, st')) : st' = st := by
  unfold checkThrown at h
  rw [exec_bind_of_ok (exec_get st)] at h
  exact (refuseIf_ok h).2

theorem checkAllThrown_ok {fields : List Field} {function : String} {u : PUnit}
    (h : exec (fields.forM (checkThrown function)) st = (.ok u, st')) : st' = st := by
  induction fields with
  | nil => exact (exec_pure_ok_iff.1 h).2.symm
  | cons field fields ih =>
    change exec (checkThrown function field >>= fun _ => fields.forM _) st = _ at h
    obtain ⟨_, st₁, h₁, h₂⟩ := exec_bind_ok_iff.1 h
    obtain rfl := checkThrown_ok h₁
    exact ih h₂

theorem linkReturnType_ok {location : Location} {type : TypeExpr} {id : TypeId}
    (hst : st.WellFormed) (h : exec (linkReturnType program location type) st = (.ok id, st')) :
    st.Keeps program st' ∧ ((type = .void ∧ id = Builtin.void.id) ∨
      (type ≠ .void ∧ type.Denotes st'.types (st'.lookupType program) id)) := by
  unfold linkReturnType at h
  by_cases hv : type = .void
  · rw [if_pos hv] at h
    obtain ⟨rfl, rfl⟩ := exec_pure_ok_iff.1 h
    exact ⟨.refl hst, .inl ⟨hv, rfl⟩⟩
  · rw [if_neg hv] at h
    obtain ⟨hk, hd⟩ := resolveKnown_ok hst h
    exact ⟨hk, .inr ⟨hv, hd⟩⟩

theorem linkMethod_ok {decl : FunctionDecl} {method : Method} (hst : st.WellFormed)
    (h : exec (linkMethod program locate decl) st = (.ok method, st')) :
    st.Keeps program st' ∧ MethodLinked st'.types (st'.lookupType program) locate decl method := by
  obtain ⟨returnType, st₁, h₁, h⟩ := exec_bind_ok_iff.1 h
  obtain ⟨_, st₂, h₂, h⟩ := exec_bind_ok_iff.1 h
  obtain ⟨params, st₃, h₃, h⟩ := exec_bind_ok_iff.1 h
  obtain ⟨thrown, st₄, h₄, h⟩ := exec_bind_ok_iff.1 h
  obtain ⟨_, st₅, h₅, h⟩ := exec_bind_ok_iff.1 h
  obtain ⟨rfl, rfl⟩ := exec_pure_ok_iff.1 h
  obtain ⟨hk₁, hr⟩ := linkReturnType_ok hst h₁
  obtain ⟨_, rfl⟩ := refuseIf_ok h₂
  obtain ⟨hk₃, hp⟩ := linkFields_ok hk₁.wellFormed h₃
  obtain ⟨hk₄, ht⟩ := linkFields_ok hk₃.wellFormed h₄
  obtain rfl := checkAllThrown_ok h₅
  refine ⟨(hk₁.trans hk₃).trans hk₄, ?_, ?_, ht, rfl⟩
  · rw [hk₄.lookupType, hk₃.lookupType]
    exact hr.imp_right fun ⟨hne, hd⟩ => ⟨hne, (hd.grows hk₃.grows).grows hk₄.grows⟩
  · rw [hk₄.lookupType]
    exact hp.imp fun _ _ => FieldLinked.grows hk₄.grows

theorem linkMethods_ok {service : String} {earlier decls : List FunctionDecl}
    {methods : List Method} (hst : st.WellFormed)
    (h : exec (linkMethods program locate service earlier decls) st = (.ok methods, st')) :
    st.Keeps program st' ∧
      List.Forall₂ (MethodLinked st'.types (st'.lookupType program) locate) decls methods := by
  induction decls generalizing st earlier methods with
  | nil =>
    obtain ⟨rfl, rfl⟩ := exec_pure_ok_iff.1 h
    exact ⟨.refl hst, .nil⟩
  | cons decl later ih =>
    unfold linkMethods at h
    split at h
    · simp [exec_refuse] at h
    · obtain ⟨method, st₁, h₁, h⟩ := exec_bind_ok_iff.1 h
      obtain ⟨others, st₂, h₂, h⟩ := exec_bind_ok_iff.1 h
      obtain ⟨rfl, rfl⟩ := exec_pure_ok_iff.1 h
      obtain ⟨hk, hm⟩ := linkMethod_ok hst h₁
      obtain ⟨hk', hms⟩ := ih hk.wellFormed h₂
      refine ⟨hk.trans hk', .cons ?_ hms⟩
      rw [hk'.lookupType]
      exact hm.grows hk'.grows

theorem linkService_ok {id : ServiceId} {decl : ServiceDecl} {base : Option ServiceId}
    {service : Service} (hst : st.WellFormed)
    (h : exec (linkService program p id decl base) st = (.ok service, st')) :
    st.Keeps program st' ∧ ServiceLinked st'.types (st'.lookupType program) p decl service ∧
      service.id = id ∧ service.base = base := by
  obtain ⟨methods, st₁, h₁, h⟩ := exec_bind_ok_iff.1 h
  obtain ⟨rfl, rfl⟩ := exec_pure_ok_iff.1 h
  obtain ⟨hk, hm⟩ := linkMethods_ok hst h₁
  exact ⟨hk, ⟨hm, rfl⟩, rfl, rfl⟩

theorem exec_declaredType (program : ProgramId) (name : String) (st : LinkState) :
    exec (declaredType program name) st = (.ok ((st.lookupType program name).getD 0), st) := rfl

theorem linkEnum_ok {decl : EnumDecl} {enum : EnumType} (hst : st.WellFormed)
    (h : exec (linkEnum program p decl) st = (.ok enum, st')) :
    st.Keeps program st' ∧ EnumLinked (st'.lookupType program) p decl enum := by
  obtain ⟨typeId, st₁, h₁, h⟩ := exec_bind_ok_iff.1 h
  obtain ⟨rfl, rfl⟩ := exec_pure_ok_iff.1 h
  rw [exec_declaredType] at h₁
  obtain ⟨rfl, rfl⟩ : (st.lookupType program decl.name).getD 0 = typeId ∧ st = st₁ := by
    simpa using h₁
  exact ⟨.refl hst, rfl, rfl⟩

theorem linkRecord_ok {decl : RecordDecl} {record : Record} (hst : st.WellFormed)
    (h : exec (linkRecord program p decl) st = (.ok record, st')) :
    st.Keeps program st' ∧ RecordLinked st'.types (st'.lookupType program) p decl record := by
  obtain ⟨typeId, st₁, h₁, h⟩ := exec_bind_ok_iff.1 h
  obtain ⟨fields, st₂, h₂, h⟩ := exec_bind_ok_iff.1 h
  obtain ⟨rfl, rfl⟩ := exec_pure_ok_iff.1 h
  rw [exec_declaredType] at h₁
  obtain ⟨rfl, rfl⟩ : (st.lookupType program decl.name).getD 0 = typeId ∧ st = st₁ := by
    simpa using h₁
  obtain ⟨hk, hf⟩ := linkFields_ok hst h₂
  exact ⟨hk, by rw [hk.lookupType], hf, rfl⟩

end ThriftIdl.Linking
