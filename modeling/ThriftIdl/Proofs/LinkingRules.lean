import Mathlib.Order.Defs.Unbundled
import ThriftIdl.Linking.Program
import ThriftIdl.Proofs.LinkStates

namespace ThriftIdl

section Rules

variable {ε σ α β : Type} {R : σ → σ → Prop} {P : ε → Prop}

/-- Whatever comes of a run, its state is related to the one before it, and its error, if there is
one, is one of those allowed. -/
def Within (R : σ → σ → Prop) (P : ε → Prop) (x : ExceptT ε (StateM σ) α) : Prop :=
  ∀ s, R s (exec x s).2 ∧ ∀ e, (exec x s).1 = .error e → P e

def AnyError (_ : ε) : Prop := True

namespace Within

variable {x : ExceptT ε (StateM σ) α} {f : α → ExceptT ε (StateM σ) β} {s s' : σ} {a : α} {e : ε}

theorem of_ok (h : Within R P x) (hx : exec x s = (.ok a, s')) : R s s' := by
  have hs := (h s).1
  rwa [hx] at hs

theorem of_error (h : Within R P x) (hx : exec x s = (.error e, s')) : R s s' ∧ P e := by
  have hs := h s
  rw [hx] at hs
  exact ⟨hs.1, hs.2 e rfl⟩

theorem any (h : Within R P x) : Within R AnyError x := fun s => ⟨(h s).1, fun _ _ => trivial⟩

variable [IsPreorder σ R]

theorem pure (a : α) : Within R P (Pure.pure a : ExceptT ε (StateM σ) α) := by
  intro s
  exact ⟨refl s, by simp⟩

theorem get : Within R P (MonadState.get : ExceptT ε (StateM σ) σ) := by
  intro s
  exact ⟨refl s, by simp⟩

theorem throw (h : P e) : Within R P (throw e : ExceptT ε (StateM σ) α) := by
  intro s
  refine ⟨refl s, ?_⟩
  rintro e' he
  obtain rfl := Except.error.inj he
  exact h

theorem bind (hx : Within R P x) (hf : ∀ a, Within R P (f a)) : Within R P (x >>= f) := by
  intro s
  rcases hr : exec x s with ⟨e | a, s'⟩
  · obtain ⟨hs, he⟩ := hx.of_error hr
    rw [exec_bind_of_error hr]
    refine ⟨hs, ?_⟩
    rintro e' he'
    obtain rfl := Except.error.inj he'
    exact he
  · rw [exec_bind_of_ok hr]
    exact ⟨IsTrans.trans _ _ _ (hx.of_ok hr) (hf a s').1, (hf a s').2⟩

theorem mapM {xs : List α} (h : ∀ a, Within R P (f a)) : Within R P (xs.mapM f) := by
  induction xs with
  | nil => exact pure []
  | cons a xs ih =>
    rw [List.mapM_cons]
    apply bind (h a)
    intro b
    apply bind ih
    intro bs
    exact pure _

theorem forM {xs : List α} {f : α → ExceptT ε (StateM σ) PUnit} (h : ∀ a, Within R P (f a)) :
    Within R P (xs.forM f) := by
  induction xs with
  | nil => exact pure _
  | cons a xs ih => exact bind (h a) fun _ => ih

end Within

end Rules

theorem TypeExpr.resolve_within (lookup : String → Option TypeId) (type : TypeExpr) :
    Within (fun _ _ => True) (· = .misplacedVoid) (type.resolve lookup) := by
  have : IsPreorder TypeGraph fun _ _ => True :=
    { refl := fun _ => trivial, trans := fun _ _ _ _ _ => trivial }
  have hintern (node : TypeNode) :
      Within (fun _ _ => True) (· = .misplacedVoid) (Resolving.intern node) := by
    intro g
    refine ⟨trivial, ?_⟩
    intro e he
    cases he
  induction type with
  | named name =>
    unfold resolve
    split
    · exact .throw rfl
    · exact .pure _
    · exact .pure _
  | list element ih | set element ih =>
    rw [resolve]
    apply ih.bind
    rintro (_ | element)
    · exact .pure _
    · exact (hintern _).bind fun _ => .pure _
  | map key value ihk ihv =>
    rw [resolve]
    apply ihk.bind
    intro key
    apply ihv.bind
    intro value
    rcases key with _ | key <;> rcases value with _ | value
    · exact .pure _
    · exact .pure _
    · exact .pure _
    · exact (hintern _).bind fun _ => .pure _

namespace Linking

/-- The faults found in the fields and the functions of a declaration. -/
inductive InDeclaration : LinkFault → Prop
  | misplacedVoid : InDeclaration .misplacedVoid
  | unknownType (name : String) : InDeclaration (.unknownType name)
  | repeatedFunction (function service : String) (firstLine : Nat) :
      InDeclaration (.repeatedFunction function service firstLine)
  | onewayResult (function : String) : InDeclaration (.onewayResult function)
  | onewayThrows (function : String) : InDeclaration (.onewayThrows function)
  | notAnException (type function : String) : InDeclaration (.notAnException type function)

def FoundInDeclaration (e : LoadError) : Prop :=
  ∃ location fault, e = .unlinkable location fault ∧ InDeclaration fault

section Members

variable {R : LinkState → LinkState → Prop} [IsPreorder LinkState R] {program : ProgramId}
  {p : Program} {locate : Position → Location} {location : Location} {fault : LinkFault}
  {type : TypeExpr}

theorem refuse_within {α : Type} (h : InDeclaration fault) :
    Within R FoundInDeclaration (refuse location fault : Linking α) :=
  .throw ⟨_, _, rfl, h⟩

theorem refuseIf_within {fault : Option LinkFault} (h : ∀ f, fault = some f → InDeclaration f) :
    Within R FoundInDeclaration (refuseIf location fault) := by
  cases fault with
  | none => exact .pure _
  | some fault => exact refuse_within (h fault rfl)

theorem onewayFault?_inDeclaration {decl : FunctionDecl} {returnType : TypeId}
    (h : onewayFault? decl returnType = some fault) : InDeclaration fault := by
  unfold onewayFault? at h
  split at h
  · cases h
  split at h
  · obtain rfl := Option.some.inj h
    exact .onewayResult _
  split at h
  · obtain rfl := Option.some.inj h
    exact .onewayThrows _
  · cases h

theorem throwsFault?_inDeclaration {g : TypeGraph} {function : String} {field : Field}
    (h : throwsFault? g function field = some fault) : InDeclaration fault := by
  unfold throwsFault? at h
  split at h
  · cases h
  · obtain rfl := Option.some.inj h
    exact .notAnException _ _

theorem checkThrown_within (function : String) (field : Field) :
    Within R FoundInDeclaration (checkThrown function field) := by
  apply Within.get.bind
  intro st
  exact refuseIf_within fun _ => throwsFault?_inDeclaration

theorem linkEnum_within (decl : EnumDecl) :
    Within R FoundInDeclaration (linkEnum program p decl) :=
  (Within.get.bind fun _ => .pure _).bind fun _ => .pure _

theorem linkBases_within (decls : List ServiceDecl) :
    Within R AnyError (decls.mapM (linkBase program locate)) := by
  apply Within.mapM
  intro decl
  unfold linkBase
  split
  · exact .pure _
  · apply Within.get.bind
    intro st
    split
    · exact .pure _
    · exact .throw trivial

variable (resolves : ∀ location type, Within R FoundInDeclaration (resolve program location type))

include resolves

theorem resolveKnown_within :
    Within R FoundInDeclaration (resolveKnown program location type) := by
  apply (resolves location type).bind
  rintro (_ | id)
  · apply Within.get.bind
    intro st
    exact refuse_within (.unknownType _)
  · exact .pure id

theorem linkField_within (decl : FieldDecl) :
    Within R FoundInDeclaration (linkField program locate decl) :=
  (resolveKnown_within resolves).bind fun _ => .pure _

theorem linkFields_within (decls : List FieldDecl) :
    Within R FoundInDeclaration (linkFields program locate decls) :=
  .mapM (linkField_within resolves)

theorem linkRecord_within (decl : RecordDecl) :
    Within R FoundInDeclaration (linkRecord program p decl) := by
  apply (Within.get.bind fun _ => .pure _).bind
  intro typeId
  exact (linkFields_within resolves _).bind fun _ => .pure _

theorem linkReturnType_within :
    Within R FoundInDeclaration (linkReturnType program location type) := by
  unfold linkReturnType
  by_cases hv : type = .void
  · rw [if_pos hv]
    exact .pure _
  · rw [if_neg hv]
    exact resolveKnown_within resolves

theorem linkMethod_within (decl : FunctionDecl) :
    Within R FoundInDeclaration (linkMethod program locate decl) := by
  apply (linkReturnType_within resolves).bind
  intro returnType
  apply (refuseIf_within fun _ => onewayFault?_inDeclaration).bind
  intro _
  apply (linkFields_within resolves _).bind
  intro params
  apply (linkFields_within resolves _).bind
  intro thrown
  apply (Within.forM (checkThrown_within decl.name)).bind
  intro _
  exact .pure _

theorem linkMethods_within (service : String) (earlier decls : List FunctionDecl) :
    Within R FoundInDeclaration (linkMethods program locate service earlier decls) := by
  induction decls generalizing earlier with
  | nil => exact .pure _
  | cons decl later ih =>
    unfold linkMethods
    split
    · exact refuse_within (.repeatedFunction _ _ _)
    · exact (linkMethod_within resolves decl).bind fun _ => (ih _).bind fun _ => .pure _

theorem linkService_within (id : ServiceId) (decl : ServiceDecl) (base : Option ServiceId) :
    Within R FoundInDeclaration (linkService program p id decl base) :=
  (linkMethods_within resolves _ _ _).bind fun _ => .pure _

end Members

/-- Once the names are known, only the type graph changes. -/
def SamePrograms (st st' : LinkState) : Prop := st'.programs = st.programs

instance : IsPreorder LinkState SamePrograms where
  refl _ := rfl
  trans _ _ _ h h' := Eq.trans h' h

theorem resolve_within (program : ProgramId) (location : Location) (type : TypeExpr) :
    Within SamePrograms FoundInDeclaration (resolve program location type) := by
  intro st
  rw [exec_resolve]
  refine ⟨rfl, ?_⟩
  intro e he
  have hw := (type.resolve_within (st.lookupType program) st.types).2
  cases hr : (exec (type.resolve (st.lookupType program)) st.types).1 with
  | ok found =>
    rw [hr] at he
    cases he
  | error fault =>
    rw [hr] at he
    obtain rfl := hw fault hr
    exact ⟨location, _, (Except.error.inj he).symm, .misplacedVoid⟩

end Linking

end ThriftIdl
