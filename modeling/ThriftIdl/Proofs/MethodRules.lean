import Mathlib
import ThriftIdl.Proofs.LinkedDeclarations
import ThriftIdl.Proofs.SymbolTables
import ThriftIdl.Proofs.TypeResolution
import ThriftIdl.Proofs.UnplacedTypes

namespace ThriftIdl

theorem TypeGraph.WellFormed.userKind_eq_some_iff {g : TypeGraph} (hg : g.WellFormed) {id : TypeId}
    {kind : UserKind} : g.userKind id = some kind ↔
      ∃ name program, (g.tree id).behindTypedefs = .user name kind program := by
  rw [← hg.tree_trueType, hg.tree_eq]
  unfold userKind
  cases g.node (g.trueType id) <;> simp [TypeNode.spell]

namespace TypeExpr

/-- Every name in a type stands for something, and none for `void`. -/
def Resolves (lookup : String → Option TypeId) (type : TypeExpr) : Prop :=
  ∀ name ∈ type.names, name ≠ "void" ∧ Known lookup name

/-- Behind all typedefs there is an exception. -/
def IsException (g : TypeGraph) (lookup : String → Option TypeId) (type : TypeExpr) : Prop :=
  ∃ tree name program, type.tree? (fun name => (lookup name).map g.tree) = some tree ∧
    tree.behindTypedefs = .user name (.record .exception) program

/-- Why a type cannot be resolved. -/
inductive Unresolvable (lookup : String → Option TypeId) (type : TypeExpr) : LinkFault → Prop
  | void (h : "void" ∈ type.names) : Unresolvable lookup type .misplacedVoid
  | unknown {name : String} (hv : "void" ∉ type.names)
      (h : type.firstUnresolved lookup = some name) : Unresolvable lookup type (.unknownType name)

variable {g : TypeGraph} {lookup : String → Option TypeId} {type : TypeExpr} {id : TypeId}

theorem Denotes.resolves (h : type.Denotes g lookup id) : type.Resolves lookup := by
  intro name hm
  refine ⟨?_, h.known hm⟩
  rintro rfl
  exact h.void_not_mem hm

theorem Denotes.isException_iff (h : type.Denotes g lookup id) (hg : g.WellFormed) :
    type.IsException g lookup ↔ g.userKind id = some (.record .exception) := by
  rw [hg.userKind_eq_some_iff]
  unfold IsException
  rw [h.tree?_eq hg]
  constructor
  · rintro ⟨tree, name, program, ht, he⟩
    obtain rfl := Option.some.inj ht
    exact ⟨name, program, he⟩
  · rintro ⟨name, program, he⟩
    exact ⟨_, name, program, rfl, he⟩

end TypeExpr

namespace FunctionDecl

section Rules

variable (g : TypeGraph) (lookup : String → Option TypeId)

/-- What a function has to fulfil on its own, given what the names in it stand for. -/
structure Valid (decl : FunctionDecl) : Prop where
  returns : decl.returns = .void ∨ decl.returns.Resolves lookup
  oneway : decl.oneway = true → decl.returns = .void ∧ decl.throws = []
  params : ∀ field ∈ decl.params, field.type.Resolves lookup
  throws : ∀ field ∈ decl.throws, field.type.Resolves lookup
  exceptions : ∀ field ∈ decl.throws, field.type.IsException g lookup

/-- What is wrong with a function of a service, and where. -/
inductive Breaks (service : String) (earlier : List FunctionDecl) (decl : FunctionDecl) :
    Position → LinkFault → Prop
  | repeated {first : FunctionDecl} (hm : first ∈ earlier) (hn : first.name = decl.name) :
      Breaks service earlier decl decl.position
        (.repeatedFunction decl.name service first.position.line)
  | result {fault : LinkFault} (h : decl.returns ≠ .void)
      (hf : decl.returns.Unresolvable lookup fault) :
      Breaks service earlier decl decl.position fault
  | onewayResult (ho : decl.oneway = true) (h : decl.returns ≠ .void) :
      Breaks service earlier decl decl.position (.onewayResult decl.name)
  | onewayThrows (ho : decl.oneway = true) (h : decl.throws ≠ []) :
      Breaks service earlier decl decl.position (.onewayThrows decl.name)
  | field {field : FieldDecl} {fault : LinkFault} (hm : field ∈ decl.params ++ decl.throws)
      (hf : field.type.Unresolvable lookup fault) :
      Breaks service earlier decl field.position fault
  | notException {field : FieldDecl} {id : TypeId} (hm : field ∈ decl.throws)
      (hd : field.type.Denotes g lookup id) (hne : ¬ field.type.IsException g lookup) :
      Breaks service earlier decl field.position (.notAnException (g.name id) decl.name)

end Rules

theorem Breaks.of_subset {g : TypeGraph} {lookup : String → Option TypeId} {service : String}
    {earlier earlier' : List FunctionDecl} {decl : FunctionDecl} {position : Position}
    {fault : LinkFault} (h : decl.Breaks g lookup service earlier position fault)
    (hsub : earlier ⊆ earlier') : decl.Breaks g lookup service earlier' position fault := by
  cases h with
  | repeated hm hn => exact .repeated (hsub hm) hn
  | result h hf => exact .result h hf
  | onewayResult ho h => exact .onewayResult ho h
  | onewayThrows ho h => exact .onewayThrows ho h
  | field hm hf => exact .field hm hf
  | notException hm hd hne => exact .notException hm hd hne

/-- Different functions, none of them with the name of an earlier one. -/
def NewNames (earlier decls : List FunctionDecl) : Prop :=
  (decls.map (·.name)).Nodup ∧ ∀ decl ∈ decls, decl.name ∉ earlier.map (·.name)

theorem newNames_cons {earlier decls : List FunctionDecl} {decl : FunctionDecl} :
    NewNames earlier (decl :: decls) ↔
      decl.name ∉ earlier.map (·.name) ∧ NewNames (decl :: earlier) decls := by
  unfold NewNames
  rw [List.forall_mem_cons]
  simp only [List.map_cons, List.nodup_cons, List.mem_cons, not_or]
  constructor
  · rintro ⟨⟨hnew, hnd⟩, hdecl, hdecls⟩
    refine ⟨hdecl, hnd, fun d hd => ⟨?_, hdecls d hd⟩⟩
    intro he
    exact hnew (he ▸ List.mem_map_of_mem hd)
  · rintro ⟨hdecl, hnd, hdecls⟩
    refine ⟨⟨?_, hnd⟩, hdecl, fun d hd => (hdecls d hd).2⟩
    intro hm
    obtain ⟨d, hd, he⟩ := List.mem_map.1 hm
    exact (hdecls d hd).1 he

end FunctionDecl

namespace Linking

variable {st₀ st : LinkState} {program : ProgramId} {locate : Position → Location}
  {location : Location} {C D : Prop} {E E' : LoadError → TypeGraph → Prop} {α β : Type}

/-- A step succeeds exactly under a condition, and keeps the state of a program either way. -/
inductive Decided (st : LinkState) (program : ProgramId) (C : Prop)
    (E : LoadError → TypeGraph → Prop) : Except LoadError α × LinkState → Prop
  | ok {a : α} {st' : LinkState} (keeps : st.Keeps program st') (holds : C) :
      Decided st program C E (.ok a, st')
  | error {e : LoadError} {st' : LinkState} (keeps : st.Keeps program st') (fails : ¬ C)
      (blames : E e st'.types) : Decided st program C E (.error e, st')

namespace Decided

theorem imp {result : Except LoadError α × LinkState} (h : Decided st program C E result)
    (hc : C ↔ D) (he : ∀ e g, ¬ C → E e g → E' e g) : Decided st program D E' result := by
  cases h with
  | ok keeps holds => exact .ok keeps (hc.1 holds)
  | error keeps fails blames => exact .error keeps (mt hc.2 fails) (he _ _ fails blames)

theorem iff {result : Except LoadError α × LinkState} (h : Decided st program C E result)
    (hc : C ↔ D) : Decided st program D E result :=
  h.imp hc fun _ _ _ he => he

theorem isOk_iff {result : Except LoadError α × LinkState} (h : Decided st program C E result) :
    result.1.isOk = true ↔ C := by
  cases h with
  | ok keeps holds => simpa [Except.isOk, Except.toBool] using holds
  | error keeps fails blames => simpa [Except.isOk, Except.toBool] using fails

theorem pure (hst : st.WellFormed) (a : α) :
    Decided st program True E (exec (Pure.pure a : Linking α) st) :=
  .ok (.refl hst) trivial

theorem bind {x : Linking α} {f : α → Linking β} (hx : Decided st program C E (exec x st))
    (hf : ∀ a st', exec x st = (.ok a, st') → st.Keeps program st' → C →
      Decided st' program D E (exec (f a) st')) :
    Decided st program (C ∧ D) E (exec (x >>= f) st) := by
  rw [exec_bind]
  generalize exec x st = result at hx hf ⊢
  cases hx with
  | error keeps fails blames => exact .error keeps (fun h => fails h.1) blames
  | @ok a st' keeps holds =>
    have hnext := hf a st' rfl keeps holds
    dsimp only
    generalize exec (f a) st' = result at hnext ⊢
    cases hnext with
    | ok keeps' holds' => exact .ok (keeps.trans keeps') ⟨holds, holds'⟩
    | error keeps' fails blames => exact .error (keeps.trans keeps') (fun h => fails h.2) blames

/-- What is only made of the result does not matter. -/
theorem result {x : Linking α} (hx : Decided st program C E (exec x st)) (k : α → β) :
    Decided st program C E (exec (x >>= fun a => Pure.pure (k a)) st) := by
  refine (hx.bind fun a st' _ hk _ => Decided.pure hk.wellFormed (k a)).iff ?_
  exact iff_of_eq (and_true C)

theorem mapM {f : α → Linking β} {C : α → Prop} {E : α → LoadError → TypeGraph → Prop}
    (step : ∀ item st, st₀.Keeps program st →
      Decided st program (C item) (E item) (exec (f item) st))
    (items : List α) (hk : st₀.Keeps program st) :
    Decided st program (∀ item ∈ items, C item) (fun e g => ∃ item ∈ items, E item e g)
      (exec (items.mapM f) st) := by
  induction items generalizing st with
  | nil => exact (Decided.pure hk.wellFormed []).iff (by simp)
  | cons item items ih =>
    rw [List.mapM_cons]
    have hitem : Decided st program (C item) (fun e g => ∃ i ∈ item :: items, E i e g)
        (exec (f item) st) :=
      (step item st hk).imp Iff.rfl fun e g _ he => ⟨item, List.mem_cons_self, he⟩
    refine (hitem.bind (D := ∀ i ∈ items, C i) fun b st' _ hk' _ => ?_).iff ?_
    · refine ((ih (hk.trans hk')).imp Iff.rfl ?_).result _
      rintro e g - ⟨i, hi, he⟩
      exact ⟨i, List.mem_cons_of_mem _ hi, he⟩
    · rw [List.forall_mem_cons]

end Decided

theorem decided_refuseIf {fault : Option LinkFault} (hst : st.WellFormed) :
    Decided st program (fault = none)
      (fun e g => ∃ f, fault = some f ∧ e = .unlinkable location f ∧ g = st.types)
      (exec (refuseIf location fault) st) := by
  cases fault with
  | none => exact .ok (.refl hst) rfl
  | some f => exact .error (.refl hst) (by simp) ⟨f, rfl, rfl, rfl⟩

theorem decided_resolveKnown (hk : st₀.Keeps program st) (type : TypeExpr) :
    Decided st program (type.Resolves (st₀.lookupType program))
      (fun e _ => ∃ fault, e = .unlinkable location fault ∧
        type.Unresolvable (st₀.lookupType program) fault)
      (exec (resolveKnown program location type) st) := by
  obtain ⟨g, r, hgrow, hg, hout, he⟩ := resolve_cases hk.wellFormed program location type
  rw [hk.lookupType] at hout
  have hkeeps : st.Keeps program { st with types := g } := .setTypes hk.wellFormed hg hgrow
  unfold resolveKnown
  rw [exec_bind, he]
  cases hout with
  | void hv => exact .error hkeeps (fun hr => (hr _ hv).1 rfl) ⟨_, rfl, .void hv⟩
  | known hd => exact .ok hkeeps hd.resolves
  | unknown hv hm hn =>
    obtain ⟨missing, hmissing⟩ := TypeExpr.firstUnresolved_isSome.2 ⟨_, hm, hn⟩
    refine .error hkeeps (fun hr => hn (hr _ hm).2) ⟨_, rfl, ?_⟩
    have hsame : ({ st with types := g } : LinkState).lookupType program =
        st₀.lookupType program := hk.lookupType program
    rw [hsame, hmissing]
    exact .unknown hv hmissing

theorem decided_linkFields (hk : st₀.Keeps program st) (decls : List FieldDecl) :
    Decided st program (∀ field ∈ decls, field.type.Resolves (st₀.lookupType program))
      (fun e _ => ∃ field ∈ decls, ∃ fault, e = .unlinkable (locate field.position) fault ∧
        field.type.Unresolvable (st₀.lookupType program) fault)
      (exec (linkFields program locate decls) st) := by
  refine Decided.mapM (fun field st hk => ?_) decls hk
  exact (decided_resolveKnown hk field.type).result _

theorem decided_linkReturnType (hk : st₀.Keeps program st) (type : TypeExpr) :
    Decided st program (type = .void ∨ type.Resolves (st₀.lookupType program))
      (fun e _ => ∃ fault, e = .unlinkable location fault ∧ type ≠ .void ∧
        type.Unresolvable (st₀.lookupType program) fault)
      (exec (linkReturnType program location type) st) := by
  unfold linkReturnType
  by_cases hv : type = .void
  · rw [if_pos hv]
    exact (Decided.pure hk.wellFormed _).iff (by simp [hv])
  · rw [if_neg hv]
    refine (decided_resolveKnown hk type).imp (by simp [hv]) ?_
    rintro e g - ⟨fault, rfl, hf⟩
    exact ⟨fault, rfl, hv, hf⟩

/-- Only `void` itself is linked to the handle of `void`. -/
theorem linkReturnType_void_iff {type : TypeExpr} {id : TypeId} {st' : LinkState}
    (hst : st.WellFormed) (h : exec (linkReturnType program location type) st = (.ok id, st')) :
    id = Builtin.void.id ↔ type = .void := by
  obtain ⟨hk, ⟨rfl, rfl⟩ | ⟨hne, hd⟩⟩ := linkReturnType_ok hst h
  · exact ⟨fun _ => rfl, fun _ => rfl⟩
  · have husable : st'.types.Usable id :=
      hd.usable hk.wellFormed.types fun _ _ hs => hk.wellFormed.usable hs
    constructor
    · rintro rfl
      exact absurd (hk.wellFormed.types.node_builtin .void) husable.2
    · intro he
      exact absurd he hne

theorem onewayFault?_eq_none_iff {decl : FunctionDecl} {id : TypeId} :
    onewayFault? decl id = none ↔
      (decl.oneway = true → id = Builtin.void.id ∧ decl.throws = []) := by
  unfold onewayFault?
  cases decl.oneway <;> by_cases hid : id = Builtin.void.id <;>
    by_cases ht : decl.throws = [] <;> simp [hid, ht]

theorem isException_keeps {type : TypeExpr} (h₀ : st₀.WellFormed) (hk : st₀.Keeps program st) :
    type.IsException st.types (st₀.lookupType program) ↔
      type.IsException st₀.types (st₀.lookupType program) := by
  have hnames : (fun name => (st₀.lookupType program name).map st.types.tree) =
      fun name => (st₀.lookupType program name).map st₀.types.tree := by
    funext name
    cases hs : st₀.lookupType program name with
    | none => rfl
    | some id =>
      have hid : id < st₀.types.size := (h₀.usable hs).lt_size
      simp only [Option.map_some, hk.grows.tree_eq h₀.types hk.wellFormed.types hid]
  unfold TypeExpr.IsException
  rw [hnames]

theorem decided_checkThrown {decls : List FieldDecl} {fields : List Field} {function : String}
    {lookup : String → Option TypeId} (hst : st.WellFormed)
    (hf : List.Forall₂ (FieldLinked st.types lookup locate) decls fields) :
    Decided st program (∀ field ∈ decls, field.type.IsException st.types lookup)
      (fun e g => ∃ field ∈ decls, ∃ id, e = .unlinkable (locate field.position)
        (.notAnException (g.name id) function) ∧ field.type.Denotes g lookup id ∧
          ¬ field.type.IsException g lookup)
      (exec (fields.forM (checkThrown function)) st) := by
  induction hf with
  | nil => exact (Decided.pure hst _).iff (by simp)
  | @cons decl field decls fields hfield hrest ih =>
    have hlocation : field.location = locate decl.position := by rw [hfield.copied]
    have hcheck : Decided st program (decl.type.IsException st.types lookup)
        (fun e g => ∃ d ∈ decl :: decls, ∃ id, e = .unlinkable (locate d.position)
          (.notAnException (g.name id) function) ∧ d.type.Denotes g lookup id ∧
            ¬ d.type.IsException g lookup)
        (exec (checkThrown function field) st) := by
      have hkind := hfield.type.isException_iff hst.types
      unfold checkThrown
      rw [exec_bind_of_ok (exec_get st)]
      refine (decided_refuseIf hst).imp ?_ ?_
      · rw [hkind]
        unfold throwsFault?
        split <;> simp_all
      · rintro e g - ⟨fault, hfault, rfl, rfl⟩
        unfold throwsFault? at hfault
        split at hfault
        · cases hfault
        · next hne =>
          obtain rfl := Option.some.inj hfault
          exact ⟨decl, List.mem_cons_self, _, by rw [hlocation], hfield.type, mt hkind.1 hne⟩
    refine (hcheck.bind (D := ∀ d ∈ decls, d.type.IsException st.types lookup)
      fun u st' hu _ _ => ?_).iff ?_
    · obtain rfl := checkThrown_ok hu
      refine ih.imp Iff.rfl ?_
      rintro e g - ⟨d, hd, he⟩
      exact ⟨d, List.mem_cons_of_mem _ hd, he⟩
    · rw [List.forall_mem_cons]

/-- An error that is about a function, with what is wrong there. -/
def Blames (locate : Position → Location) (lookup : String → Option TypeId) (service : String)
    (earlier : List FunctionDecl) (decl : FunctionDecl) (e : LoadError) (g : TypeGraph) : Prop :=
  ∃ position fault, e = .unlinkable (locate position) fault ∧
    decl.Breaks g lookup service earlier position fault

theorem decided_oneway {decl : FunctionDecl} {id : TypeId} {lookup : String → Option TypeId}
    {service : String} {earlier : List FunctionDecl} (hst : st.WellFormed)
    (hvoid : id = Builtin.void.id ↔ decl.returns = .void) :
    Decided st program (decl.oneway = true → decl.returns = .void ∧ decl.throws = [])
      (Blames locate lookup service earlier decl)
      (exec (refuseIf (locate decl.position) (onewayFault? decl id)) st) := by
  refine (decided_refuseIf hst).imp (by rw [onewayFault?_eq_none_iff, hvoid]) ?_
  rintro e g - ⟨fault, hfault, rfl, rfl⟩
  refine ⟨decl.position, fault, rfl, ?_⟩
  unfold onewayFault? at hfault
  split at hfault
  · cases hfault
  · next ho =>
    have ho : decl.oneway = true := by simpa using ho
    split at hfault
    · next hne =>
      obtain rfl := Option.some.inj hfault
      exact .onewayResult ho (mt hvoid.2 hne)
    · split at hfault
      · next hne =>
        obtain rfl := Option.some.inj hfault
        exact .onewayThrows ho hne
      · cases hfault

theorem decided_linkMethod (h₀ : st₀.WellFormed) (hk : st₀.Keeps program st) (service : String)
    (earlier : List FunctionDecl) (decl : FunctionDecl) :
    Decided st program (decl.Valid st₀.types (st₀.lookupType program))
      (Blames locate (st₀.lookupType program) service earlier decl)
      (exec (linkMethod program locate decl) st) := by
  have hfields {st : LinkState} {fields : List FieldDecl} (hk : st₀.Keeps program st)
      (hsub : fields ⊆ decl.params ++ decl.throws) :
      Decided st program (∀ field ∈ fields, field.type.Resolves (st₀.lookupType program))
        (Blames locate (st₀.lookupType program) service earlier decl)
        (exec (linkFields program locate fields) st) := by
    refine (decided_linkFields hk fields).imp Iff.rfl ?_
    rintro e g - ⟨field, hm, fault, rfl, hf⟩
    exact ⟨_, _, rfl, .field (hsub hm) hf⟩
  have hreturn : Decided st program
      (decl.returns = .void ∨ decl.returns.Resolves (st₀.lookupType program))
      (Blames locate (st₀.lookupType program) service earlier decl)
      (exec (linkReturnType program (locate decl.position) decl.returns) st) := by
    refine (decided_linkReturnType hk decl.returns).imp Iff.rfl ?_
    rintro e g - ⟨fault, rfl, hne, hf⟩
    exact ⟨_, _, rfl, .result hne hf⟩
  unfold linkMethod
  refine (hreturn.bind (D := (decl.oneway = true → decl.returns = .void ∧ decl.throws = []) ∧
    (∀ field ∈ decl.params, field.type.Resolves (st₀.lookupType program)) ∧
    (∀ field ∈ decl.throws, field.type.Resolves (st₀.lookupType program)) ∧
    ∀ field ∈ decl.throws, field.type.IsException st₀.types (st₀.lookupType program))
    fun returnType st₁ h₁ hk₁ _ => ?_).iff ?_
  · have hvoid := linkReturnType_void_iff hk.wellFormed h₁
    have hk₁ := hk.trans hk₁
    have honeway : Decided st₁ program
        (decl.oneway = true → decl.returns = .void ∧ decl.throws = [])
        (Blames locate (st₀.lookupType program) service earlier decl)
        (exec (refuseIf (locate decl.position) (onewayFault? decl returnType)) st₁) :=
      decided_oneway hk₁.wellFormed hvoid
    refine honeway.bind fun _ st₂ _ hk₂ _ => ?_
    have hk₂ := hk₁.trans hk₂
    refine (hfields hk₂ (List.subset_append_left _ _)).bind fun params st₃ _ hk₃ _ => ?_
    have hk₃ := hk₂.trans hk₃
    refine (hfields hk₃ (List.subset_append_right _ _)).bind fun thrown st₄ h₄ hk₄ _ => ?_
    obtain ⟨-, hthrown⟩ := linkFields_ok hk₃.wellFormed h₄
    have hk₄ := hk₃.trans hk₄
    rw [hk₄.lookupType] at hthrown
    refine ((decided_checkThrown hk₄.wellFormed hthrown).imp ?_ ?_).result _
    · simp only [isException_keeps h₀ hk₄]
    · rintro e g - ⟨field, hm, id, rfl, hd, hne⟩
      exact ⟨_, _, rfl, .notException hm hd hne⟩
  · constructor
    · rintro ⟨hreturns, honeway, hparams, hthrows, hexceptions⟩
      exact ⟨hreturns, honeway, hparams, hthrows, hexceptions⟩
    · rintro ⟨hreturns, honeway, hparams, hthrows, hexceptions⟩
      exact ⟨hreturns, honeway, hparams, hthrows, hexceptions⟩

theorem decided_linkMethods (h₀ : st₀.WellFormed) (hk : st₀.Keeps program st) (service : String)
    (earlier decls : List FunctionDecl) :
    Decided st program (FunctionDecl.NewNames earlier decls ∧
        ∀ decl ∈ decls, decl.Valid st₀.types (st₀.lookupType program))
      (fun e g => ∃ before decl after, decls = before ++ decl :: after ∧
        FunctionDecl.NewNames earlier before ∧
        (∀ d ∈ before, d.Valid st₀.types (st₀.lookupType program)) ∧
        (decl.name ∈ (before ++ earlier).map (·.name) ∨
          ¬ decl.Valid st₀.types (st₀.lookupType program)) ∧
        Blames locate (st₀.lookupType program) service (before ++ earlier) decl e g)
      (exec (linkMethods program locate service earlier decls) st) := by
  induction decls generalizing st earlier with
  | nil => exact (Decided.pure hk.wellFormed []).iff (by simp [FunctionDecl.NewNames])
  | cons decl later ih =>
    unfold linkMethods
    cases hfind : earlier.find? (·.name = decl.name) with
    | some first =>
      have hm := List.mem_of_find?_eq_some hfind
      have hn : first.name = decl.name := by simpa using List.find?_some hfind
      have hmem : decl.name ∈ earlier.map (·.name) := hn ▸ List.mem_map_of_mem hm
      refine .error (.refl hk.wellFormed) (fun h => (FunctionDecl.newNames_cons.1 h.1).1 hmem) ?_
      refine ⟨[], decl, later, rfl, by simp [FunctionDecl.NewNames], by simp, .inl hmem, ?_⟩
      exact ⟨_, _, rfl, .repeated hm hn⟩
    | none =>
      have hnew : decl.name ∉ earlier.map (·.name) := by
        intro hm
        obtain ⟨first, hm, hn⟩ := List.mem_map.1 hm
        simpa [hn] using List.find?_eq_none.1 hfind first hm
      refine (((decided_linkMethod h₀ hk service earlier decl).imp Iff.rfl ?_).bind
        fun method st₁ _ hk₁ hvalid => ((ih (hk.trans hk₁) (decl :: earlier)).imp Iff.rfl ?_).result
          _).iff ?_
      · intro e g hinvalid hblames
        exact ⟨[], decl, later, rfl, by simp [FunctionDecl.NewNames], by simp, .inr hinvalid, hblames⟩
      · rintro e g - ⟨before, bad, after, rfl, hnames, hbefore, hbad, position, fault, rfl, hbreaks⟩
        have hmove : before ++ decl :: earlier ⊆ decl :: before ++ earlier := by
          intro d hd
          simp only [List.mem_append, List.mem_cons] at hd ⊢
          tauto
        refine ⟨decl :: before, bad, after, rfl, FunctionDecl.newNames_cons.2 ⟨hnew, hnames⟩,
          List.forall_mem_cons.2 ⟨hvalid, hbefore⟩, hbad.imp_left fun hm => ?_,
          position, fault, rfl, hbreaks.of_subset hmove⟩
        exact List.map_subset _ hmove hm
      · rw [FunctionDecl.newNames_cons, List.forall_mem_cons]
        tauto

/-- Linking methods succeeds exactly for valid functions with different names. Otherwise the error
is about the first function that is not valid or repeats a name. -/
theorem linkMethods_valid_iff (st : LinkState) (hst : st.WellFormed) (program : ProgramId)
    (locate : Position → Location) (service : String) (decls : List FunctionDecl) :
    let lookup := st.lookupType program
    let run := exec (linkMethods program locate service [] decls) st
    (run.1.isOk = true ↔
      (decls.map (·.name)).Nodup ∧ ∀ decl ∈ decls, decl.Valid st.types lookup) ∧
    (∀ methods st', run = (.ok methods, st') →
      List.Forall₂ (MethodLinked st'.types lookup locate) decls methods) ∧
    (∀ e st', run = (.error e, st') →
      ∃ before decl after, decls = before ++ decl :: after ∧ (before.map (·.name)).Nodup ∧
        (∀ d ∈ before, d.Valid st.types lookup) ∧
        (decl.name ∈ before.map (·.name) ∨ ¬ decl.Valid st.types lookup) ∧
        ∃ position fault, e = .unlinkable (locate position) fault ∧
          decl.Breaks st'.types lookup service before position fault) := by
  intro lookup run
  have hdecided : Decided st program _ _ run :=
    decided_linkMethods hst (.refl hst) service [] decls
  have hnames (decls : List FunctionDecl) :
      FunctionDecl.NewNames [] decls ↔ (decls.map (·.name)).Nodup := by
    simp [FunctionDecl.NewNames]
  refine ⟨?_, ?_, ?_⟩
  · rw [← hnames]
    exact hdecided.isOk_iff
  · intro methods st' h
    obtain ⟨hk, hlinked⟩ := linkMethods_ok hst h
    rwa [hk.lookupType] at hlinked
  · intro e st' h
    rw [h] at hdecided
    cases hdecided with
    | error keeps fails blames =>
      obtain ⟨before, decl, after, hsplit, hnew, hvalid, hbad, position, fault, he, hbreaks⟩ :=
        blames
      rw [List.append_nil] at hbad hbreaks
      exact ⟨before, decl, after, hsplit, (hnames before).1 hnew, hvalid, hbad, position, fault,
        he, hbreaks⟩

/-- An exception, and a typedef of it. -/
def failures : LinkState :=
  let st := (LinkState.ofPrograms [.ofDocument .here ⟨"pages.thrift", []⟩]).defineUser 0
    ("Oops", .record .exception)
  let name := "Failure"
  let interned := st.types.intern (.typedef name 10 0)
  ({ st with types := interned.2 }).defineType 0 name interned.1

theorem failures_wellFormed : failures.WellFormed := by
  have h₀ : (LinkState.ofPrograms [.ofDocument .here ⟨"pages.thrift", []⟩]).WellFormed :=
    LinkState.wellFormed_ofPrograms (by simp [Program.ofDocument])
  have h₁ := (LinkState.Defines.defineUser h₀ 0 ("Oops", .record .exception)).wellFormed
  refine (LinkState.Defines.declare h₁ ?_ (.inr ⟨10, TypeGraph.node_intern _ _⟩)).wellFormed
  intro child hchild
  obtain rfl := List.mem_singleton.1 hchild
  exact ⟨by decide, by decide⟩

def thrownField (type : TypeExpr) : FieldDecl := ⟨⟨2, 5⟩, "", some 1, 1, .unstated, type, "e"⟩

def ping : FunctionDecl := ⟨⟨1, 1⟩, "", true, .void, "ping", [], []⟩

def fetch : FunctionDecl :=
  ⟨⟨1, 9⟩, "", false, .list (.named "i8"), "fetch", [], [thrownField (.named "Failure")]⟩

def store : FunctionDecl :=
  ⟨⟨2, 1⟩, "", false, .void, "store", [], [thrownField (.list (.named "Oops"))]⟩

theorem failures_linked : failures.WellFormed ∧
    (([ping, fetch].map (·.name)).Nodup ∧
      ∀ decl ∈ [ping, fetch], decl.Valid failures.types (failures.lookupType 0)) ∧
    (exec (linkMethods 0 (Location.mk "pages.thrift") "Pages" [] [ping, fetch, store]) failures).1 =
      .error (.unlinkable ⟨"pages.thrift", ⟨2, 5⟩⟩ (.notAnException "list<Oops>" "store")) ∧
    ¬ store.Valid failures.types (failures.lookupType 0) := by
  obtain ⟨hgood, -, -⟩ := linkMethods_valid_iff failures failures_wellFormed 0
    (Location.mk "pages.thrift") "Pages" [ping, fetch]
  obtain ⟨hall, -, -⟩ := linkMethods_valid_iff failures failures_wellFormed 0
    (Location.mk "pages.thrift") "Pages" [ping, fetch, store]
  have hvalid := hgood.1 (by cbv)
  have hfails : (exec (linkMethods 0 (Location.mk "pages.thrift") "Pages" [] [ping, fetch, store])
      failures).1 = .error (.unlinkable ⟨"pages.thrift", ⟨2, 5⟩⟩
        (.notAnException "list<Oops>" "store")) := by cbv
  refine ⟨failures_wellFormed, hvalid, hfails, ?_⟩
  intro hstore
  have hok := hall.2 ⟨by decide, ?_⟩
  · rw [hfails] at hok
    cases hok
  · intro decl hm
    simp only [List.mem_cons, List.not_mem_nil, or_false] at hm
    rcases hm with rfl | rfl | rfl
    · exact hvalid.2 ping (by simp)
    · exact hvalid.2 fetch (by simp)
    · exact hstore

end Linking

end ThriftIdl
