import ThriftIdl.Linking.Program
import ThriftIdl.Proofs.LinkedDeclarations
import ThriftIdl.Proofs.SymbolTables
import ThriftIdl.Proofs.UnplacedTypes

namespace ThriftIdl

namespace LinkState

/-- What a program's own name for a type stands for. -/
def offered (st : LinkState) (program : ProgramId) (name : String) : Option TypeTree :=
  (st.programs[program]?.bind (·.typeSymbol name)).map st.types.form

/-- What a name for a type stands for in the programs that a program includes. -/
def inherited (st : LinkState) (program : ProgramId) (name : String) : Option TypeTree :=
  (st.programs[program]?.bind fun p =>
    includedSymbol Program.typeSymbol st.programs p name).map st.types.form

/-- A program is there, and does not include itself. -/
def Apart (st : LinkState) (program : ProgramId) : Prop :=
  ∃ p, st.programs[program]? = some p ∧ ∀ inc ∈ p.includes, inc.target ≠ program

/-- Later on there are more types, but the programs still have the symbols they had. -/
structure Later (st t : LinkState) : Prop where
  types : st.types.Evolves t.types
  before : st.WellFormed
  after : t.WellFormed
  outline : ∀ i : ProgramId, t.programs[i]?.map Program.outline = st.programs[i]?.map Program.outline

def document (st : LinkState) (program : ProgramId) : Option Document :=
  st.programs[program]?.map Program.document

/-- Two programs in two states of linking were read from the same text, and every name for a type
stands for the same in them. -/
structure InStep (program program' : ProgramId) (st st' : LinkState) : Prop where
  wellFormed : st.WellFormed
  wellFormed' : st'.WellFormed
  document : st.document program = st'.document program'
  offered : ∀ name, st.offered program name = st'.offered program' name
  inherited : ∀ name, st.inherited program name = st'.inherited program' name
  apart : st.Apart program
  apart' : st'.Apart program'

section Symbols

variable {st t st' t' : LinkState} {program program' : ProgramId} {name : String} {id id' : TypeId}

theorem lookupType_form (st : LinkState) (program : ProgramId) (name : String) :
    (st.lookupType program name).map st.types.form =
      (st.offered program name).or (st.inherited program name) := by
  unfold LinkState.lookupType offered inherited
  cases hp : st.programs[program]? with
  | none => simp [lookupType_none hp]
  | some p => rw [lookupType_eq hp, Option.map_or, Option.bind_some, Option.bind_some]

theorem form_eq {g h : TypeGraph} (hgh : g.Evolves h) {symbol symbol' : Option TypeId}
    (hs : symbol' = symbol) (hknown : ∀ id, symbol = some id → g.Usable id) :
    symbol'.map h.form = symbol.map g.form := by
  subst hs
  cases symbol' with
  | none => rfl
  | some id => rw [Option.map_some, Option.map_some, hgh.form (hknown id rfl).lt_size]

theorem WellFormed.own_usable (h : st.WellFormed)
    (hid : (st.programs[program]?.bind (·.typeSymbol name)) = some id) : st.types.Usable id := by
  obtain ⟨p, hp, hs⟩ := Option.bind_eq_some_iff.1 hid
  exact (h.symbols program p hp name id hs).usable

theorem WellFormed.included_usable (h : st.WellFormed)
    (hid : (st.programs[program]?.bind fun p =>
      includedSymbol Program.typeSymbol st.programs p name) = some id) : st.types.Usable id := by
  obtain ⟨p, hp, hs⟩ := Option.bind_eq_some_iff.1 hid
  obtain ⟨inc, -, q, hq, name', hs⟩ := includedSymbol_eq_some hs
  exact (h.symbols inc.target q hq name' id hs).usable

theorem offered_of_same (hst : st.WellFormed) (hev : st.types.Evolves t.types)
    (hp : t.programs[program]? = st.programs[program]?) (name : String) :
    t.offered program name = st.offered program name := by
  refine form_eq hev ?_ fun id hid => hst.own_usable hid
  rw [hp]

theorem Keeps.later (h : st.Keeps program t) (hst : st.WellFormed) : st.Later t :=
  ⟨⟨h.grows, hst.types, h.wellFormed.types⟩, hst, h.wellFormed, h.outline⟩

namespace Later

theorem scope (h : st.Later t) (i : ProgramId) :
    t.programs[i]?.map Program.scope = st.programs[i]?.map Program.scope := by
  rw [Program.map_scope, h.outline, ← Program.map_scope]

theorem document (h : st.Later t) (program : ProgramId) :
    t.document program = st.document program := by
  have hoption (p : Option Program) :
      p.map Program.document = (p.map Program.outline).map Program.document := by cases p <;> rfl
  unfold LinkState.document
  rw [hoption, h.outline, ← hoption]

theorem offered (h : st.Later t) (program : ProgramId) (name : String) :
    t.offered program name = st.offered program name := by
  refine form_eq h.types ?_ fun id hid => h.before.own_usable hid
  · have hs := h.scope program
    cases hp' : t.programs[program]? <;> cases hp : st.programs[program]? <;>
      simp only [hp, hp', Option.map_some, Option.map_none, Option.some.injEq, reduceCtorEq] at hs
    · rfl
    · rw [Option.bind_some, Option.bind_some, Program.typeSymbol_of_scope hs]

theorem inherited (h : st.Later t) (program : ProgramId) (name : String) :
    t.inherited program name = st.inherited program name := by
  refine form_eq h.types ?_ fun id hid => h.before.included_usable hid
  · have hs := h.scope program
    cases hp' : t.programs[program]? <;> cases hp : st.programs[program]? <;>
      simp only [hp, hp', Option.map_some, Option.map_none, Option.some.injEq, reduceCtorEq] at hs
    · rfl
    · rw [Option.bind_some, Option.bind_some]
      simp only [Program.scope, Prod.mk.injEq] at hs
      exact includedSymbol_congr hs.2.1.symm fun inc _ => h.scope inc.target

theorem apart (h : st.Later t) (ha : st.Apart program) : t.Apart program := by
  obtain ⟨p, hp, hself⟩ := ha
  have hs := h.scope program
  rw [hp, Option.map_some] at hs
  obtain ⟨q, hq, hs⟩ := Option.map_eq_some_iff.1 hs
  simp only [Program.scope, Prod.mk.injEq] at hs
  refine ⟨q, hq, ?_⟩
  rw [hs.2.1]
  exact hself

end Later

theorem Defines.evolves {added : List (String × TypeId)} (hd : st.Defines program added t)
    (hst : st.WellFormed) : st.types.Evolves t.types :=
  ⟨hd.grows, hst.types, hd.wellFormed.types⟩

theorem Defines.document {added : List (String × TypeId)} (hd : st.Defines program added t)
    (i : ProgramId) : t.document i = st.document i := by
  unfold LinkState.document
  rw [hd.programs]
  by_cases hi : program = i
  · subst hi
    rw [List.getElem?_modify_eq]
    cases st.programs[program]? <;> rfl
  · rw [List.getElem?_modify_ne _ _ hi]

theorem Defines.known (hd : st.Defines program [(name, id)] t) (ha : st.Apart program) :
    id < t.types.size := by
  obtain ⟨p, hp, -⟩ := ha
  have hs : (p.withTypes [(name, id)]).typeSymbol name = some id := by
    simp [Program.typeSymbol, Program.withTypes]
  exact (hd.wellFormed.symbols program _ (hd.own hp) name id hs).usable.lt_size

namespace InStep

theorem lookup (h : InStep program program' st st') (name : String) :
    (st.lookupType program name).map st.types.form =
      (st'.lookupType program' name).map st'.types.form := by
  rw [lookupType_form, lookupType_form, h.offered, h.inherited]

theorem later (h : InStep program program' st st') (ht : st.Later t) (ht' : st'.Later t') :
    InStep program program' t t' where
  wellFormed := ht.after
  wellFormed' := ht'.after
  document := by rw [ht.document, ht'.document, h.document]
  offered name := by rw [ht.offered, ht'.offered, h.offered]
  inherited name := by rw [ht.inherited, ht'.inherited, h.inherited]
  apart := ht.apart h.apart
  apart' := ht'.apart h.apart'

theorem offered_define (ha : st.Apart program) (hd : st.Defines program [(name, id)] t)
    (hst : st.WellFormed) (other : String) :
    t.offered program other =
      if other = name then some (t.types.form id) else st.offered program other := by
  obtain ⟨p, hp, -⟩ := ha
  by_cases he : other = name
  · subst he
    rw [if_pos rfl]
    unfold LinkState.offered
    rw [hd.own hp, Option.bind_some]
    simp [Program.typeSymbol, Program.withTypes]
  · rw [if_neg he]
    refine form_eq (hd.evolves hst) ?_ fun id hid => hst.own_usable hid
    have hne : (other == name) = false := by simpa using he
    rw [hd.own hp, hp, Option.bind_some, Option.bind_some]
    simp [Program.typeSymbol, Program.withTypes, List.lookup_cons, hne]

theorem inherited_define (ha : st.Apart program) (hd : st.Defines program [(name, id)] t)
    (hst : st.WellFormed) (other : String) :
    t.inherited program other = st.inherited program other := by
  obtain ⟨p, hp, hself⟩ := ha
  refine form_eq (hd.evolves hst) ?_ fun id hid => hst.included_usable hid
  rw [hd.own hp, hp, Option.bind_some, Option.bind_some]
  apply includedSymbol_of_same
  · rfl
  · intro inc hinc
    exact hd.others (hself inc hinc)

theorem define (h : InStep program program' st st') (hd : st.Defines program [(name, id)] t)
    (hd' : st'.Defines program' [(name, id')] t') (hform : t.types.form id = t'.types.form id') :
    InStep program program' t t' := by
  refine ⟨hd.wellFormed, hd'.wellFormed, ?_, ?_, ?_, ?_, ?_⟩
  · rw [hd.document, hd'.document, h.document]
  · intro other
    rw [offered_define h.apart hd h.wellFormed, offered_define h.apart' hd' h.wellFormed',
      h.offered, hform]
  · intro other
    rw [inherited_define h.apart hd h.wellFormed, inherited_define h.apart' hd' h.wellFormed',
      h.inherited]
  · obtain ⟨p, hp, hself⟩ := h.apart
    exact ⟨_, hd.own hp, hself⟩
  · obtain ⟨p, hp, hself⟩ := h.apart'
    exact ⟨_, hd'.own hp, hself⟩

end InStep

end Symbols

end LinkState

namespace Linking

open LinkState (InStep)
open TypeGraph (Alike)

section Rules

variable {α β γ δ : Type} {i i' : ProgramId} {st st' : LinkState} {x : Linking α} {x' : Linking β}
  {f : α → Linking γ} {f' : β → Linking δ} {a : α} {a' : β}
  {V : TypeGraph → TypeGraph → α → β → Prop} {W : TypeGraph → TypeGraph → γ → δ → Prop}

/-- If a run gives something, then so does another one in another state. What they give is related,
and the programs are still in step. -/
def Follows (i i' : ProgramId) (V : TypeGraph → TypeGraph → α → β → Prop) (x : Linking α)
    (x' : Linking β) (st st' : LinkState) : Prop :=
  ∀ a t, exec x st = (.ok a, t) → ∃ a' t', exec x' st' = (.ok a', t') ∧ InStep i i' t t' ∧
    st.types.Evolves t.types ∧ st'.types.Evolves t'.types ∧ V t.types t'.types a a'

def Persists (V : TypeGraph → TypeGraph → α → β → Prop) : Prop :=
  ∀ g g' h h' a a', g.Evolves h → g'.Evolves h' → V g g' a a' → V h h' a a'

namespace Follows

theorem pure (h : InStep i i' st st') (hV : V st.types st'.types a a') :
    Follows i i' V (pure a) (pure a') st st' := by
  intro b t hx
  obtain ⟨rfl, rfl⟩ := exec_pure_ok_iff.1 hx
  exact ⟨a', st', exec_pure a' st', h, .refl h.wellFormed.types, .refl h.wellFormed'.types, hV⟩

theorem throw {e : LoadError} : Follows i i' V (throw e) x' st st' := by
  intro a t hx
  simp at hx

theorem bind (hx : Follows i i' V x x' st st')
    (hf : ∀ a a' t t', InStep i i' t t' → st.types.Evolves t.types → st'.types.Evolves t'.types →
      V t.types t'.types a a' → Follows i i' W (f a) (f' a') t t') :
    Follows i i' W (x >>= f) (x' >>= f') st st' := by
  intro c u hrun
  obtain ⟨a, t, hrun₁, hrun₂⟩ := exec_bind_ok_iff.1 hrun
  obtain ⟨a', t', hrun₁', hstep, he, he', hV⟩ := hx a t hrun₁
  obtain ⟨c', u', hrun₂', hstep', hu, hu', hW⟩ := hf a a' t t' hstep he he' hV c u hrun₂
  exact ⟨c', u', exec_bind_ok_iff.2 ⟨a', t', hrun₁', hrun₂'⟩, hstep', he.trans hu, he'.trans hu',
    hW⟩

theorem get {f : LinkState → Linking γ} {f' : LinkState → Linking δ}
    (hf : Follows i i' W (f st) (f' st') st st') :
    Follows i i' W (MonadState.get >>= f) (MonadState.get >>= f') st st' := by
  intro c t hrun
  rw [exec_bind_of_ok (exec_get st)] at hrun
  obtain ⟨c', t', hrun', h⟩ := hf c t hrun
  rw [← exec_bind_of_ok (f := f') (exec_get st')] at hrun'
  exact ⟨c', t', hrun', h⟩

theorem of_exec {y : Linking α} {y' : Linking β} {s s' : LinkState} (hx : exec x st = exec y s)
    (hx' : exec x' st' = exec y' s') (hs : s.types = st.types) (hs' : s'.types = st'.types)
    (h : Follows i i' V y y' s s') : Follows i i' V x x' st st' := by
  unfold Follows at *
  rwa [hx, hx', ← hs, ← hs']

theorem mapM {Q : α → β → Prop} {items : List α} {items' : List β} (hW : Persists W)
    (hitems : List.Forall₂ Q items items') (h : InStep i i' st st')
    (hf : ∀ item item' t t', Q item item' → InStep i i' t t' → st.types.Evolves t.types →
      st'.types.Evolves t'.types → Follows i i' W (f item) (f' item') t t') :
    Follows i i' (fun g g' => List.Forall₂ (W g g')) (items.mapM f) (items'.mapM f') st st' := by
  induction hitems generalizing st st' with
  | nil => exact pure h .nil
  | @cons item item' items items' hitem _ ih =>
    rw [List.mapM_cons, List.mapM_cons]
    apply bind (hf item item' st st' hitem h (.refl h.wellFormed.types) (.refl h.wellFormed'.types))
    intro c c' t t' hstep he he' hc
    apply bind (ih hstep fun item item' u u' hitem hu hev hev' =>
      hf item item' u u' hitem hu (he.trans hev) (he'.trans hev'))
    intro cs cs' u u' hstep' hev hev' hcs
    exact pure hstep' (.cons (hW _ _ _ _ c c' hev hev' hc) hcs)

theorem forM {Q : α → β → Prop} {items : List α} {items' : List β} {f : α → Linking PUnit}
    {f' : β → Linking PUnit} (hitems : List.Forall₂ Q items items') (h : InStep i i' st st')
    (hf : ∀ item item' t t', Q item item' → InStep i i' t t' → st.types.Evolves t.types →
      st'.types.Evolves t'.types → Follows i i' (fun _ _ _ _ => True) (f item) (f' item') t t') :
    Follows i i' (fun _ _ _ _ => True) (items.forM f) (items'.forM f') st st' := by
  induction hitems generalizing st st' with
  | nil => exact pure h trivial
  | @cons item item' items items' hitem _ ih =>
    apply bind (hf item item' st st' hitem h (.refl h.wellFormed.types) (.refl h.wellFormed'.types))
    intro _ _ t t' hstep he he' _
    apply ih hstep
    intro item item' u u' hitem hu hev hev'
    exact hf item item' u u' hitem hu (he.trans hev) (he'.trans hev')

end Follows

end Rules

end Linking

end ThriftIdl
