import ThriftIdl.Linking.Names
import ThriftIdl.Proofs.LinkStates

namespace ThriftIdl

def Program.withTypes (p : Program) (added : List (String × TypeId)) : Program :=
  { p with types := added ++ p.types }

theorem lookup_isSome {α β : Type} [BEq α] [LawfulBEq α] {pairs : List (α × β)} {key : α} :
    (pairs.lookup key).isSome ↔ key ∈ pairs.map Prod.fst := by
  rw [List.lookup_isSome_iff, List.mem_map]
  constructor
  · rintro ⟨pair, hm, he⟩
    exact ⟨pair, hm, (beq_iff_eq.1 he).symm⟩
  · rintro ⟨pair, hm, rfl⟩
    exact ⟨pair, hm, beq_self_eq_true _⟩

theorem lookup_eq_some_iff_mem {α β : Type} [BEq α] [LawfulBEq α] {pairs : List (α × β)}
    {key : α} {value : β} (h : (pairs.map Prod.fst).Nodup) :
    pairs.lookup key = some value ↔ (key, value) ∈ pairs := by
  induction pairs with
  | nil => simp
  | cons pair pairs ih =>
    obtain ⟨first, v⟩ := pair
    obtain ⟨hnew, hnd⟩ := List.nodup_cons.1 h
    rw [List.lookup_cons, List.mem_cons, Prod.mk.injEq]
    by_cases he : key = first
    · subst he
      have hm : (key, value) ∉ pairs := fun hm => hnew (List.mem_map.2 ⟨_, hm, rfl⟩)
      simp [hm, eq_comm]
    · have hne : (key == first) = false := by simpa using he
      simp [hne, he, ih hnd]

namespace LinkState

/-- Some types of a program get their symbols, the newest first. All else stays as it was. -/
structure Defines (st : LinkState) (program : ProgramId) (added : List (String × TypeId))
    (st' : LinkState) : Prop where
  wellFormed : st'.WellFormed
  grows : st.types.Grows st'.types
  programs : st'.programs = st.programs.modify program (·.withTypes added)

variable {st st' st'' : LinkState} {program : ProgramId} {p : Program} {name : String} {id : TypeId}
  {added added' : List (String × TypeId)}

namespace Defines

theorem refl (h : st.WellFormed) : st.Defines program [] st := by
  refine ⟨h, .refl _, ?_⟩
  have hf : (fun p : Program => p.withTypes []) = id := rfl
  rw [hf, List.modify_id]

theorem trans (h : st.Defines program added st') (h' : st'.Defines program added' st'') :
    st.Defines program (added' ++ added) st'' := by
  refine ⟨h'.wellFormed, h.grows.trans h'.grows, ?_⟩
  have hf : (fun p : Program => p.withTypes added') ∘ (fun p : Program => p.withTypes added) =
      fun p : Program => p.withTypes (added' ++ added) := by
    funext p
    simp [Program.withTypes]
  rw [h'.programs, h.programs, List.modify_modify_eq, hf]

theorem others (h : st.Defines program added st') {i : ProgramId} (hi : i ≠ program) :
    st'.programs[i]? = st.programs[i]? := by
  rw [h.programs, List.getElem?_modify_ne _ _ hi.symm]

theorem own (h : st.Defines program added st') (hp : st.programs[program]? = some p) :
    st'.programs[program]? = some (p.withTypes added) := by
  rw [h.programs, List.getElem?_modify_eq, hp]
  rfl

theorem lookupType (h : st.Defines program added st') (hp : st.programs[program]? = some p)
    (hself : ∀ inc ∈ p.includes, inc.target ≠ program) (name : String) :
    st'.lookupType program name = (added.lookup name).or (st.lookupType program name) := by
  have hi : includedSymbol Program.typeSymbol st'.programs (p.withTypes added) name =
      includedSymbol Program.typeSymbol st.programs p name := by
    apply includedSymbol_congr
    · rfl
    · intro inc hinc
      rw [h.others (hself inc hinc)]
  unfold LinkState.lookupType
  rw [lookupType_eq hp, lookupType_eq (h.own hp), hi, ← Option.or_assoc]
  simp [Program.typeSymbol, Program.withTypes, List.lookup_append]

theorem setTypes {g : TypeGraph} (h : st.WellFormed) (hg : g.WellFormed)
    (hgrow : st.types.Grows g) : st.Defines program [] { st with types := g } := by
  have hr : st.Defines program [] st := refl h
  exact ⟨h.setTypes hg hgrow, hgrow, hr.programs⟩

theorem defineType (h : st.WellFormed) (hd : st.types.Declares id name program) :
    st.Defines program [(name, id)] (st.defineType program name id) := by
  refine ⟨⟨h.types, ?_⟩, .refl _, rfl⟩
  intro i q hq name' id' hs
  have hp : (st.programs.modify program fun p => p.defineType name id)[i]? = some q := hq
  by_cases hi : i = program
  · subst hi
    rw [List.getElem?_modify_eq] at hp
    obtain ⟨p, hown, rfl⟩ := Option.map_eq_some_iff.1 hp
    simp only [Program.typeSymbol, Program.defineType, List.lookup_cons] at hs
    split at hs
    · next hn =>
      obtain rfl : name' = name := by simpa using hn
      obtain rfl : id = id' := by simpa using hs
      exact hd
    · exact h.symbols i p hown name' id' hs
  · rw [List.getElem?_modify_ne _ _ (Ne.symm hi)] at hp
    exact h.symbols i q hp name' id' hs

theorem declare {node : TypeNode} (h : st.WellFormed)
    (hchildren : ∀ child ∈ node.children, st.types.Usable child)
    (hd : (st.types.intern node).2.Declares (st.types.intern node).1 name program) :
    st.Defines program [(name, (st.types.intern node).1)]
      (({ st with types := (st.types.intern node).2 } : LinkState).defineType program name
        (st.types.intern node).1) := by
  have h₁ : st.Defines program [] { st with types := (st.types.intern node).2 } :=
    setTypes h (h.types.intern hchildren) (st.types.grows_intern node)
  exact h₁.trans (defineType h₁.wellFormed hd)

theorem defineUser (h : st.WellFormed) (program : ProgramId) (user : String × UserKind) :
    st.Defines program [(user.1, (st.types.intern (.user user.1 user.2 program)).1)]
      (st.defineUser program user) := by
  refine declare h (by simp [TypeNode.children]) (.inl ⟨user.2, ?_⟩)
  exact st.types.node_intern _

theorem defineUsers (h : st.WellFormed) (users : List (String × UserKind)) :
    ∃ added, st.Defines program added (users.foldl (.defineUser program) st) ∧
      added.map Prod.fst = (users.map Prod.fst).reverse := by
  induction users generalizing st with
  | nil => exact ⟨[], refl h, rfl⟩
  | cons user users ih =>
    have h₁ := defineUser h program user
    obtain ⟨added, h₂, hn⟩ := ih h₁.wellFormed
    refine ⟨added ++ [(user.1, _)], h₁.trans h₂, ?_⟩
    simp [hn]

end Defines

/-- The name of one of a program's own enums or records stands for it. -/
def NamesUser (st : LinkState) (program : ProgramId) (user : String × UserKind) : Prop :=
  ∃ p id, st.programs[program]? = some p ∧ p.typeSymbol user.1 = some id ∧
    st.types.node id = .user user.1 user.2 program

namespace NamesUser

variable {user : String × UserKind}

theorem mono (h : st.NamesUser program user) (hgrow : st.types.Grows st'.types)
    (hp : st'.programs[program]?.map Program.scope = st.programs[program]?.map Program.scope) :
    st'.NamesUser program user := by
  obtain ⟨p, id, hp₀, hs, hn⟩ := h
  rw [hp₀] at hp
  obtain ⟨q, hq, he⟩ := Option.map_eq_some_iff.1 hp
  refine ⟨q, id, hq, ?_, ?_⟩
  · rw [Program.typeSymbol_of_scope he, hs]
  · rw [hgrow.node_of_ne (by simp [hn]), hn]

theorem defines (h : st.NamesUser program user) (hd : st.Defines program added st')
    (hnew : user.1 ∉ added.map Prod.fst) : st'.NamesUser program user := by
  obtain ⟨p, id, hp, hs, hn⟩ := h
  refine ⟨p.withTypes added, id, hd.own hp, ?_, ?_⟩
  · have hnone : added.lookup user.1 = none := by
      rw [← Option.not_isSome_iff_eq_none, lookup_isSome]
      exact hnew
    unfold Program.typeSymbol Program.withTypes at *
    rw [List.lookup_append, hnone, Option.none_or, hs]
  · rw [hd.grows.node_of_ne (by simp [hn]), hn]

theorem of_defineUser (hp : st.programs[program]? = some p) (user : String × UserKind) :
    (st.defineUser program user).NamesUser program user := by
  refine ⟨p.defineType user.1 (st.types.intern (.user user.1 user.2 program)).1, _, ?_, ?_,
    st.types.node_intern _⟩
  · change (st.programs.modify program _)[program]? = _
    rw [List.getElem?_modify_eq, hp]
    rfl
  · simp [Program.typeSymbol, Program.defineType]

theorem of_defineUsers (hst : st.WellFormed) (hp : st.programs[program]? = some p)
    {users : List (String × UserKind)} (hnd : (users.map Prod.fst).Nodup) :
    ∀ user ∈ users, (users.foldl (.defineUser program) st).NamesUser program user := by
  induction users generalizing st p with
  | nil => simp
  | cons first users ih =>
    have hd := Defines.defineUser hst program first
    obtain ⟨hnew, hnd⟩ := List.nodup_cons.1 hnd
    intro user hm
    rcases List.mem_cons.1 hm with rfl | hm
    · obtain ⟨added, hd', hnames⟩ := Defines.defineUsers hd.wellFormed users
      refine (of_defineUser hp user).defines hd' ?_
      rw [hnames, List.mem_reverse]
      exact hnew
    · exact ih hd.wellFormed (hd.own hp) hnd user hm

theorem lookupType (h : st.NamesUser program user) :
    st.types.node ((st.lookupType program user.1).getD 0) = .user user.1 user.2 program := by
  obtain ⟨p, id, hp, hs, hn⟩ := h
  unfold LinkState.lookupType
  rw [lookupType_eq hp, hs]
  exact hn

end NamesUser

end LinkState

namespace Linking

variable {st st' : LinkState} {program : ProgramId} {p : Program} {u : Unit}

theorem exec_defineUserTypes_of_fault {position : Position} {fault : LinkFault}
    (hp : st.programs[program]? = some p)
    (h : nameFault? [] (definitions p.document) = some (position, fault)) :
    exec (defineUserTypes program) st = (.error (.unlinkable (p.locate position) fault), st) := by
  unfold defineUserTypes
  rw [exec_bind_of_ok (exec_get st), hp]
  dsimp only
  rw [h]
  rfl

theorem exec_defineUserTypes_of_none (hp : st.programs[program]? = some p)
    (h : nameFault? [] (definitions p.document) = none) :
    exec (defineUserTypes program) st =
      (.ok ⟨⟩, (userTypes p.document).foldl (.defineUser program) st) := by
  unfold defineUserTypes
  rw [exec_bind_of_ok (exec_get st), hp]
  dsimp only
  rw [h]
  rfl

theorem exec_defineUserTypes (hp : st.programs[program]? = some p)
    (h : exec (defineUserTypes program) st = (.ok u, st')) :
    nameFault? [] (definitions p.document) = none ∧
      st' = (userTypes p.document).foldl (.defineUser program) st := by
  cases hf : nameFault? [] (definitions p.document) with
  | some found =>
    rw [exec_defineUserTypes_of_fault hp hf] at h
    cases h
  | none =>
    rw [exec_defineUserTypes_of_none hp hf] at h
    exact ⟨rfl, (Prod.mk.inj h).2.symm⟩

theorem defineUserTypes_ok (hst : st.WellFormed) (hp : st.programs[program]? = some p)
    (h : exec (defineUserTypes program) st = (.ok u, st')) :
    nameFault? [] (definitions p.document) = none ∧
      ∃ added, st.Defines program added st' ∧
        added.map Prod.fst = ((userTypes p.document).map Prod.fst).reverse := by
  obtain ⟨hn, rfl⟩ := exec_defineUserTypes hp h
  exact ⟨hn, LinkState.Defines.defineUsers hst _⟩

end Linking

end ThriftIdl
