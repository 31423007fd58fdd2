import ThriftIdl.Proofs.TypedefFixpoint

namespace ThriftIdl.Linking

open TypeExpr (Known)

section Settled

variable {g : TypeGraph} {program : ProgramId} {base : String → Option TypeId}
  {settled newer older : List SettledTypedef} {decl other : TypedefDecl}
  {resolved r : ResolvedTypedef} {name : String}

theorem lookupAfter_append (h : Settled g program base (newer ++ older))
    (hk : Known (lookupAfter base older) name) (hb : Builtin.ofName? name = none)
    (hf : name ∈ settledNames newer → base name = none) :
    lookupAfter base (newer ++ older) name = lookupAfter base older name := by
  have hnot : name ∉ settledNames newer := by
    intro hm
    rcases known_lookupAfter.1 hk with hk | ho
    · simp [Known, hb, hf hm] at hk
    · exact h.not_mem_newer ho hm
  have happ : symbolsOf (newer ++ older) = symbolsOf newer ++ symbolsOf older := by
    simp [symbolsOf]
  unfold lookupAfter
  rw [happ, List.lookup_append, lookup_symbolsOf_eq_none hnot, Option.none_or]

namespace Settled

theorem target_kept (h : Settled g program base (newer ++ (decl, resolved) :: older))
    (hf : ∀ name ∈ decl.target.names, name ∈ settledNames (newer ++ [(decl, resolved)]) →
      base name = none) :
    decl.target.Denotes g (lookupAfter base (newer ++ (decl, resolved) :: older))
      resolved.target := by
  have hs : newer ++ (decl, resolved) :: older = (newer ++ [(decl, resolved)]) ++ older := by simp
  cases h.of_append with
  | cons h' fresh target node =>
    refine target.congr fun name hn hb => ?_
    rw [hs] at h ⊢
    exact (lookupAfter_append h (target.known hn) hb (hf name hn)).symm

theorem target_denotes (h : Settled g program base settled)
    (hf : ∀ s ∈ settled, base s.1.name = none) (hm : (decl, resolved) ∈ settled) :
    decl.target.Denotes g (lookupAfter base settled) resolved.target := by
  obtain ⟨newer, older, rfl, -⟩ := h.split hm
  apply h.target_kept
  intro name _ hn
  obtain ⟨s, hs, rfl⟩ := mem_settledNames.1 hn
  have hs' : s ∈ (newer ++ [(decl, resolved)]) ++ older := List.mem_append_left _ hs
  rw [List.append_assoc] at hs'
  exact hf s hs'

theorem target_lt (h : Settled g program base settled) (hg : g.WellFormed)
    (hm : (decl, resolved) ∈ settled) : resolved.target < resolved.typeId := by
  apply hg.older_of_madeOf
  simp [TypeGraph.MadeOf, h.node hm, TypeNode.children]

theorem typeId_lt (h : Settled g program base settled) (hg : g.WellFormed)
    (hf : ∀ s ∈ settled, base s.1.name = none) (hm : (decl, resolved) ∈ settled)
    (ho : (other, r) ∈ settled) (hb : Builtin.ofName? other.name = none)
    (hn : other.name ∈ decl.target.names) : r.typeId < resolved.typeId := by
  obtain ⟨id, hle, hl⟩ := (h.target_denotes hf hm).symbol_le hg hn hb
  have hid : r.typeId = id := Option.some.inj ((h.lookup_eq ho).symm.trans hl)
  rw [hid]
  exact Nat.lt_of_le_of_lt hle (h.target_lt hg hm)

end Settled

end Settled

section Indexed

variable {st final : LinkState} {program : ProgramId} {p : Program} {decl other : TypedefDecl}
  {resolved : List ResolvedTypedef} {settled : List SettledTypedef} {r s : ResolvedTypedef}

theorem Indexed.typedef_unknown (h : Indexed st program p) (hu : Unhidden st p)
    (hm : decl ∈ p.document.typedefs) : st.lookupType program decl.name = none := by
  have hown : p.typeSymbol decl.name = none := by
    rw [← Option.not_isSome_iff_eq_none, h.own]
    exact typedef_not_user h.wellNamed hm
  unfold LinkState.lookupType
  rw [lookupType_eq h.present, hown, hu decl hm]
  rfl

namespace AllSettled

theorem lookup (ha : AllSettled st program p.document.typedefs resolved settled final)
    (h : Indexed st program p) :
    final.lookupType program = lookupAfter (st.lookupType program) settled :=
  funext (ha.defines.lookupType h.present h.others)

theorem base_none (ha : AllSettled st program p.document.typedefs resolved settled final)
    (h : Indexed st program p) (hu : Unhidden st p) :
    ∀ s ∈ settled, st.lookupType program s.1.name = none := by
  intro s hs
  exact h.typedef_unknown hu (ha.declared s hs)

theorem exists_settled {decls : List TypedefDecl}
    (ha : AllSettled st program decls resolved settled final) (hm : decl ∈ decls) :
    ∃ r, (decl, r) ∈ settled := by
  obtain ⟨r, -, hr⟩ := forall₂_mem_left ha.aligned hm
  exact ⟨r, hr⟩

theorem target_denotes (ha : AllSettled st program p.document.typedefs resolved settled final)
    (h : Indexed st program p) (hu : Unhidden st p) (hm : (decl, r) ∈ settled) :
    decl.target.Denotes final.types (final.lookupType program) r.target := by
  rw [ha.lookup h]
  exact ha.sequence.target_denotes (ha.base_none h hu) hm

theorem typeId_lt_of_mentions
    (ha : AllSettled st program p.document.typedefs resolved settled final)
    (h : Indexed st program p) (hu : Unhidden st p) (hr : (decl, r) ∈ settled)
    (hm : Mentions p.document.typedefs decl other) :
    ∃ s, (other, s) ∈ settled ∧ s.typeId < r.typeId := by
  obtain ⟨-, ho, hn⟩ := hm
  obtain ⟨s, hs⟩ := ha.exists_settled ho
  have hb := typedef_not_builtin h.wellNamed ho
  have hg := ha.defines.wellFormed.types
  exact ⟨s, hs, ha.sequence.typeId_lt hg (ha.base_none h hu) hr hs hb hn⟩

/-- Along a chain of mentions the handles get smaller and smaller. -/
theorem typeId_lt_of_chain
    (ha : AllSettled st program p.document.typedefs resolved settled final)
    (h : Indexed st program p) (hu : Unhidden st p)
    (hm : Relation.TransGen (Mentions p.document.typedefs) decl other) :
    ∃ r s, (decl, r) ∈ settled ∧ (other, s) ∈ settled ∧ s.typeId < r.typeId := by
  induction hm with
  | single hm =>
    obtain ⟨r, hr⟩ := ha.exists_settled hm.1
    obtain ⟨s, hs, hlt⟩ := ha.typeId_lt_of_mentions h hu hr hm
    exact ⟨r, s, hr, hs, hlt⟩
  | tail _ hm ih =>
    obtain ⟨r, s, hr, hs, hlt⟩ := ih
    obtain ⟨t, ht, hlt'⟩ := ha.typeId_lt_of_mentions h hu hs hm
    exact ⟨r, t, hr, ht, Nat.lt_trans hlt' hlt⟩

theorem resolvable (ha : AllSettled st program p.document.typedefs resolved settled final)
    (h : Indexed st program p) (hu : Unhidden st p) :
    Resolvable (st.lookupType program) p.document.typedefs := by
  refine ⟨?_, ?_, ?_⟩
  · intro decl hm
    obtain ⟨r, hr⟩ := ha.exists_settled hm
    exact (ha.target_denotes h hu hr).void_not_mem
  · intro decl hm name hn
    obtain ⟨r, hr⟩ := ha.exists_settled hm
    have hk := (ha.target_denotes h hu hr).known hn
    rw [ha.lookup h, known_lookupAfter] at hk
    refine hk.imp_right fun hsettled => ?_
    obtain ⟨s, hs, rfl⟩ := mem_settledNames.1 hsettled
    exact List.mem_map_of_mem (ha.declared s hs)
  · intro decl hcycle
    obtain ⟨r, s, hr, hs, hlt⟩ := ha.typeId_lt_of_chain h hu hcycle
    have he : r.typeId = s.typeId :=
      Option.some.inj ((ha.sequence.lookup_eq hr).symm.trans (ha.sequence.lookup_eq hs))
    rw [he] at hlt
    exact Nat.lt_irrefl _ hlt

end AllSettled

end Indexed

/-- What a typedef has become: its type and symbol, and its target with every name replaced by
what it stands for. -/
structure TypedefLinked (final : LinkState) (program : ProgramId) (decl : TypedefDecl)
    (r : ResolvedTypedef) : Prop where
  node : final.types.node r.typeId = .typedef decl.name r.target program
  symbol : (final.programs[program]?.bind fun p => p.typeSymbol decl.name) = some r.typeId
  spelled : decl.target.tree? (fun name => (final.lookupType program name).map final.types.tree) =
    some (final.types.tree r.target)

def spelledTypedefs (decls : List TypedefDecl) (resolved : List ResolvedTypedef)
    (final : LinkState) : List (TypedefDecl × TypeTree × TypeTree) :=
  decls.zipWith
    (fun decl r => (decl, final.types.tree r.target, final.types.tree r.typeId)) resolved

section Linked

variable {st final : LinkState} {program : ProgramId} {p : Program}
  {resolved : List ResolvedTypedef} {settled : List SettledTypedef}

theorem AllSettled.linked (ha : AllSettled st program p.document.typedefs resolved settled final)
    (h : Indexed st program p) (hu : Unhidden st p) :
    List.Forall₂ (TypedefLinked final program) p.document.typedefs resolved := by
  refine ha.aligned.imp fun decl r hm => ?_
  have hd := ha.target_denotes h hu hm
  refine ⟨ha.sequence.node hm, ?_, hd.tree?_eq ha.defines.wellFormed.types⟩
  have hl := ha.sequence.lookup_eq hm
  have hnone := ha.base_none h hu _ hm
  simp only [lookupAfter, hnone, Option.or_none] at hl
  rw [ha.defines.own h.present]
  simp [Program.typeSymbol, Program.withTypes, List.lookup_append, hl]

theorem spelledTypedefs_eq {decls : List TypedefDecl}
    (h : List.Forall₂ (TypedefLinked final program) decls resolved)
    (hg : final.types.WellFormed) :
    let spelled := fun name => (final.lookupType program name).map final.types.tree
    spelledTypedefs decls resolved final = decls.map fun decl =>
      let target := (decl.target.tree? spelled).getD .placeholder
      (decl, target, .typedef decl.name target program) := by
  intro spelled
  unfold spelledTypedefs
  induction h with
  | nil => rfl
  | cons hl _ ih =>
    have hs : _ = some _ := hl.spelled
    have ht := hg.tree_of_node hl.node
    simp only [List.zipWith_cons_cons, List.map_cons, ih, spelled, hs, ht, TypeNode.spell,
      Option.getD_some]

end Linked

theorem userTypes_perm {d d' : Document} (h : d'.declarations.Perm d.declarations) :
    (userTypes d').Perm (userTypes d) := by
  have henums : d'.enums.Perm d.enums := h.filterMap _
  have hrecords (kind : RecordKind) : (d'.recordsOf kind).Perm (d.recordsOf kind) := h.filterMap _
  have hall : d'.records.Perm d.records :=
    ((hrecords .struct).append (hrecords .union)).append (hrecords .exception)
  exact (henums.map _).append (hall.map _)

end ThriftIdl.Linking

namespace ThriftIdl.LinkState

def withDocument (st : LinkState) (program : ProgramId) (document : Document) : LinkState :=
  { st with programs := st.programs.modify program fun p => { p with document } }

theorem withDocument_scope (st : LinkState) (program i : ProgramId) (document : Document) :
    (st.withDocument program document).programs[i]?.map Program.scope =
      st.programs[i]?.map Program.scope := by
  unfold withDocument
  by_cases hi : program = i
  · subst hi
    rw [List.getElem?_modify_eq]
    cases st.programs[program]? <;> rfl
  · rw [List.getElem?_modify_ne _ _ hi]

theorem withDocument_lookupType (st : LinkState) (program i : ProgramId) (document : Document) :
    (st.withDocument program document).lookupType i = st.lookupType i :=
  lookupType_congr (st.withDocument_scope program i document) fun _ _ inc _ =>
    st.withDocument_scope program inc.target document

end ThriftIdl.LinkState

namespace ThriftIdl.Linking

section Reordering

variable {st : LinkState} {program : ProgramId} {p : Program} {document : Document}

theorem Indexed.withDocument (h : Indexed st program p)
    (hperm : document.declarations.Perm p.document.declarations) :
    Indexed (st.withDocument program document) program { p with document } := by
  have hp : (st.withDocument program document).programs[program]? = some { p with document } := by
    unfold LinkState.withDocument
    rw [List.getElem?_modify_eq, h.present]
    rfl
  refine ⟨⟨h.wellFormed.types, ?_⟩, hp, nameFault?_perm h.wellNamed hperm, ?_, h.others⟩
  · intro i q hq name id hs
    have hscope := st.withDocument_scope program i document
    rw [hq] at hscope
    obtain ⟨q', hq', he⟩ := Option.map_eq_some_iff.1 hscope.symm
    rw [← Program.typeSymbol_of_scope he] at hs
    exact h.wellFormed.symbols i q' hq' name id hs
  · intro name
    rw [((userTypes_perm hperm).map Prod.fst).mem_iff]
    exact h.own name

theorem Unhidden.withDocument (hu : Unhidden st p) (program : ProgramId)
    (hperm : document.declarations.Perm p.document.declarations) :
    Unhidden (st.withDocument program document) { p with document } := by
  intro decl hm
  have htypedefs : document.typedefs.Perm p.document.typedefs := hperm.filterMap _
  rw [← hu decl (htypedefs.mem_iff.1 hm)]
  apply includedSymbol_congr
  · rfl
  · intro inc _
    exact st.withDocument_scope program inc.target document

theorem Resolvable.perm {lookup : String → Option TypeId} {decls decls' : List TypedefDecl}
    (h : Resolvable lookup decls) (hperm : decls'.Perm decls) : Resolvable lookup decls' := by
  have hmentions : Mentions decls' = Mentions decls := by
    funext decl other
    simp only [Mentions, hperm.mem_iff]
  refine ⟨?_, ?_, ?_⟩
  · intro decl hm
    exact h.noVoid decl (hperm.mem_iff.1 hm)
  · intro decl hm name hn
    rw [(hperm.map _).mem_iff]
    exact h.known decl (hperm.mem_iff.1 hm) name hn
  · rw [hmentions]
    exact h.acyclic

end Reordering

section TwoRuns

variable {st st' final final' : LinkState} {program : ProgramId} {p p' : Program}
  {resolved resolved' : List ResolvedTypedef} {settled settled' : List SettledTypedef}
  (h : Indexed st program p) (h' : Indexed st' program p')
  (ha : AllSettled st program p.document.typedefs resolved settled final)
  (ha' : AllSettled st' program p'.document.typedefs resolved' settled' final')
  (hbase : st'.lookupType program = st.lookupType program) (htypes : st'.types = st.types)
  (hmem : ∀ decl, decl ∈ p'.document.typedefs ↔ decl ∈ p.document.typedefs)

include h h' ha ha' hbase htypes hmem

theorem spelled_eq_of_typedef {name : String}
    (hn : ∀ decl r r', decl.name = name → (decl, r) ∈ settled → (decl, r') ∈ settled' →
      final'.types.tree r'.typeId = final.types.tree r.typeId) :
    (final'.lookupType program name).map final'.types.tree =
      (final.lookupType program name).map final.types.tree := by
  rw [ha.lookup h, ha'.lookup h']
  by_cases hm : name ∈ p.document.typedefs.map (·.name)
  · obtain ⟨decl, hdecl, rfl⟩ := List.mem_map.1 hm
    obtain ⟨r, hr⟩ := ha.exists_settled hdecl
    obtain ⟨r', hr'⟩ := ha'.exists_settled ((hmem decl).2 hdecl)
    rw [ha.sequence.lookup_eq hr, ha'.sequence.lookup_eq hr']
    simp [hn decl r r' rfl hr hr']
  · have hnot : name ∉ settledNames settled := by
      intro hname
      obtain ⟨s, hs, rfl⟩ := mem_settledNames.1 hname
      exact hm (List.mem_map_of_mem (ha.declared s hs))
    have hnot' : name ∉ settledNames settled' := by
      intro hname
      obtain ⟨s, hs, rfl⟩ := mem_settledNames.1 hname
      exact hm (List.mem_map_of_mem ((hmem s.1).1 (ha'.declared s hs)))
    simp only [lookupAfter, lookup_symbolsOf_eq_none hnot, lookup_symbolsOf_eq_none hnot',
      Option.none_or, hbase]
    cases hl : st.lookupType program name with
    | none => rfl
    | some id =>
      have hid : id < st.types.size := (h.wellFormed.usable hl).lt_size
      have hgrow' := ha'.defines.grows
      rw [htypes] at hgrow'
      have ht := ha.defines.grows.tree_eq h.wellFormed.types ha.defines.wellFormed.types hid
      have ht' := hgrow'.tree_eq h.wellFormed.types ha'.defines.wellFormed.types hid
      simp [ht, ht']

theorem tree_eq_of_settled (hu : Unhidden st p) (hu' : Unhidden st' p') {decl : TypedefDecl}
    {r r' : ResolvedTypedef} (hr : (decl, r) ∈ settled) (hr' : (decl, r') ∈ settled') :
    final'.types.tree r'.typeId = final.types.tree r.typeId := by
  have hg := ha.defines.wellFormed.types
  have hg' := ha'.defines.wellFormed.types
  -- Whatever a typedef mentions has an older handle in the first run.
  induction hid : r.typeId using Nat.strongRecOn generalizing decl r r' with
  | ind id ih =>
    subst hid
    have hd := (ha.target_denotes h hu hr).tree?_eq hg
    have hd' := (ha'.target_denotes h' hu' hr').tree?_eq hg'
    have hnames :
        decl.target.tree? (fun name => (final'.lookupType program name).map final'.types.tree) =
          decl.target.tree? (fun name => (final.lookupType program name).map final.types.tree) := by
      apply TypeExpr.tree?_congr
      intro name hn hb
      apply spelled_eq_of_typedef h h' ha ha' hbase htypes hmem
      rintro other s s' rfl hs hs'
      have hlt := ha.sequence.typeId_lt hg (ha.base_none h hu) hr hs hb hn
      exact ih s.typeId hlt hs hs' rfl
    rw [hd, hd'] at hnames
    rw [hg.tree_of_node (ha.sequence.node hr), hg'.tree_of_node (ha'.sequence.node hr')]
    simp [TypeNode.spell, Option.some.inj hnames]

theorem spelled_eq (hu : Unhidden st p) (hu' : Unhidden st' p') (name : String) :
    (final'.lookupType program name).map final'.types.tree =
      (final.lookupType program name).map final.types.tree := by
  apply spelled_eq_of_typedef h h' ha ha' hbase htypes hmem
  rintro decl r r' - hr hr'
  exact tree_eq_of_settled h h' ha ha' hbase htypes hmem hu hu' hr hr'

end TwoRuns

section Fixpoint

variable {st final : LinkState} {program : ProgramId} {p : Program} {document : Document}
  {resolved : List ResolvedTypedef}

theorem defineTypedefs_iff (h : Indexed st program p) (hu : Unhidden st p) :
    (∃ resolved final, exec (defineTypedefs program) st = (.ok resolved, final)) ↔
      Resolvable (st.lookupType program) p.document.typedefs := by
  constructor
  · rintro ⟨resolved, final, he⟩
    obtain ⟨settled, ha⟩ := defineTypedefs_settled h he
    exact ha.resolvable h hu
  · exact defineTypedefs_complete h

theorem defineTypedefs_linked (h : Indexed st program p) (hu : Unhidden st p)
    (he : exec (defineTypedefs program) st = (.ok resolved, final)) :
    List.Forall₂ (TypedefLinked final program) p.document.typedefs resolved := by
  obtain ⟨settled, ha⟩ := defineTypedefs_settled h he
  exact ha.linked h hu

theorem defineTypedefs_reordered (h : Indexed st program p) (hu : Unhidden st p)
    (hperm : document.declarations.Perm p.document.declarations) :
    (∃ resolved final, exec (defineTypedefs program) (st.withDocument program document) =
        (.ok resolved, final)) ↔
      ∃ resolved final, exec (defineTypedefs program) st = (.ok resolved, final) := by
  have htypedefs : document.typedefs.Perm p.document.typedefs := hperm.filterMap _
  rw [defineTypedefs_iff h hu,
    defineTypedefs_iff (h.withDocument hperm) (hu.withDocument program hperm),
    st.withDocument_lookupType]
  constructor
  · intro hr
    exact hr.perm htypedefs.symm
  · intro hr
    exact hr.perm htypedefs

theorem spelledTypedefs_perm {final' : LinkState} {resolved' : List ResolvedTypedef}
    (h : Indexed st program p) (hu : Unhidden st p)
    (hperm : document.declarations.Perm p.document.declarations)
    (he : exec (defineTypedefs program) st = (.ok resolved, final))
    (he' : exec (defineTypedefs program) (st.withDocument program document) =
      (.ok resolved', final')) :
    (spelledTypedefs document.typedefs resolved' final').Perm
      (spelledTypedefs p.document.typedefs resolved final) := by
  have h' := h.withDocument hperm
  have hu' := hu.withDocument program hperm
  have htypedefs : document.typedefs.Perm p.document.typedefs := hperm.filterMap _
  obtain ⟨settled, ha⟩ := defineTypedefs_settled h he
  obtain ⟨settled', ha'⟩ := defineTypedefs_settled h' he'
  have hnames := spelled_eq h h' ha ha' (st.withDocument_lookupType program program document) rfl
    (fun decl => htypedefs.mem_iff) hu hu'
  rw [spelledTypedefs_eq (ha.linked h hu) ha.defines.wellFormed.types,
    spelledTypedefs_eq (ha'.linked h' hu') ha'.defines.wellFormed.types]
  simp only [hnames]
  exact htypedefs.map _

/-- Typedefs are resolved exactly if they can be, each to what it says, whatever their order. -/
theorem defineTypedefs_correct (h : Indexed st program p) (hu : Unhidden st p) :
    ((∃ resolved final, exec (defineTypedefs program) st = (.ok resolved, final)) ↔
      Resolvable (st.lookupType program) p.document.typedefs) ∧
    (∀ resolved final, exec (defineTypedefs program) st = (.ok resolved, final) →
      List.Forall₂ (TypedefLinked final program) p.document.typedefs resolved) ∧
    ∀ document, document.declarations.Perm p.document.declarations →
      ((∃ resolved final, exec (defineTypedefs program) (st.withDocument program document) =
          (.ok resolved, final)) ↔
        ∃ resolved final, exec (defineTypedefs program) st = (.ok resolved, final)) ∧
      ∀ resolved final resolved' final',
        exec (defineTypedefs program) st = (.ok resolved, final) →
        exec (defineTypedefs program) (st.withDocument program document) =
          (.ok resolved', final') →
        (spelledTypedefs document.typedefs resolved' final').Perm
          (spelledTypedefs p.document.typedefs resolved final) := by
  refine ⟨defineTypedefs_iff h hu, fun _ _ he => defineTypedefs_linked h hu he, ?_⟩
  intro document hperm
  refine ⟨defineTypedefs_reordered h hu hperm, ?_⟩
  intro resolved final resolved' final' he he'
  exact spelledTypedefs_perm h hu hperm he he'

end Fixpoint

def forwardTypedefs : Document :=
  ⟨"types.thrift", [
    .typedef ⟨⟨1, 1⟩, "", .list (.named "Pairs"), "Table"⟩,
    .typedef ⟨⟨2, 1⟩, "", .map (.named "string") (.named "i32"), "Pairs"⟩]⟩

theorem forwardTypedefs_indexed :
    Indexed (.ofPrograms [.ofDocument .here forwardTypedefs]) 0
      (.ofDocument .here forwardTypedefs) :=
  indexed_of_typedefs (by decide) (by decide)

theorem forwardTypedefs_acyclic (decl : TypedefDecl) :
    ¬ Relation.TransGen (Mentions forwardTypedefs.typedefs) decl decl := by
  have hone {decl other : TypedefDecl} (hm : Mentions forwardTypedefs.typedefs decl other) :
      decl.name = "Table" ∧ other.name = "Pairs" := by
    obtain ⟨hd, ho, hn⟩ := hm
    simp only [forwardTypedefs, Document.typedefs, List.filterMap_cons, List.filterMap_nil,
      List.mem_cons, List.not_mem_nil, or_false] at hd ho
    rcases hd with rfl | rfl <;> rcases ho with rfl | rfl <;> simp [TypeExpr.names] at hn ⊢
  intro hcycle
  obtain ⟨other, hfirst, -⟩ := Relation.TransGen.head'_iff.1 hcycle
  obtain ⟨before, -, hlast⟩ := Relation.TransGen.tail'_iff.1 hcycle
  have hne := (hone hfirst).1.symm.trans (hone hlast).2
  simp at hne

theorem forwardTypedefs_resolved :
    ∃ resolved final, exec (defineTypedefs 0)
        (.ofPrograms [.ofDocument .here forwardTypedefs]) = (.ok resolved, final) ∧
      List.Forall₂ (TypedefLinked final 0) forwardTypedefs.typedefs resolved := by
  have hu : Unhidden (.ofPrograms [.ofDocument .here forwardTypedefs])
      (.ofDocument .here forwardTypedefs) := fun _ _ => rfl
  have hall := defineTypedefs_correct forwardTypedefs_indexed hu
  have hr : Resolvable
      ((LinkState.ofPrograms [.ofDocument .here forwardTypedefs]).lookupType 0)
      forwardTypedefs.typedefs :=
    ⟨by decide, by decide, forwardTypedefs_acyclic⟩
  obtain ⟨resolved, final, he⟩ := hall.1.2 hr
  exact ⟨resolved, final, he, hall.2.1 resolved final he⟩

end ThriftIdl.Linking
