import ThriftIdl.Proofs.Trails
import ThriftIdl.Proofs.TypeResolution
import ThriftIdl.Proofs.TypedefMeaning

namespace ThriftIdl.Linking

open TypeExpr (Known)
open Trail (Circuit Leads)

/-- One pending typedef waits for another, whose name is the first that its target lacks. -/
def Awaits (lookup : String → Option TypeId) (pending : List TypedefDecl)
    (decl other : TypedefDecl) : Prop :=
  decl ∈ pending ∧ other ∈ pending ∧ decl.target.firstUnresolved lookup = some other.name

/-- The place of the typedef for which the one at a place waits. -/
def awaitedPlace (lookup : String → Option TypeId) (pending : List TypedefDecl) (i : Nat) :
    Option Nat :=
  pending[i]?.bind fun decl =>
    pending.findIdx? (·.name = (decl.target.firstUnresolved lookup).getD "")

inductive StuckReason (lookup : String → Option TypeId) (pending : List TypedefDecl) :
    Position × LinkFault → Prop
  | unknown {decl : TypedefDecl} {name : String} (hm : decl ∈ pending)
      (hf : decl.target.firstUnresolved lookup = some name) (hn : name ∉ pending.map (·.name)) :
      StuckReason lookup pending (decl.position, .unknownType name)
  | circular {first : TypedefDecl} {others : List TypedefDecl}
      (served : ∀ decl ∈ pending, ∃ other, Awaits lookup pending decl other)
      (h : Circuit (Awaits lookup pending) first (first :: others)) :
      StuckReason lookup pending
        (first.position, .circularTypedef ((first :: (others ++ [first])).map (·.name)))

section Stuck

variable {lookup : String → Option TypeId} {pending : List TypedefDecl} {decl : TypedefDecl}
  {name : String} {i j : Nat}

theorem awaitedPlace_eq (hd : pending[i]? = some decl)
    (hf : decl.target.firstUnresolved lookup = some name) :
    awaitedPlace lookup pending i = pending.findIdx? (·.name = name) := by
  simp [awaitedPlace, hd, hf]

theorem nobody_awaited_iff (hf : decl.target.firstUnresolved lookup = some name) :
    (pending.findIdx? (·.name = (decl.target.firstUnresolved lookup).getD "")).isNone ↔
      name ∉ pending.map (·.name) := by
  simp [hf]

theorem exists_awaitedPlace (served : ∀ decl ∈ pending, ∃ other, Awaits lookup pending decl other)
    (hi : i < pending.length) : ∃ j, awaitedPlace lookup pending i = some j := by
  obtain ⟨other, -, ho, hf⟩ := served pending[i] (List.getElem_mem hi)
  rw [← Option.isSome_iff_exists, awaitedPlace_eq (List.getElem?_eq_getElem hi) hf,
    List.findIdx?_isSome]
  exact List.any_eq_true.2 ⟨other, ho, by simp⟩

variable (hw : ∀ decl ∈ pending, ∃ name, decl.target.firstUnresolved lookup = some name)

include hw

theorem awaits_of_place (h : awaitedPlace lookup pending i = some j) :
    ∃ decl other, pending[i]? = some decl ∧ pending[j]? = some other ∧
      Awaits lookup pending decl other := by
  obtain ⟨decl, hd, -⟩ := Option.bind_eq_some_iff.1 h
  obtain ⟨name, hf⟩ := hw decl (List.mem_of_getElem? hd)
  rw [awaitedPlace_eq hd hf] at h
  obtain ⟨hj, hname, -⟩ := List.findIdx?_eq_some_iff_getElem.1 h
  obtain rfl : pending[j].name = name := by simpa using hname
  exact ⟨decl, pending[j], hd, List.getElem?_eq_getElem hj, List.mem_of_getElem? hd,
    List.getElem_mem hj, hf⟩

/-- As every pending typedef waits for one of them, the way from the first comes back. -/
theorem awaited_circuit (served : ∀ decl ∈ pending, ∃ other, Awaits lookup pending decl other)
    (hnd : pending.Nodup) (hne : pending ≠ []) :
    ∃ first others, Circuit (Awaits lookup pending) first (first :: others) ∧
      ((Trail.start (awaitedPlace lookup pending) pending.length 0).cycle?.map fun places =>
        places.filterMap fun i => pending[i]?) = some (first :: (others ++ [first])) := by
  have hlt {i j : Nat} (h : Leads (awaitedPlace lookup pending) i j) : j < pending.length := by
    obtain ⟨-, other, -, ho, -⟩ := awaits_of_place hw h
    exact (List.getElem?_eq_some_iff.1 ho).1
  have hwalked := Trail.start_walked (fun i j => hlt) (List.length_pos_iff.2 hne)
  obtain ⟨last, -, hreach, hlast⟩ := hwalked.last_mem
  have hlast' : last < pending.length := by
    rcases Relation.ReflTransGen.cases_tail hreach with rfl | ⟨i, -, hi⟩
    · exact List.length_pos_iff.2 hne
    · exact hlt hi
  obtain ⟨place, hplace⟩ := exists_awaitedPlace served hlast'
  obtain ⟨places, hcycle, hcircuit⟩ := hwalked.circuit (hlast.symm.trans hplace)
  have hinj (i j : Nat) (decl : TypedefDecl) (hi : decl ∈ pending[i]?) (hj : decl ∈ pending[j]?) :
      i = j :=
    (List.getElem?_inj (List.getElem?_eq_some_iff.1 hi).1 hnd).1 (hi.trans hj.symm)
  obtain ⟨first, hfirst, hc⟩ := hcircuit.filterMap hinj fun i j => awaits_of_place hw
  obtain ⟨others, ho⟩ := List.head?_eq_some_iff.1 hc.starts
  rw [ho] at hc
  refine ⟨first, others, hc, ?_⟩
  rw [hcycle, Option.map_some, List.filterMap_append, ho]
  simp [hfirst]

theorem stuckFault_reason (hnd : pending.Nodup) (hne : pending ≠ []) :
    StuckReason lookup pending (stuckFault lookup pending) := by
  unfold stuckFault
  dsimp only
  split
  · next decl hfind =>
    have hm := List.mem_of_find?_eq_some hfind
    obtain ⟨name, hf⟩ := hw decl hm
    have hnone := List.find?_some hfind
    have hnobody := (nobody_awaited_iff hf).1 hnone
    rw [hf, Option.getD_some]
    exact .unknown hm hf hnobody
  · next hnone =>
    have served : ∀ decl ∈ pending, ∃ other, Awaits lookup pending decl other := by
      intro decl hm
      obtain ⟨name, hf⟩ := hw decl hm
      have hsomebody := mt (nobody_awaited_iff hf).2 (List.find?_eq_none.1 hnone decl hm)
      obtain ⟨other, ho, rfl⟩ := List.mem_map.1 (not_not.1 hsomebody)
      exact ⟨other, hm, ho, hf⟩
    obtain ⟨first, others, hcircuit, htrail⟩ := awaited_circuit hw served hnd hne
    unfold awaitedPlace at htrail
    rw [htrail]
    exact .circular served hcircuit

end Stuck

/-- A typedef for which its program has got no symbol. -/
def Unsettled (final : LinkState) (program : ProgramId) (decl : TypedefDecl) : Prop :=
  ∃ p, final.programs[program]? = some p ∧ p.typeSymbol decl.name = none

/-- The typedefs that are left over, each for a name that it lacks. -/
structure LeftOver (final : LinkState) (program : ProgramId) (decls left : List TypedefDecl) :
    Prop where
  nonempty : left ≠ []
  nodup : left.Nodup
  mem_iff : ∀ decl, decl ∈ left ↔ decl ∈ decls ∧ Unsettled final program decl
  lacking : ∀ decl ∈ left, ∃ name,
    decl.target.firstUnresolved (final.lookupType program) = some name
  settled : ∀ decl ∈ decls, decl ∉ left → Known (final.lookupType program) decl.name

namespace LeftOver

variable {final : LinkState} {program : ProgramId} {decls left : List TypedefDecl}

theorem not_declared (h : LeftOver final program decls left) {name : String}
    (hk : ¬ Known (final.lookupType program) name) (hn : name ∉ left.map (·.name)) :
    name ∉ decls.map (·.name) := by
  intro hm
  obtain ⟨decl, hd, rfl⟩ := List.mem_map.1 hm
  exact hk (h.settled decl hd fun hp => hn (List.mem_map_of_mem hp))

theorem mentions (h : LeftOver final program decls left) {decl other : TypedefDecl}
    (ha : Awaits (final.lookupType program) left decl other) : Mentions decls decl other := by
  obtain ⟨hd, ho, hf⟩ := ha
  exact ⟨((h.mem_iff decl).1 hd).1, ((h.mem_iff other).1 ho).1,
    (TypeExpr.mem_of_firstUnresolved hf).1⟩

end LeftOver

section Faults

variable {st final : LinkState} {program : ProgramId} {p : Program} {decls : List TypedefDecl}
  {entries : List TypedefEntry} {settled : List SettledTypedef} {e : LoadError}

theorem Progress.pending_nodup (h : Progress st program entries settled final) :
    (pending entries).Nodup := by
  refine List.Nodup.filterMap ?_ (.of_map _ h.nodup)
  rintro ⟨d, _ | r⟩ ⟨d', _ | r'⟩ decl hd hd'
  · obtain rfl : d = decl := by simpa using hd
    obtain rfl : d' = d := by simpa using hd'
    rfl
  · simp at hd'
  · simp at hd
  · simp at hd

theorem unsettled_iff (h : Indexed st program p)
    (hpr : Progress st program entries settled final) {decl : TypedefDecl}
    (hm : decl ∈ p.document.typedefs) :
    Unsettled final program decl ↔ decl.name ∉ settledNames settled := by
  have hnone : p.types.lookup decl.name = none := by
    rw [← Option.not_isSome_iff_eq_none]
    exact fun hs => typedef_not_user h.wellNamed hm ((h.own decl.name).1 hs)
  unfold Unsettled
  rw [hpr.defines.own h.present, ← lookup_symbolsOf_isSome, Option.not_isSome_iff_eq_none]
  simp only [Option.some.injEq, exists_eq_left', Program.typeSymbol, Program.withTypes,
    List.lookup_append, hnone, Option.or_none]

theorem leftOver_of_stuck (h : Indexed st program p)
    (hpr : Progress st program entries settled final)
    (same : entries.map Prod.fst = p.document.typedefs) (hp : pending entries ≠ [])
    (waits : ∀ decl ∈ pending entries, ∃ name ∈ decl.target.names,
      ¬ Known (lookupAfter (st.lookupType program) settled) name) :
    LeftOver final program p.document.typedefs (pending entries) := by
  have hl : final.lookupType program = lookupAfter (st.lookupType program) settled :=
    funext (hpr.defines.lookupType h.present h.others)
  refine ⟨hp, hpr.pending_nodup, fun decl => ?_, fun decl hm => ?_, fun decl hm hn => ?_⟩
  · rw [hpr.mem_pending_iff same]
    exact and_congr_right fun hm => (unsettled_iff h hpr hm).symm
  · rw [hl]
    exact TypeExpr.firstUnresolved_isSome.2 (waits decl hm)
  · rw [hl, known_lookupAfter]
    rw [hpr.mem_pending_iff same, not_and, not_not] at hn
    exact .inr (hn hm)

theorem defineTypedefs_stuck (h : Indexed st program p)
    (he : exec (defineTypedefs program) st = (.error e, final)) :
    (∃ decl ∈ p.document.typedefs, "void" ∈ decl.target.names ∧
      e = .unlinkable (p.locate decl.position) .misplacedVoid) ∨
    ∃ left position fault, LeftOver final program p.document.typedefs left ∧
      StuckReason (final.lookupType program) left (position, fault) ∧
      e = .unlinkable (p.locate position) fault := by
  obtain ⟨result, final', hr, hrun⟩ := h.defineTypedefs_end
  rw [hrun] at he
  cases hr with
  | @void _ decl hm hv =>
    obtain ⟨rfl, -⟩ : _ = e ∧ final' = final := by simpa [Except.map] using he
    exact .inl ⟨decl, hm, hv, rfl⟩
  | @stuck _ entries settled hpr same hp waits =>
    obtain ⟨rfl, rfl⟩ : _ = e ∧ final' = final := by simpa [Except.map] using he
    have hleft := leftOver_of_stuck h hpr same hp fun decl hm => (waits decl hm).2
    exact .inr ⟨pending entries, _, _, hleft,
      stuckFault_reason hleft.lacking hleft.nodup hleft.nonempty, rfl⟩
  | done hpr same hp order => simp [Except.map] at he

/-- Every complaint about the typedefs of a program holds of the typedef to which it points. -/
theorem defineTypedefs_truthful (h : Indexed st program p)
    (he : exec (defineTypedefs program) st = (.error e, final)) :
    let decls := p.document.typedefs
    ∃ decl ∈ decls, ∃ fault, e = .unlinkable (p.locate decl.position) fault ∧
      (∀ name, fault ≠ .stuckTypedefs name) ∧
      ((fault = .misplacedVoid ∧ "void" ∈ decl.target.names) ∨
        (∃ name ∈ decl.target.names, fault = .unknownType name ∧
          fault.message = "unknown type '" ++ name ++ "'" ∧ Builtin.ofName? name = none ∧
          final.lookupType program name = none ∧ name ∉ decls.map (·.name)) ∨
        ∃ circuit names, Circuit (Mentions decls) decl circuit ∧
          names = (circuit ++ [decl]).map (·.name) ∧ fault = .circularTypedef names ∧
          fault.message = "circular typedef: " ++ " -> ".intercalate names) := by
  intro decls
  rcases defineTypedefs_stuck h he with ⟨decl, hm, hv, rfl⟩ |
    ⟨left, position, fault, hleft, hr, rfl⟩
  · exact ⟨decl, hm, _, rfl, by simp, .inl ⟨rfl, hv⟩⟩
  · cases hr with
    | @unknown decl name hm hf hn =>
      obtain ⟨hmentioned, hk⟩ := TypeExpr.mem_of_firstUnresolved hf
      have hunknown : Builtin.ofName? name = none ∧ final.lookupType program name = none := by
        simpa [Known] using hk
      refine ⟨decl, ((hleft.mem_iff decl).1 hm).1, _, rfl, by simp, .inr (.inl ?_)⟩
      exact ⟨name, hmentioned, rfl, rfl, hunknown.1, hunknown.2, hleft.not_declared hk hn⟩
    | @circular first others served hc =>
      obtain ⟨second, hfirst, -⟩ := hc.leaves
      have hcircuit : Circuit (Mentions decls) first (first :: others) :=
        ⟨hc.nodup, hc.starts, hc.chain.imp fun _ _ => hleft.mentions⟩
      refine ⟨first, ((hleft.mem_iff first).1 hfirst).1, _, rfl, by simp, .inr (.inr ?_)⟩
      exact ⟨first :: others, _, hcircuit, rfl, rfl, rfl⟩

/-- The way from the first of the typedefs enters a cycle. -/
def enteredCycle : Document :=
  ⟨"cycle.thrift", [
    .typedef ⟨⟨1, 1⟩, "", .named "Left", "Entry"⟩,
    .typedef ⟨⟨2, 1⟩, "", .list (.named "Right"), "Left"⟩,
    .typedef ⟨⟨3, 1⟩, "", .map (.named "i32") (.named "Left"), "Right"⟩]⟩

theorem enteredCycle_truthful :
    let start := LinkState.ofPrograms [.ofDocument .here enteredCycle]
    Indexed start 0 (.ofDocument .here enteredCycle) ∧
    (exec (defineTypedefs 0) start).1 = .error (.unlinkable ⟨"cycle.thrift", ⟨2, 1⟩⟩ <|
      LinkFault.circularTypedef ["Left", "Right", "Left"]) ∧
    ∃ decl ∈ enteredCycle.typedefs, decl.position = ⟨2, 1⟩ ∧ ∃ circuit,
      Circuit (Mentions enteredCycle.typedefs) decl circuit ∧
      (circuit ++ [decl]).map (·.name) = ["Left", "Right", "Left"] := by
  intro start
  have hindexed : Indexed start 0 (.ofDocument .here enteredCycle) :=
    indexed_of_typedefs (by decide) (by decide)
  have he : (exec (defineTypedefs 0) start).1 = .error (.unlinkable ⟨"cycle.thrift", ⟨2, 1⟩⟩ <|
      LinkFault.circularTypedef ["Left", "Right", "Left"]) := by decide +kernel
  refine ⟨hindexed, he, ?_⟩
  obtain ⟨decl, hm, fault, hfault, -, hcases⟩ :=
    defineTypedefs_truthful hindexed (Prod.ext he rfl)
  obtain ⟨hposition, rfl⟩ := LoadError.unlinkable.inj hfault
  rcases hcases with ⟨hvoid, -⟩ | ⟨name, -, hname, -⟩ | ⟨circuit, names, hc, hnames, hcircular, -⟩
  · cases hvoid
  · cases hname
  · obtain rfl := LinkFault.circularTypedef.inj hcircular
    exact ⟨decl, hm, (congrArg Location.position hposition).symm, circuit, hc, hnames.symm⟩

/-- The first name that a typedef lacks is no typedef's name. -/
def LacksOutside (final : LinkState) (program : ProgramId) (decls : List TypedefDecl)
    (decl : TypedefDecl) : Prop :=
  decl ∈ decls ∧ Unsettled final program decl ∧ ∃ name,
    decl.target.firstUnresolved (final.lookupType program) = some name ∧
      name ∉ decls.map (·.name)

/-- An unknown name wins over a cycle, if a typedef that is left over lacks it first. -/
theorem unknownType_reported_iff (h : Indexed st program p)
    (hv : ∀ decl ∈ p.document.typedefs, "void" ∉ decl.target.names)
    (he : exec (defineTypedefs program) st = (.error e, final)) :
    ((∃ location name, e = .unlinkable location (.unknownType name)) ↔
      ∃ decl, LacksOutside final program p.document.typedefs decl) ∧
    ((∃ location names, e = .unlinkable location (.circularTypedef names)) ↔
      ∀ decl, ¬ LacksOutside final program p.document.typedefs decl) := by
  rcases defineTypedefs_stuck h he with ⟨decl, hm, hvoid, -⟩ |
    ⟨left, position, fault, hleft, hr, rfl⟩
  · exact absurd hvoid (hv decl hm)
  · cases hr with
    | @unknown decl name hm hf hn =>
      obtain ⟨-, hk⟩ := TypeExpr.mem_of_firstUnresolved hf
      have hd := (hleft.mem_iff decl).1 hm
      have houtside : LacksOutside final program p.document.typedefs decl :=
        ⟨hd.1, hd.2, name, hf, hleft.not_declared hk hn⟩
      refine ⟨iff_of_true ⟨_, _, rfl⟩ ⟨decl, houtside⟩, iff_of_false ?_ ?_⟩
      · simp
      · exact fun hall => hall decl houtside
    | circular served hc =>
      have hnone : ∀ decl, ¬ LacksOutside final program p.document.typedefs decl := by
        rintro decl ⟨hm, hu, name, hf, hn⟩
        obtain ⟨other, hd, ho, hf'⟩ := served decl ((hleft.mem_iff decl).2 ⟨hm, hu⟩)
        obtain rfl : name = other.name := Option.some.inj (hf.symm.trans hf')
        exact hn (List.mem_map_of_mem ((hleft.mem_iff other).1 ho).1)
      refine ⟨iff_of_false ?_ ?_, iff_of_true ⟨_, _, rfl⟩ hnone⟩
      · simp
      · exact fun ⟨decl, houtside⟩ => hnone decl houtside

end Faults

/-- Behind the cycle there is an unknown name, which is the first that its typedef lacks. -/
def cycleAndGap : Document :=
  ⟨"cycle.thrift", enteredCycle.declarations ++ [
    .typedef ⟨⟨4, 1⟩, "", .map (.named "Gone") (.named "Late"), "Late"⟩]⟩

theorem cycleAndGap_reported :
    let start := LinkState.ofPrograms [.ofDocument .here cycleAndGap]
    Indexed start 0 (.ofDocument .here cycleAndGap) ∧
    (∀ decl ∈ cycleAndGap.typedefs, "void" ∉ decl.target.names) ∧
    (exec (defineTypedefs 0) start).1 =
      .error (.unlinkable ⟨"cycle.thrift", ⟨4, 1⟩⟩ (.unknownType "Gone")) ∧
    ∃ decl, LacksOutside (exec (defineTypedefs 0) start).2 0 cycleAndGap.typedefs decl := by
  intro start
  have hindexed : Indexed start 0 (.ofDocument .here cycleAndGap) :=
    indexed_of_typedefs (by decide) (by decide)
  have hvoid : ∀ decl ∈ cycleAndGap.typedefs, "void" ∉ decl.target.names := by decide
  have he : (exec (defineTypedefs 0) start).1 =
      .error (.unlinkable ⟨"cycle.thrift", ⟨4, 1⟩⟩ (.unknownType "Gone")) := by decide +kernel
  have hiff := unknownType_reported_iff hindexed hvoid (Prod.ext he rfl)
  exact ⟨hindexed, hvoid, he, hiff.1.1 ⟨_, _, rfl⟩⟩

/-- The typedef lacks its own name before the one that is unknown. -/
def maskedGap : Document :=
  ⟨"main.thrift", [.typedef ⟨⟨1, 1⟩, "", .map (.named "A") (.named "Missing"), "A"⟩]⟩

theorem maskedGap_circular :
    let start := LinkState.ofPrograms [.ofDocument .here maskedGap]
    let final := (exec (defineTypedefs 0) start).2
    Indexed start 0 (.ofDocument .here maskedGap) ∧
    (∀ decl ∈ maskedGap.typedefs, "void" ∉ decl.target.names) ∧
    (∃ decl ∈ maskedGap.typedefs, Unsettled final 0 decl ∧ "Missing" ∈ decl.target.names) ∧
    Builtin.ofName? "Missing" = none ∧ final.lookupType 0 "Missing" = none ∧
    "Missing" ∉ maskedGap.typedefs.map (·.name) ∧
    (exec (defineTypedefs 0) start).1 =
      .error (.unlinkable ⟨"main.thrift", ⟨1, 1⟩⟩ <| LinkFault.circularTypedef ["A", "A"]) := by
  have hown : (exec (defineTypedefs 0) (.ofPrograms [.ofDocument .here maskedGap])).2.programs[0]? =
      some (.ofDocument .here maskedGap) := by decide +kernel
  refine ⟨indexed_of_typedefs (by decide) (by decide), by decide, ?_, by decide, ?_, by decide, ?_⟩
  · exact ⟨_, List.mem_cons_self, ⟨_, hown, rfl⟩, by decide⟩
  · decide +kernel
  · decide +kernel

end ThriftIdl.Linking
