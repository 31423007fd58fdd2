import ThriftIdl.Proofs.CheckedDiscovery
import ThriftIdl.Proofs.LoadOrder

namespace ThriftIdl

open LinkOrder (Ordered Visiting Visited fileNameOf)

namespace Tour

def markOf (stack done : List ProgramId) (id : ProgramId) : Mark :=
  if id ∈ done then .done else if id ∈ stack then .inProgress else .unvisited

/-- The tour of some programs that is on its way to those on a stack, with others behind it. -/
def ofVisit (count : Nat) (stack done : List ProgramId) : Tour :=
  ⟨(List.range count).map (markOf stack done), stack, done⟩

section OfVisit

variable {count : Nat} {stack done : List ProgramId} {id : ProgramId} {mark : Mark}

theorem start_eq (count : Nat) : start count = ofVisit count [] [] := by
  have hmark : markOf [] [] = fun _ => Mark.unvisited := by
    funext id
    simp [markOf]
  unfold start ofVisit
  rw [hmark, List.map_const', List.length_range]

theorem get_mark (h : id < count) : Checked.get (ofVisit count stack done).marks id (.mark id) =
    .ok (markOf stack done id) := by
  apply Checked.get_eq
  change ((List.range count).map (markOf stack done))[id]? = _
  rw [List.getElem?_map, List.getElem?_range h]
  rfl

theorem setMark_eq (stack' done' : List ProgramId) (h : id < count)
    (hid : markOf stack' done' id = mark)
    (hothers : ∀ i, i ≠ id → markOf stack' done' i = markOf stack done i) :
    (ofVisit count stack done).setMark id mark =
      .ok ⟨(List.range count).map (markOf stack' done'), stack, done⟩ := by
  have hmarks : ((List.range count).map (markOf stack done)).set id mark =
      (List.range count).map (markOf stack' done') := by
    apply List.ext_getElem
    · rw [List.length_set, List.length_map, List.length_map]
    · intro i _ _
      rw [List.getElem_set, List.getElem_map, List.getElem_map, List.getElem_range]
      split
      · next he => rw [← he, hid]
      · next hne => exact (hothers i (Ne.symm hne)).symm
  unfold setMark
  rw [get_mark h]
  exact congrArg (fun marks => Except.ok (⟨marks, stack, done⟩ : Tour)) hmarks

theorem enter_eq (h : id < count) (hnew : id ∉ done) :
    (ofVisit count stack done).enter id = .ok (ofVisit count (stack ++ [id]) done) := by
  unfold enter
  rw [setMark_eq (stack ++ [id]) done h]
  · rfl
  · simp [markOf, hnew]
  · intro i hi
    simp [markOf, hi]

theorem leave_eq (h : id < count) :
    (ofVisit count (stack ++ [id]) done).leave id = .ok (ofVisit count stack (done ++ [id])) := by
  unfold leave
  rw [setMark_eq stack (done ++ [id]) h]
  · change Except.ok (Tour.mk _ (stack ++ [id]).dropLast _) = _
    rw [List.dropLast_concat]
    rfl
  · simp [markOf]
  · intro i hi
    simp [markOf, hi]

end OfVisit

end Tour

namespace LinkOrder

theorem visit_of_done {programs : List Program} {stack done : List ProgramId} {id : ProgramId}
    (h : id ∈ done) (depth : Nat) : visit programs depth stack done id = .ok done := by
  cases depth with
  | zero => rfl
  | succ depth =>
    unfold visit
    split
    · rfl
    · exact if_pos h

end LinkOrder

namespace LoadTables

/-- The tables of some programs when all includes have been followed. The map leads from each path to
its program. -/
structure Complete (programs : List Program) (t : LoadTables) : Prop where
  same : t.programs = programs
  paths : ∀ path id, t.byPath.lookup path = some id ↔
    (programs.map Program.path)[id]? = some path
  idle : t.queue = []
  rows : t.includes = programs.map Program.includes
  closed : ∀ i j, Includes programs i j → j < programs.length

section Complete

variable {programs : List Program} {t : LoadTables} {stack done done' : List ProgramId}
  {id : ProgramId} {p : Program} {inc : Include} {depth : Nat}

theorem Complete.fileNames (h : t.Complete programs) {ids : List ProgramId}
    (hids : ∀ i ∈ ids, i < programs.length) :
    ids.mapM t.fileName = .ok (ids.map (fileNameOf programs)) := by
  induction ids with
  | nil => rfl
  | cons i ids ih =>
    have hi := List.getElem?_eq_getElem (hids i List.mem_cons_self)
    have hname : t.fileName i = .ok (fileNameOf programs i) := by
      unfold fileName fileNameOf
      rw [h.same, Checked.get_eq _ hi, hi]
      rfl
    rw [List.mapM_cons, hname, List.map_cons]
    change ids.mapM t.fileName >>= _ = _
    rw [ih fun i hm => hids i (List.mem_cons_of_mem _ hm)]
    rfl

theorem Complete.refuseCircle {α : Type} (h : t.Complete programs) (w : Tour) (p : Program)
    (hm : inc.target ∈ w.stack) (hvalid : ∀ i ∈ w.stack, i < programs.length) :
    (t.refuseCircle w p inc : Checked α) =
      .error (.refused (LinkOrder.circular programs w.stack p inc)) := by
  obtain ⟨before, after, he, hnot⟩ := List.eq_append_cons_of_mem hm
  have hfind : w.stack.findIdx? (· = inc.target) = some before.length := by
    rw [he, List.findIdx?_append, List.findIdx?_eq_none_iff.2]
    · simp [List.findIdx?_cons]
    · intro i hi
      rw [decide_eq_false_iff_not]
      rintro rfl
      exact hnot hi
  have hskip : w.stack.dropWhile (· ≠ inc.target) = w.stack.drop before.length := by
    rw [he, List.drop_left, List.dropWhile_append_of_pos]
    · simp
    · intro i hi
      rw [decide_eq_true_eq]
      rintro rfl
      exact hnot hi
  have hnames : (w.stack.drop before.length ++ [inc.target]).mapM t.fileName =
      .ok ((w.stack.drop before.length ++ [inc.target]).map (fileNameOf programs)) := by
    apply h.fileNames
    intro i hi
    rcases List.mem_append.1 hi with hi | hi
    · exact hvalid i (List.mem_of_mem_drop hi)
    · obtain rfl := List.mem_singleton.1 hi
      exact hvalid _ hm
  unfold LoadTables.refuseCircle LinkOrder.circular
  rw [hfind, hskip]
  dsimp only
  rw [hnames]
  rfl

theorem Complete.visitInclude (h : t.Complete programs) (hv : Visiting programs stack done id)
    (hp : programs[id]? = some p) (hdepth : programs.length ≤ depth + 1 + stack.length)
    (ih : ∀ {stack done : List ProgramId} {id : ProgramId}, Visiting programs stack done id →
      programs.length ≤ depth + stack.length →
      Mirrors (fun done' w => w = .ofVisit programs.length stack done')
        (LinkOrder.visit programs depth stack done id)
        (t.visit depth (.ofVisit programs.length stack done) id))
    (hinc : inc ∈ p.includes) (ho : Ordered programs done') (hu : ∀ i ∈ stack ++ [id], i ∉ done') :
    Mirrors (fun done'' w => w = .ofVisit programs.length (stack ++ [id]) done'' ∧
        Ordered programs done'' ∧ ∀ i ∈ stack ++ [id], i ∉ done'')
      (if inc.target ∈ stack ++ [id] then
          throw (LinkOrder.circular programs (stack ++ [id]) p inc)
        else LinkOrder.visit programs depth (stack ++ [id]) done' inc.target)
      (t.visitInclude (t.visit depth) p (.ofVisit programs.length (stack ++ [id]) done') inc) := by
  have hlt : inc.target < programs.length := h.closed id _ ⟨p, hp, inc, hinc, rfl⟩
  have hroom : programs.length ≤ depth + (stack ++ [id]).length := by
    rw [List.length_append, List.length_singleton]
    omega
  have hget : Checked.get (Tour.ofVisit programs.length (stack ++ [id]) done').marks inc.target
      (.mark inc.target) = .ok (Tour.markOf (stack ++ [id]) done' inc.target) :=
    Tour.get_mark hlt
  by_cases hm : inc.target ∈ stack ++ [id]
  · have hmark : Tour.markOf (stack ++ [id]) done' inc.target = .inProgress := by
      unfold Tour.markOf
      rw [if_neg (hu _ hm), if_pos hm]
    unfold LoadTables.visitInclude
    rw [hget, hmark, if_pos hm]
    change Mirrors _ _ (t.refuseCircle _ p inc)
    rw [h.refuseCircle _ p hm hv.valid]
    rfl
  · rw [if_neg hm]
    by_cases hd : inc.target ∈ done'
    · have hmark : Tour.markOf (stack ++ [id]) done' inc.target = .done := if_pos hd
      unfold LoadTables.visitInclude
      rw [hget, hmark, LinkOrder.visit_of_done hd]
      exact ⟨rfl, ho, hu⟩
    · have hmark : Tour.markOf (stack ++ [id]) done' inc.target = .unvisited := by
        unfold Tour.markOf
        rw [if_neg hd, if_neg hm]
      unfold LoadTables.visitInclude
      rw [hget, hmark]
      have hnext := hv.next hp hinc hlt hm ho hu
      have hgives := LinkOrder.visit_gives h.closed hnext hroom
      refine ((ih hnext hroom).and hgives).imp ?_
      rintro done'' w ⟨rfl, hvisited⟩
      exact ⟨rfl, hvisited.ordered, hvisited.undone⟩

theorem Complete.visit (h : t.Complete programs) (hv : Visiting programs stack done id)
    (hdepth : programs.length ≤ depth + stack.length) :
    Mirrors (fun done' w => w = .ofVisit programs.length stack done')
      (LinkOrder.visit programs depth stack done id)
      (t.visit depth (.ofVisit programs.length stack done) id) := by
  induction depth generalizing stack done id with
  | zero =>
    -- The programs on the stack differ, so that there is depth left for one more.
    have hle := length_le_of_valid hv.nodup hv.valid
    rw [List.length_append, List.length_singleton] at hle
    omega
  | succ depth ih =>
    have hid : id < programs.length := hv.valid id (by simp)
    have hp : programs[id]? = some programs[id] := List.getElem?_eq_getElem hid
    have hrow : t.includes[id]? = some programs[id].includes := by
      rw [h.rows, List.getElem?_map, hp]
      rfl
    unfold LoadTables.visit LinkOrder.visit
    rw [Tour.get_mark hid, hp, h.same, Checked.get_eq _ hp, Checked.get_eq _ hrow]
    dsimp only
    by_cases hm : id ∈ done
    · have hmark : Tour.markOf stack done id = .done := if_pos hm
      rw [if_pos hm, hmark]
      rfl
    · have hnot : id ∉ stack := fun hs =>
        (List.nodup_append.1 hv.nodup).2.2 id hs id (List.mem_singleton_self id) rfl
      have hmark : Tour.markOf stack done id = .unvisited := by
        unfold Tour.markOf
        rw [if_neg hm, if_neg hnot]
      have hundone : ∀ i ∈ stack ++ [id], i ∉ done := by
        intro i hi
        rcases List.mem_append.1 hi with hi | hi
        · exact hv.undone i hi
        · obtain rfl := List.mem_singleton.1 hi
          exact hm
      rw [if_neg hm, hmark, Tour.enter_eq hid hm]
      refine (Mirrors.foldlM (R := fun done' w =>
        w = .ofVisit programs.length (stack ++ [id]) done' ∧ Ordered programs done' ∧
          ∀ i ∈ stack ++ [id], i ∉ done') ⟨rfl, hv.ordered, hundone⟩ ?_).bind ?_
      · rintro done' _ inc hinc ⟨rfl, ho, hu⟩
        exact h.visitInclude hv hp hdepth ih hinc ho hu
      · rintro done' _ ⟨rfl, -, -⟩
        rw [Tour.leave_eq hid]
        rfl

theorem Complete.visitRoots (h : t.Complete programs) {roots : List ProgramId}
    (hroots : ∀ root ∈ roots, root < programs.length) :
    Mirrors (fun order w => w.order = order) (LinkOrder.ofRoots programs roots)
      (t.visitRoots roots) := by
  unfold LoadTables.visitRoots LinkOrder.ofRoots
  rw [h.same, Tour.start_eq]
  refine Mirrors.imp (R := fun order w =>
    w = .ofVisit programs.length [] order ∧ Ordered programs order) ?_ ?_
  · apply Mirrors.foldlM ⟨rfl, .nil⟩
    rintro order _ root hroot ⟨rfl, ho⟩
    have hv : Visiting programs [] order root := by
      refine ⟨List.nodup_singleton _, List.isChain_singleton _, ?_, ho, by simp⟩
      intro i hi
      obtain rfl := List.mem_singleton.1 hi
      exact hroots i hroot
    refine ((h.visit hv (Nat.le_refl _)).and (LinkOrder.visit_gives h.closed hv
      (Nat.le_refl _))).imp ?_
    rintro order' w ⟨hw, hvisited⟩
    exact ⟨hw, hvisited.ordered⟩
  · rintro order _ ⟨rfl, -⟩
    rfl

theorem discover_complete (space : SearchSpace) (roots : List String) :
    Mirrors (fun a b => (b.1 = a.1 ∧ b.2.Complete a.2) ∧
        Discovery.Discovered space roots a.1 a.2)
      (Discovery.discover space roots) (discover space roots) := by
  refine ((discover_mirrors space roots).and (Discovery.discover_gives space roots)).imp ?_
  rintro ⟨ids, programs⟩ ⟨_, t⟩ ⟨⟨rfl, hidle, hrows, next, h⟩, hfound⟩
  exact ⟨⟨rfl, h.same, fun _ _ => h.lookup_path_iff hfound.registered.distinct, hidle, hrows,
    fun _ _ => hfound.includes_lt⟩, hfound⟩

end Complete

end LoadTables

/-- A load that succeeds leaves its tables complete. -/
theorem loadPrograms_tables {space : SearchSpace} {roots : List String} {loaded : LoadedPrograms}
    (h : loadPrograms space roots = .ok loaded) :
    ∃ ids t, LoadTables.discover space roots = .ok (ids, t) ∧ t.Complete loaded.programs := by
  cases hd : Discovery.discover space roots with
  | error e =>
    unfold loadPrograms at h
    rw [hd] at h
    cases h
  | ok found =>
    obtain ⟨ids, programs⟩ := found
    obtain ⟨rfl, -⟩ := (loadPrograms_ok_iff hd).1 h
    obtain ⟨⟨ids, t⟩, ht, ⟨-, hcomplete⟩, -⟩ := (LoadTables.discover_complete space roots).of_ok hd
    exact ⟨ids, t, ht, hcomplete⟩

/-- With checked tables a load reads the same programs, and puts them in the same order: no scan
leaves its text, and nothing is looked for where it is not. -/
theorem Checked.loadPrograms_eq (space : SearchSpace) (roots : List String) :
    Checked.loadPrograms space roots = .refusing (ThriftIdl.loadPrograms space roots) := by
  apply Mirrors.eq_refusing
  unfold Checked.loadPrograms ThriftIdl.loadPrograms
  apply (LoadTables.discover_complete space roots).bind
  rintro ⟨ids, programs⟩ ⟨_, t⟩ ⟨⟨rfl, hcomplete⟩, hfound⟩
  apply (hcomplete.visitRoots hfound.valid).bind
  rintro _ w rfl
  obtain rfl := hcomplete.same
  rfl

end ThriftIdl
