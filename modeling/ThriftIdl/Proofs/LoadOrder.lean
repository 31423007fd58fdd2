import Mathlib
import ThriftIdl.Proofs.IncludeCycles

namespace ThriftIdl

open LinkOrder (Ordered Circle ReportsCircle fileNameOf)
open Discovery (Discovered)

def LeadsTo (space : SearchSpace) (programs : List Program) (i j : ProgramId) : Prop :=
  ∃ p q decl, programs[i]? = some p ∧ programs[j]? = some q ∧ decl ∈ p.document.includes ∧
    decl.native = false ∧ space.find? p.path.directory decl.path = some q.path

/-- An error that names programs which include each other in a circle, at the first statement of
the last one that leads to the first one. -/
def CircularInclude (space : SearchSpace) (programs : List Program) (e : LoadError) : Prop :=
  ∃ cycle p inc q decl, Circle programs cycle p inc ∧ programs[inc.target]? = some q ∧
    p.sourceIncludes.find? (fun d => space.find? p.path.directory d.path = some q.path) =
      some decl ∧
    e = .unlinkable (p.locate decl.position)
      (.circularInclude ((cycle ++ [inc.target]).map (fileNameOf programs))) ∧
    e.message = "Circular include: " ++
      " -> ".intercalate ((cycle ++ [inc.target]).map (fileNameOf programs))

structure Loaded (space : SearchSpace) (roots : List String) (loaded : LoadedPrograms) : Prop where
  discovered : ∃ ids, Discovered space roots ids loaded.programs
  ordered : Ordered loaded.programs loaded.order
  complete : ∀ i < loaded.programs.length, i ∈ loaded.order

section Order

variable {space : SearchSpace} {roots : List String} {ids : List ProgramId}
  {programs : List Program} {e : LoadError} {loaded : LoadedPrograms} {path : Path}

theorem Discovery.Discovered.includes_iff (h : Discovered space roots ids programs)
    (i j : ProgramId) : Includes programs i j ↔ LeadsTo space programs i j := by
  constructor
  · rintro ⟨p, hp, inc, hinc, rfl⟩
    obtain ⟨path, hpath, decl, hfind, -⟩ :=
      (h.follows p (List.mem_of_getElem? hp)).first inc hinc
    rw [List.getElem?_map] at hpath
    obtain ⟨q, hq, rfl⟩ := Option.map_eq_some_iff.1 hpath
    have hm := List.mem_of_find?_eq_some hfind
    have hf := List.find?_some hfind
    obtain ⟨hdecl, hnative⟩ : decl ∈ p.document.includes ∧ decl.native = false := by
      simpa [Program.sourceIncludes] using hm
    exact ⟨p, q, decl, hp, hq, hdecl, hnative, by simpa using hf⟩
  · rintro ⟨p, q, decl, hp, hq, hdecl, hnative, hf⟩
    have hm : decl ∈ p.sourceIncludes := by simp [Program.sourceIncludes, hdecl, hnative]
    obtain ⟨path, hf', inc, hinc, hpath⟩ :=
      (h.follows p (List.mem_of_getElem? hp)).complete decl hm
    obtain rfl := Option.some.inj (hf.symm.trans hf')
    have hj : (programs.map Program.path)[j]? = some q.path := by
      rw [List.getElem?_map, hq]
      rfl
    have he : inc.target = j := Discovery.index_unique h.registered.distinct hpath hj
    exact ⟨p, hp, inc, hinc, he⟩

theorem Discovery.Discovered.circular (h : Discovered space roots ids programs)
    (he : ReportsCircle programs e) : CircularInclude space programs e := by
  obtain ⟨cycle, p, inc, hc, rfl⟩ := he
  obtain ⟨last, -, hp⟩ := Option.bind_eq_some_iff.1 hc.last
  obtain ⟨path, hpath, decl, hfind, hpos⟩ :=
    (h.follows p (List.mem_of_getElem? hp)).first inc hc.closes
  rw [List.getElem?_map] at hpath
  obtain ⟨q, hq, rfl⟩ := Option.map_eq_some_iff.1 hpath
  exact ⟨cycle, p, inc, q, decl, hc, hq, hfind, by rw [hpos], rfl⟩

theorem ofRoots_gives (h : Discovered space roots ids programs) :
    Gives (LinkOrder.ofRoots programs ids)
      (fun order => Ordered programs order ∧ ∀ i < programs.length, i ∈ order)
      (ReportsCircle programs) := by
  have hrun : Gives (LinkOrder.ofRoots programs ids)
      (fun order => Ordered programs order ∧ ∀ i ∈ ids, i ∈ order) (ReportsCircle programs) := by
    apply Gives.foldlM (fun seen order => Ordered programs order ∧ ∀ i ∈ seen, i ∈ order)
    · exact ⟨.nil, by simp⟩
    · rintro seen root order hroot ⟨ho, hseen⟩
      have hvisit : LinkOrder.Visiting programs [] order root := by
        refine ⟨List.nodup_singleton _, List.isChain_singleton _, ?_, ho, by simp⟩
        intro i hi
        obtain rfl := List.mem_singleton.1 hi
        exact h.valid i hroot
      have hgives := LinkOrder.visit_gives (fun _ _ => h.includes_lt) hvisit (Nat.le_refl _)
      refine hgives.imp (fun order' hv => ⟨hv.ordered, ?_⟩) fun _ he => he
      intro i hi
      rcases List.mem_append.1 hi with hi | hi
      · exact hv.keeps i (hseen i hi)
      · exact hv.reaches i hi
  refine hrun.imp (fun order ⟨ho, hids⟩ => ⟨ho, ?_⟩) fun _ he => he
  intro i hi
  obtain ⟨root, hroot, hreach⟩ := h.reaches hi
  exact ho.closed (hids root hroot) hreach

theorem loadPrograms_loaded (h : loadPrograms space roots = .ok loaded) :
    Loaded space roots loaded := by
  have hgives : Gives (loadPrograms space roots) (Loaded space roots) (fun _ => True) := by
    unfold loadPrograms
    apply (Discovery.discover_gives space roots).weaken.bind
    rintro ⟨ids, programs⟩ hfound
    apply (ofRoots_gives hfound).weaken.bind
    rintro order ⟨hordered, hcomplete⟩
    exact ⟨⟨ids, hfound⟩, hordered, hcomplete⟩
  exact hgives.of_ok h

theorem Loaded.perm (h : Loaded space roots loaded) :
    loaded.order.Perm (List.range loaded.programs.length) := by
  rw [List.perm_ext_iff_of_nodup h.ordered.nodup List.nodup_range]
  intro i
  rw [List.mem_range]
  exact ⟨h.ordered.lt_length, h.complete i⟩

theorem loadPrograms_eq (hd : Discovery.discover space roots = .ok (ids, programs)) :
    loadPrograms space roots = (LinkOrder.ofRoots programs ids).map (⟨programs, ·⟩) := by
  unfold loadPrograms
  rw [hd]
  rfl

theorem loadPrograms_ok_iff (hd : Discovery.discover space roots = .ok (ids, programs)) :
    loadPrograms space roots = .ok loaded ↔
      loaded.programs = programs ∧ LinkOrder.ofRoots programs ids = .ok loaded.order := by
  rw [loadPrograms_eq hd]
  obtain ⟨programs', order'⟩ := loaded
  cases LinkOrder.ofRoots programs ids with
  | error e => simp [Except.map]
  | ok order => simp [Except.map, eq_comm]

theorem loadPrograms_error_iff (hd : Discovery.discover space roots = .ok (ids, programs)) :
    loadPrograms space roots = .error e ↔ LinkOrder.ofRoots programs ids = .error e := by
  rw [loadPrograms_eq hd]
  cases LinkOrder.ofRoots programs ids <;> simp [Except.map]

theorem Discovery.Discovered.loads_iff (h : Discovered space roots ids programs)
    (hd : Discovery.discover space roots = .ok (ids, programs)) :
    (∃ loaded, loadPrograms space roots = .ok loaded) ↔
      ∀ i, ¬ Relation.TransGen (Includes programs) i i := by
  constructor
  · rintro ⟨loaded, hl⟩ i hcycle
    obtain ⟨-, hr⟩ := (loadPrograms_ok_iff hd).1 hl
    obtain ⟨hordered, hcomplete⟩ := (ofRoots_gives h).of_ok hr
    obtain ⟨j, -, hback⟩ := Relation.TransGen.tail'_iff.1 hcycle
    exact hordered.acyclic (hcomplete i (h.includes_lt hback)) hcycle
  · intro hacyclic
    cases hr : LinkOrder.ofRoots programs ids with
    | error e =>
      obtain ⟨cycle, p, inc, hc, -⟩ := (ofRoots_gives h).of_error hr
      exact absurd hc.transGen (hacyclic _)
    | ok order => exact ⟨⟨programs, order⟩, (loadPrograms_ok_iff hd).2 ⟨rfl, hr⟩⟩

theorem Discovery.Discovered.mem_paths_iff (h : Discovered space roots ids programs) :
    path ∈ programs.map Program.path ↔ Reached space roots path := by
  constructor
  · intro hm
    obtain ⟨p, hp, rfl⟩ := List.mem_map.1 hm
    exact h.registered.reached p hp
  · intro hr
    obtain ⟨-, -, i, hi, -⟩ := h.exists_reaching hr
    exact List.mem_of_getElem? hi

theorem Discovery.Discovered.loadable (h : Discovered space roots ids programs) :
    Loadable space roots := by
  refine ⟨?_, ?_, ?_⟩
  · intro root hm
    obtain ⟨path, hc, -⟩ := h.rooted root hm
    exact ⟨path, hc⟩
  · intro path hr
    obtain ⟨p, hp, rfl⟩ := List.mem_map.1 (h.mem_paths_iff.2 hr)
    exact ⟨p.document, h.registered.parsed p hp⟩
  · intro path document decl hr hparsed hm hn
    obtain ⟨p, hp, rfl⟩ := List.mem_map.1 (h.mem_paths_iff.2 hr)
    obtain rfl := hparsed.unique (h.registered.parsed p hp)
    obtain ⟨path, hf, -⟩ := (h.follows p hp).complete decl (by simp [Program.sourceIncludes, hm, hn])
    exact ⟨path, hf⟩

theorem loadable_iff :
    Loadable space roots ↔ (Discovery.discover space roots).isOk = true := by
  have hgives := Discovery.discover_gives space roots
  cases hd : Discovery.discover space roots with
  | error e => exact ⟨fun h => absurd h (hgives.of_error hd), fun h => by cases h⟩
  | ok found => exact ⟨fun _ => rfl, fun _ => (hgives.of_ok hd).loadable⟩

/-- Programs get an order in which includes come first exactly if nothing includes itself on a
detour. Otherwise the error names such a detour. -/
theorem loadPrograms_order (h : Loadable space roots) :
    ∃ ids programs, Discovery.discover space roots = .ok (ids, programs) ∧
      (∀ i j, Includes programs i j ↔ LeadsTo space programs i j) ∧
      ((∃ loaded, loadPrograms space roots = .ok loaded) ↔
        ∀ i, ¬ Relation.TransGen (Includes programs) i i) ∧
      (∀ loaded, loadPrograms space roots = .ok loaded → loaded.programs = programs ∧
        loaded.order.Perm (List.range programs.length) ∧
        ∀ before i after, loaded.order = before ++ i :: after →
          ∀ j, Includes programs i j → j ∈ before) ∧
      ∀ e, loadPrograms space roots = .error e → CircularInclude space programs e := by
  have hgives := Discovery.discover_gives space roots
  cases hd : Discovery.discover space roots with
  | error e => exact absurd h (hgives.of_error hd)
  | ok found =>
    obtain ⟨ids, programs⟩ := found
    have hfound : Discovered space roots ids programs := hgives.of_ok hd
    refine ⟨ids, programs, rfl, hfound.includes_iff, hfound.loads_iff hd, ?_, ?_⟩
    · intro loaded hl
      obtain ⟨rfl, -⟩ := (loadPrograms_ok_iff hd).1 hl
      have hloaded := loadPrograms_loaded hl
      refine ⟨rfl, hloaded.perm, ?_⟩
      intro before i after he j hij
      exact hloaded.ordered.includes_before he hij
    · intro e he
      have hr := (loadPrograms_error_iff hd).1 he
      exact hfound.circular ((ofRoots_gives hfound).of_error hr)

end Order

/-- The files `b.thrift`, `c.thrift` and `d.thrift` include each other in a circle. The first file
leads into it, and the last three files stand outside of it. -/
def circleAndChain : SearchSpace :=
  ⟨⟨[(⟨true, ["a.thrift"]⟩, "include \"e.thrift\" include \"b.thrift\""),
    (⟨true, ["b.thrift"]⟩, "include \"f.thrift\" include \"c.thrift\""),
    (⟨true, ["c.thrift"]⟩, "include \"d.thrift\""),
    (⟨true, ["d.thrift"]⟩, "include \"e.thrift\"\n include \"b.thrift\""),
    (⟨true, ["e.thrift"]⟩, "include \"g.thrift\" include \"f.thrift\""),
    (⟨true, ["f.thrift"]⟩, ""),
    (⟨true, ["g.thrift"]⟩, "include \"f.thrift\"")], []⟩, []⟩

/-- The circle is reported at the include that closes it, without the file that leads into it. The
files outside of the circle are ordered, the included ones first. -/
theorem circle_refused_and_chain_ordered :
    (∃ programs, CircularInclude circleAndChain programs (.unlinkable ⟨"/d.thrift", ⟨2, 2⟩⟩
      (.circularInclude ["b.thrift", "c.thrift", "d.thrift", "b.thrift"]))) ∧
    ∃ loaded, loadPrograms circleAndChain ["/e.thrift"] = .ok loaded ∧
      loaded.programs.map Program.path =
        [⟨true, ["e.thrift"]⟩, ⟨true, ["g.thrift"]⟩, ⟨true, ["f.thrift"]⟩] ∧
      loaded.order = [2, 1, 0] ∧ loaded.order.Perm (List.range 3) ∧
      (∀ j, Includes loaded.programs 0 j → j ∈ [2, 1]) ∧
      ∀ i, ¬ Relation.TransGen (Includes loaded.programs) i i := by
  have hcircle : Loadable circleAndChain ["/a.thrift"] := loadable_iff.2 (by cbv)
  have hchain : Loadable circleAndChain ["/e.thrift"] := loadable_iff.2 (by cbv)
  obtain ⟨ids, programs, -, -, -, -, herror⟩ := loadPrograms_order hcircle
  obtain ⟨ids', programs', -, -, hloads, hordered, -⟩ := loadPrograms_order hchain
  refine ⟨⟨programs, herror _ (by cbv)⟩, ?_⟩
  have hfiles : (loadPrograms circleAndChain ["/e.thrift"]).map
      (fun loaded => (loaded.programs.map Program.path, loaded.order)) =
        .ok ([⟨true, ["e.thrift"]⟩, ⟨true, ["g.thrift"]⟩, ⟨true, ["f.thrift"]⟩], [2, 1, 0]) := by
    cbv
  cases h : loadPrograms circleAndChain ["/e.thrift"] with
  | error e =>
    rw [h] at hfiles
    cases hfiles
  | ok loaded =>
    rw [h] at hfiles
    obtain ⟨hpaths, horder⟩ := Prod.mk.inj (Except.ok.inj hfiles)
    obtain ⟨hprograms, hperm, hbefore⟩ := hordered loaded h
    have hlength : loaded.programs.length = 3 := by
      simpa using congrArg List.length hpaths
    rw [← hprograms] at hloads hperm hbefore
    rw [hlength] at hperm
    exact ⟨loaded, rfl, hpaths, horder, hperm, hbefore [2, 1] 0 [] (by simp [horder]),
      hloads.1 ⟨loaded, h⟩⟩

end ThriftIdl
