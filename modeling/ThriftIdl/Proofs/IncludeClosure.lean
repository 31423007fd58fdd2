import ThriftIdl.Proofs.CheckedOrder
import ThriftIdl.Proofs.DiscoveryOrder
import ThriftIdl.Proofs.IncludeSearch

namespace ThriftIdl

open Discovery (Discovered Traced)

/-- What keeps a load from finding and ordering its files. -/
inductive Obstructed (space : SearchSpace) (roots : List String) : Prop
  | rootless {root : String} {fault : SourceFault} (hm : root ∈ roots)
      (hc : space.store.canonicalize (.ofString root) = .error fault)
  | unreadable {path : Path} {fault : SourceFault} (h : Reached space roots path)
      (hr : space.store.read path.expr = .error fault)
  | malformed {path : Path} {text : String} {e : SyntaxError} (h : Reached space roots path)
      (hr : space.store.read path.expr = .ok text)
      (hd : Document.parse path.render text = .error e)
  | unresolved {path : Path} {document : Document} {decl : IncludeDecl}
      (h : Reached space roots path) (hp : Parsed space.store path document)
      (hm : decl ∈ document.includes) (hn : decl.native = false)
      (hf : space.find? path.directory decl.path = none)
  | circular {path : Path} (h : Reached space roots path)
      (hc : Relation.TransGen (fun path path' => path' ∈ space.includedBy path) path path)

section Files

variable {space : SearchSpace} {roots : List String} {files : List Path} {path : Path}

theorem mem_rootFiles : path ∈ space.rootFiles roots ↔
    ∃ root ∈ roots, space.store.canonicalize (.ofString root) = .ok path := by
  unfold SearchSpace.rootFiles
  rw [List.mem_filterMap]
  constructor
  · rintro ⟨root, hm, hc⟩
    refine ⟨root, hm, ?_⟩
    cases hr : space.store.canonicalize (.ofString root) with
    | error fault => simp [hr, Except.toOption] at hc
    | ok path' =>
      obtain rfl : path' = path := by simpa [hr, Except.toOption] using hc
      rfl
  · rintro ⟨root, hm, hc⟩
    exact ⟨root, hm, by simp [hc, Except.toOption]⟩

theorem Reached.mem_of_closed (h : Reached space roots path)
    (hroots : ∀ path ∈ space.rootFiles roots, path ∈ files)
    (hclosed : ∀ path ∈ files, ∀ path' ∈ space.includedBy path, path' ∈ files) : path ∈ files := by
  induction h with
  | root hm hc => exact hroots _ (mem_rootFiles.2 ⟨_, hm, hc⟩)
  | included _ hp hm hn hf ih =>
    exact hclosed _ ih _ (Discovery.mem_includedBy.2 ⟨_, _, hp, hm, hn, hf⟩)

theorem canonicalize_of_parsed {document : Document} (h : Parsed space.store path document) :
    space.store.canonicalize path.expr = .ok path := by
  obtain ⟨text, hread, -⟩ := h
  unfold SourceStore.canonicalize
  rw [Path.normalize_expr]
  simp [Discovery.lookup_of_read hread]

theorem metWithin_isPrefix_succ (space : SearchSpace) (roots : List String) (steps : Nat) :
    space.metWithin roots steps <+: space.metWithin roots (steps + 1) := by
  induction steps with
  | zero => exact List.nil_prefix
  | succ steps ih =>
    apply Discovery.eraseDups_isPrefix
    obtain ⟨added, he⟩ := ih
    rw [← he, List.flatMap_append, ← List.append_assoc]
    exact List.prefix_append _ _

section Search

variable (hfiles : files = (space.rootFiles roots ++ files.flatMap space.includedBy).eraseDups)

include hfiles

theorem metWithin_isPrefix (steps : Nat) : space.metWithin roots steps <+: files := by
  induction steps with
  | zero => exact List.nil_prefix
  | succ steps ih =>
    have hmet : (space.rootFiles roots ++
        (space.metWithin roots steps).flatMap space.includedBy).eraseDups <+:
        (space.rootFiles roots ++ files.flatMap space.includedBy).eraseDups := by
      apply Discovery.eraseDups_isPrefix
      obtain ⟨added, he⟩ := ih
      conv_rhs => rw [← he, List.flatMap_append, ← List.append_assoc]
      exact List.prefix_append _ _
    rwa [← hfiles] at hmet

theorem metWithin_eq_of_stands_still (hnd : files.Nodup)
    (hreached : ∀ path ∈ files, Reached space roots path) {steps : Nat}
    (hstill : space.metWithin roots (steps + 1) = space.metWithin roots steps) :
    space.metWithin roots steps = files := by
  apply Discovery.eq_of_isPrefix_of_subset (metWithin_isPrefix hfiles steps) ?_ hnd
  intro path hm
  apply (hreached path hm).mem_of_closed
  · intro root hroot
    rw [← hstill, SearchSpace.metWithin, List.mem_eraseDups]
    exact List.mem_append_left _ hroot
  · intro path hpath path' hincluded
    rw [← hstill, SearchSpace.metWithin, List.mem_eraseDups]
    exact List.mem_append_right _ (List.mem_flatMap.2 ⟨path, hpath, hincluded⟩)

theorem metWithin_eq_files (hnd : files.Nodup)
    (hreached : ∀ path ∈ files, Reached space roots path) :
    space.metWithin roots files.length = files := by
  have hprogress (steps : Nat) :
      space.metWithin roots steps = files ∨ steps ≤ (space.metWithin roots steps).length := by
    induction steps with
    | zero => exact .inr (Nat.zero_le _)
    | succ steps ih =>
      rcases ih with he | hle
      · left
        rw [SearchSpace.metWithin, he, ← hfiles]
      · have hgrow := metWithin_isPrefix_succ space roots steps
        rcases Nat.lt_or_ge (space.metWithin roots steps).length
          (space.metWithin roots (steps + 1)).length with hlt | hge
        · exact .inr (Nat.lt_of_le_of_lt hle hlt)
        · have hstill : space.metWithin roots steps = space.metWithin roots (steps + 1) :=
            hgrow.eq_of_length (Nat.le_antisymm hgrow.length_le hge)
          left
          rw [← hstill]
          exact metWithin_eq_of_stands_still hfiles hnd hreached hstill.symm
  rcases hprogress files.length with he | hle
  · exact he
  · have hprefix := metWithin_isPrefix hfiles files.length
    exact hprefix.eq_of_length (Nat.le_antisymm hprefix.length_le hle)

end Search

end Files

section Closure

variable {space : SearchSpace} {roots : List String} {ids : List ProgramId}
  {programs : List Program} {loaded : LoadedPrograms} {path path' : Path} {i j : ProgramId}

namespace Discovery

theorem Discovered.includes_iff_included (h : Discovered space roots ids programs)
    (hi : (programs.map Program.path)[i]? = some path)
    (hj : (programs.map Program.path)[j]? = some path') :
    Includes programs i j ↔ path' ∈ space.includedBy path := by
  rw [List.getElem?_map] at hi hj
  obtain ⟨p, hp, rfl⟩ := Option.map_eq_some_iff.1 hi
  obtain ⟨q, hq, rfl⟩ := Option.map_eq_some_iff.1 hj
  rw [h.includes_iff, mem_includedBy]
  constructor
  · rintro ⟨p', q', decl, hp', hq', hdecl, hnative, hf⟩
    obtain rfl := Option.some.inj (hp.symm.trans hp')
    obtain rfl := Option.some.inj (hq.symm.trans hq')
    exact ⟨p.document, decl, h.registered.parsed p (List.mem_of_getElem? hp), hdecl, hnative, hf⟩
  · rintro ⟨document, decl, hparsed, hdecl, hnative, hf⟩
    obtain rfl := hparsed.unique (h.registered.parsed p (List.mem_of_getElem? hp))
    exact ⟨p, q, decl, hp, hq, hdecl, hnative, hf⟩

theorem Discovered.included_of_includes (h : Discovered space roots ids programs)
    (hc : Relation.TransGen (Includes programs) i j) :
    ∃ path path', (programs.map Program.path)[i]? = some path ∧
      (programs.map Program.path)[j]? = some path' ∧
      Relation.TransGen (fun path path' => path' ∈ space.includedBy path) path path' := by
  have hpath {i : ProgramId} (hi : i < programs.length) :
      (programs.map Program.path)[i]? = some programs[i].path := by
    rw [List.getElem?_map, List.getElem?_eq_getElem hi]
    rfl
  induction hc with
  | single hij =>
    have hi : i < programs.length := by
      obtain ⟨p, hp, -⟩ := hij
      exact (List.getElem?_eq_some_iff.1 hp).1
    have hj := h.includes_lt hij
    exact ⟨_, _, hpath hi, hpath hj, .single ((h.includes_iff_included (hpath hi) (hpath hj)).1 hij)⟩
  | tail _ hjk ih =>
    obtain ⟨path, path', hi, hj, hreach⟩ := ih
    have hk := h.includes_lt hjk
    exact ⟨path, _, hi, hpath hk, hreach.tail ((h.includes_iff_included hj (hpath hk)).1 hjk)⟩

theorem Discovered.includes_of_included (h : Discovered space roots ids programs)
    (hi : (programs.map Program.path)[i]? = some path)
    (hc : Relation.TransGen (fun path path' => path' ∈ space.includedBy path) path path') :
    ∃ j, (programs.map Program.path)[j]? = some path' ∧
      Relation.TransGen (Includes programs) i j := by
  have hnext {i : ProgramId} {path path' : Path} (hi : (programs.map Program.path)[i]? = some path)
      (hm : path' ∈ space.includedBy path) :
      ∃ j, (programs.map Program.path)[j]? = some path' ∧ Includes programs i j := by
    have hreached := h.mem_paths_iff.1 (List.mem_of_getElem? hi)
    obtain ⟨j, hj⟩ := List.mem_iff_getElem?.1 (h.mem_paths_iff.2 (reached_of_includedBy hreached hm))
    exact ⟨j, hj, (h.includes_iff_included hi hj).2 hm⟩
  induction hc with
  | single hm =>
    obtain ⟨j, hj, hij⟩ := hnext hi hm
    exact ⟨j, hj, .single hij⟩
  | tail _ hm ih =>
    obtain ⟨j, hj, hreach⟩ := ih
    obtain ⟨k, hk, hjk⟩ := hnext hj hm
    exact ⟨k, hk, hreach.tail hjk⟩

end Discovery

theorem obstructed_of_not_loadable (h : ¬ Loadable space roots) : Obstructed space roots := by
  by_contra hno
  apply h
  refine ⟨?_, ?_, ?_⟩
  · intro root hm
    cases hc : space.store.canonicalize (.ofString root) with
    | error fault => exact absurd (.rootless hm hc) hno
    | ok path => exact ⟨path, rfl⟩
  · intro path hr
    cases hread : space.store.read path.expr with
    | error fault => exact absurd (.unreadable hr hread) hno
    | ok text =>
      cases hd : Document.parse path.render text with
      | error e => exact absurd (.malformed hr hread hd) hno
      | ok document => exact ⟨document, text, hread, hd⟩
  · intro path document decl hr hp hm hn
    cases hf : space.find? path.directory decl.path with
    | none => exact absurd (.unresolved hr hp hm hn hf) hno
    | some path' => exact ⟨path', rfl⟩

theorem obstructed_iff : Obstructed space roots ↔ ¬ Loadable space roots ∨
    ∃ path, Reached space roots path ∧
      Relation.TransGen (fun path path' => path' ∈ space.includedBy path) path path := by
  constructor
  · intro h
    cases h with
    | rootless hm hc =>
      left
      intro hl
      obtain ⟨path, hpath⟩ := hl.rooted _ hm
      simp [hc] at hpath
    | unreadable hr hread =>
      left
      intro hl
      obtain ⟨document, text, ht, -⟩ := hl.parsed _ hr
      simp [hread] at ht
    | malformed hr hread hd =>
      left
      intro hl
      obtain ⟨document, text, ht, hparse⟩ := hl.parsed _ hr
      obtain rfl := Except.ok.inj (hread.symm.trans ht)
      simp [hd] at hparse
    | unresolved hr hp hm hn hf =>
      left
      intro hl
      obtain ⟨path', hf'⟩ := hl.found _ _ _ hr hp hm hn
      simp [hf] at hf'
    | circular hr hc => exact .inr ⟨_, hr, hc⟩
  · rintro (h | ⟨path, hr, hc⟩)
    · exact obstructed_of_not_loadable h
    · exact .circular hr hc

theorem loadPrograms_fails_iff :
    (∃ e, loadPrograms space roots = .error e) ↔ Obstructed space roots := by
  rw [obstructed_iff]
  have hgives := Discovery.discover_gives space roots
  cases hd : Discovery.discover space roots with
  | error e =>
    have hfails : loadPrograms space roots = .error e := by
      unfold loadPrograms
      rw [hd]
      rfl
    simp only [hfails, Except.error.injEq, exists_eq', true_iff]
    exact .inl (hgives.of_error hd)
  | ok found =>
    obtain ⟨ids, programs⟩ := found
    have hfound : Discovered space roots ids programs := hgives.of_ok hd
    have hloads := hfound.loads_iff hd
    constructor
    · rintro ⟨e, he⟩
      right
      by_contra hno
      obtain ⟨loaded, hl⟩ := hloads.2 fun i hcycle => by
        obtain ⟨path, path', hi, hi', hc⟩ := hfound.included_of_includes hcycle
        obtain rfl := Option.some.inj (hi.symm.trans hi')
        exact hno ⟨path, hfound.mem_paths_iff.1 (List.mem_of_getElem? hi), hc⟩
      simp [he] at hl
    · rintro (h | ⟨path, hr, hc⟩)
      · exact absurd hfound.loadable h
      · cases hl : loadPrograms space roots with
        | error e => exact ⟨e, rfl⟩
        | ok loaded =>
          obtain ⟨i, hi⟩ := List.mem_iff_getElem?.1 (hfound.mem_paths_iff.2 hr)
          obtain ⟨j, hj, hcycle⟩ := hfound.includes_of_included hi hc
          obtain rfl := Discovery.index_unique hfound.registered.distinct hi hj
          exact absurd hcycle (hloads.1 ⟨loaded, hl⟩ i)

theorem loadPrograms_files (h : loadPrograms space roots = .ok loaded) :
    (∃ ids, Discovered space roots ids loaded.programs) ∧
    (loaded.programs.map Program.path = (space.rootFiles roots ++
      (loaded.programs.map Program.path).flatMap space.includedBy).eraseDups) ∧
    ∀ p ∈ loaded.programs,
      p.includes.map (fun inc => (loaded.programs.map Program.path)[inc.target]?) =
        (space.includedBy p.path).eraseDups.map some := by
  cases hd : Discovery.discover space roots with
  | error e =>
    unfold loadPrograms at h
    rw [hd] at h
    cases h
  | ok found =>
    obtain ⟨ids, programs⟩ := found
    obtain ⟨rfl, -⟩ := (loadPrograms_ok_iff hd).1 h
    have hfound : Discovered space roots ids loaded.programs :=
      (Discovery.discover_gives space roots).of_ok hd
    have htraced := Discovery.discover_traced hd
    have hle := hfound.registered.length_le
    refine ⟨⟨ids, hfound⟩, ?_, ?_⟩
    · have hpaths := htraced.paths
      rwa [List.take_of_length_le (by rwa [List.length_map]), List.append_nil] at hpaths
    · intro p hp
      obtain ⟨i, hi, rfl⟩ := List.getElem_of_mem hp
      have htargets := htraced.targets i _ (List.getElem?_eq_getElem hi)
      rwa [if_pos (Nat.lt_of_lt_of_le hi hle)] at htargets

/-- A load finds each file that its roots lead to, once, nearest files first and as they are met. It
fails exactly if one of these files stands in its way. An include leads to the file next to the
including one, or else to the one in the first directory that has it, and the tables of the load are
in step with its programs. -/
theorem loadPrograms_closure (space : SearchSpace) (roots : List String) :
    (∀ directory included,
      (∀ path, space.find? directory included = some path ↔
        space.Finds directory included path) ∧
      (space.find? directory included = none ↔
        ∀ base ∈ directory.expr :: space.directories, ∀ path,
          ¬ space.LeadsTo included base path)) ∧
    (∀ loaded, loadPrograms space roots = .ok loaded →
      (loaded.programs.map Program.path).Nodup ∧
      (∀ path, path ∈ loaded.programs.map Program.path ↔ Reached space roots path) ∧
      (∀ p ∈ loaded.programs, space.store.canonicalize p.path.expr = .ok p.path ∧
        Parsed space.store p.path p.document ∧
        p.includes.map (fun inc => (loaded.programs.map Program.path)[inc.target]?) =
          (space.includedBy p.path).eraseDups.map some) ∧
      (∀ steps, space.metWithin roots steps <+: loaded.programs.map Program.path) ∧
      space.metWithin roots loaded.programs.length = loaded.programs.map Program.path ∧
      ∃ ids t, LoadTables.discover space roots = .ok (ids, t) ∧ t.Complete loaded.programs) ∧
    Checked.loadPrograms space roots = .refusing (loadPrograms space roots) ∧
    ((∃ e, loadPrograms space roots = .error e) ↔ Obstructed space roots) := by
  refine ⟨fun directory included => ⟨fun path => SearchSpace.find?_eq_some_iff,
    SearchSpace.find?_eq_none_iff⟩, ?_, Checked.loadPrograms_eq space roots,
    loadPrograms_fails_iff⟩
  intro loaded h
  obtain ⟨⟨ids, hfound⟩, hpaths, htargets⟩ := loadPrograms_files h
  have hreached : ∀ path, path ∈ loaded.programs.map Program.path ↔ Reached space roots path :=
    fun path => hfound.mem_paths_iff
  refine ⟨hfound.registered.distinct, hreached, ?_, metWithin_isPrefix hpaths, ?_,
    loadPrograms_tables h⟩
  · intro p hp
    have hparsed := hfound.registered.parsed p hp
    exact ⟨canonicalize_of_parsed hparsed, hparsed, htargets p hp⟩
  · have hall := metWithin_eq_files hpaths hfound.registered.distinct
      fun path hm => (hreached path).1 hm
    rwa [List.length_map] at hall

end Closure

/-- Two includes lead to one file, which one of them names by way of another directory. Of two
directories that are searched, one has a file that stands next to the including one as well, both
have another file, and only the second one has the last. -/
def diamond : SearchSpace :=
  ⟨⟨[(⟨true, ["a.thrift"]⟩, "include \"b.thrift\" include \"c.thrift\" cpp_include \"d.h\""),
    (⟨true, ["b.thrift"]⟩, "include \"x/d.thrift\""),
    (⟨true, ["c.thrift"]⟩, "include \"x/../x/d.thrift\" include \"./b.thrift\" " ++
      "include \"e.thrift\" include \"f.thrift\""),
    (⟨true, ["x", "d.thrift"]⟩, ""),
    (⟨true, ["lib", "b.thrift"]⟩, ""),
    (⟨true, ["lib", "e.thrift"]⟩, ""),
    (⟨true, ["more", "e.thrift"]⟩, ""),
    (⟨true, ["more", "f.thrift"]⟩, "include \"b.thrift\"")], []⟩,
    [⟨true, [.down "lib"]⟩, ⟨true, [.down "more"]⟩]⟩

/-- The file that stands in both directories is taken from the first one. What stands next to the
including file is not looked for elsewhere, but it is from a file in another directory. -/
theorem diamond_closure : ∃ loaded,
    loadPrograms diamond ["/a.thrift", "/x/../a.thrift"] = .ok loaded ∧
      loaded.programs.map Program.path = [⟨true, ["a.thrift"]⟩, ⟨true, ["b.thrift"]⟩,
        ⟨true, ["c.thrift"]⟩, ⟨true, ["x", "d.thrift"]⟩, ⟨true, ["lib", "e.thrift"]⟩,
        ⟨true, ["more", "f.thrift"]⟩, ⟨true, ["lib", "b.thrift"]⟩] ∧
      Reached diamond ["/a.thrift", "/x/../a.thrift"] ⟨true, ["more", "f.thrift"]⟩ ∧
      diamond.Finds ⟨true, []⟩ "e.thrift" ⟨true, ["lib", "e.thrift"]⟩ ∧
      diamond.Finds ⟨true, []⟩ "b.thrift" ⟨true, ["b.thrift"]⟩ ∧
      diamond.Finds ⟨true, ["more"]⟩ "b.thrift" ⟨true, ["lib", "b.thrift"]⟩ ∧
      ∃ ids t, LoadTables.discover diamond ["/a.thrift", "/x/../a.thrift"] = .ok (ids, t) ∧
        t.byPath.lookup ⟨true, ["more", "f.thrift"]⟩ = some 5 := by
  have hpaths : (loadPrograms diamond ["/a.thrift", "/x/../a.thrift"]).map
      (fun loaded => loaded.programs.map Program.path) = .ok [⟨true, ["a.thrift"]⟩,
        ⟨true, ["b.thrift"]⟩, ⟨true, ["c.thrift"]⟩, ⟨true, ["x", "d.thrift"]⟩,
        ⟨true, ["lib", "e.thrift"]⟩, ⟨true, ["more", "f.thrift"]⟩,
        ⟨true, ["lib", "b.thrift"]⟩] := by cbv
  obtain ⟨hfinds, hclosure, -⟩ :=
    loadPrograms_closure diamond ["/a.thrift", "/x/../a.thrift"]
  cases h : loadPrograms diamond ["/a.thrift", "/x/../a.thrift"] with
  | error e =>
    rw [h] at hpaths
    cases hpaths
  | ok loaded =>
    rw [h] at hpaths
    have hfiles : loaded.programs.map Program.path = _ := Except.ok.inj hpaths
    obtain ⟨-, hreached, -, -, -, ids, t, ht, hcomplete⟩ := hclosure loaded h
    refine ⟨loaded, rfl, hfiles, (hreached _).1 (by rw [hfiles]; simp),
      ((hfinds _ _).1 _).1 (by decide), ((hfinds _ _).1 _).1 (by decide),
      ((hfinds _ _).1 _).1 (by decide), ids, t, ht, (hcomplete.paths _ _).2 ?_⟩
    rw [hfiles]
    rfl

end ThriftIdl
