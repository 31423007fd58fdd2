import ThriftIdl.Proofs.LoadOrder

namespace ThriftIdl

namespace SearchSpace

def rootFiles (space : SearchSpace) (roots : List String) : List Path :=
  roots.filterMap fun root => (space.store.canonicalize (.ofString root)).toOption

/-- The files that the include statements of a file lead to. -/
def includedBy (space : SearchSpace) (path : Path) : List Path :=
  match (space.store.read path.expr).toOption.bind fun text =>
      (Document.parse path.render text).toOption with
  | some document =>
    (document.includes.filter (!·.native)).filterMap fun decl =>
      space.find? path.directory decl.path
  | none => []

/-- The files that fewer than so many includes lead to, in the order in which they are met. -/
def metWithin (space : SearchSpace) (roots : List String) : Nat → List Path
  | 0 => []
  | steps + 1 =>
    (space.rootFiles roots ++ (space.metWithin roots steps).flatMap space.includedBy).eraseDups

end SearchSpace

namespace Discovery

section Lists

variable {α : Type} [BEq α] [LawfulBEq α] {xs ys : List α} {x : α}

theorem eraseDups_snoc_of_mem (h : x ∈ xs) : (xs ++ [x]).eraseDups = xs.eraseDups := by
  rw [List.eraseDups_append]
  simp [List.removeAll, h]

theorem eraseDups_snoc_of_not_mem (h : x ∉ xs) : (xs ++ [x]).eraseDups = xs.eraseDups ++ [x] := by
  rw [List.eraseDups_append]
  simp [List.removeAll, h, List.eraseDups_cons]

theorem eraseDups_isPrefix (h : xs <+: ys) : xs.eraseDups <+: ys.eraseDups := by
  obtain ⟨added, rfl⟩ := h
  rw [List.eraseDups_append]
  exact List.prefix_append _ _

omit [BEq α] [LawfulBEq α] in
theorem eq_of_isPrefix_of_subset (h : xs <+: ys) (hs : ys ⊆ xs) (hnd : ys.Nodup) : xs = ys := by
  obtain ⟨added, rfl⟩ := h
  cases added with
  | nil => rw [List.append_nil]
  | cons x added =>
    have hx : x ∈ xs := hs (by simp)
    exact absurd rfl ((List.nodup_append.1 hnd).2.2 x hx x List.mem_cons_self)

end Lists

section Included

variable {space : SearchSpace} {roots : List String} {path path' : Path} {document : Document}

theorem includedBy_of_parsed (h : Parsed space.store path document) :
    space.includedBy path = (document.includes.filter (!·.native)).filterMap fun decl =>
      space.find? path.directory decl.path := by
  obtain ⟨text, hread, hparse⟩ := h
  simp [SearchSpace.includedBy, hread, hparse, Except.toOption]

theorem exists_parsed_of_includedBy (h : path' ∈ space.includedBy path) :
    ∃ document, Parsed space.store path document := by
  unfold SearchSpace.includedBy at h
  split at h
  · next document hd =>
    obtain ⟨text, hread, hparse⟩ := Option.bind_eq_some_iff.1 hd
    cases hr : space.store.read path.expr with
    | error fault => simp [hr, Except.toOption] at hread
    | ok text' =>
      obtain rfl : text' = text := by simpa [hr, Except.toOption] using hread
      cases hp : Document.parse path.render text' with
      | error e => simp [hp, Except.toOption] at hparse
      | ok document => exact ⟨document, text', hr, hp⟩
  · simp at h

theorem mem_includedBy : path' ∈ space.includedBy path ↔ ∃ document decl,
    Parsed space.store path document ∧ decl ∈ document.includes ∧ decl.native = false ∧
      space.find? path.directory decl.path = some path' := by
  constructor
  · intro h
    obtain ⟨document, hp⟩ := exists_parsed_of_includedBy h
    rw [includedBy_of_parsed hp] at h
    obtain ⟨decl, hm, hf⟩ := List.mem_filterMap.1 h
    obtain ⟨hdecl, hnative⟩ : decl ∈ document.includes ∧ decl.native = false := by simpa using hm
    exact ⟨document, decl, hp, hdecl, hnative, hf⟩
  · rintro ⟨document, decl, hp, hdecl, hnative, hf⟩
    rw [includedBy_of_parsed hp]
    exact List.mem_filterMap.2 ⟨decl, by simp [hdecl, hnative], hf⟩

theorem reached_of_includedBy (h : Reached space roots path) (hm : path' ∈ space.includedBy path) :
    Reached space roots path' := by
  obtain ⟨document, decl, hp, hdecl, hnative, hf⟩ := mem_includedBy.1 hm
  exact .included h hp hdecl hnative hf

end Included

/-- What is known of the paths and the includes while the includes of the current program are being
followed, and have led to the files seen. -/
structure Traced (space : SearchSpace) (roots : List String) (current : ProgramId)
    (seen : List Path) (programs : List Program) : Prop where
  paths : programs.map Program.path = (space.rootFiles roots ++
    ((programs.map Program.path).take current).flatMap space.includedBy ++ seen).eraseDups
  targets : ∀ i p, programs[i]? = some p →
    p.includes.map (fun inc => (programs.map Program.path)[inc.target]?) =
      (if i < current then space.includedBy p.path else
        if i = current then seen else []).eraseDups.map some

section Runs

variable {space : SearchSpace} {roots : List String} {programs programs' : List Program}
  {path : Path} {current target : ProgramId} {p : Program} {seen : List Path}
  {decl : IncludeDecl}

def appendInclude (target : ProgramId) (position : Position) (p : Program) : Program :=
  if p.includes.any (·.target = target) then p
  else { p with includes := p.includes ++ [⟨target, position⟩] }

theorem map_appendInclude {β : Type} {g : Program → β}
    (h : ∀ p includes, g { p with includes := includes } = g p) (position : Position)
    (programs : List Program) :
    (programs.modify current (appendInclude target position)).map g = programs.map g := by
  apply map_modify_eq
  intro p
  unfold appendInclude
  split
  · rfl
  · exact h p _

theorem register_ok (h : register space.store programs path = .ok (target, programs')) :
    (path ∈ programs.map Program.path ∧ programs' = programs ∨
      path ∉ programs.map Program.path ∧
        ∃ document, programs' = programs ++ [.ofDocument path document]) ∧
      (programs'.map Program.path)[target]? = some path := by
  unfold register at h
  split at h
  · next id found =>
    obtain ⟨hi, hpath, _⟩ := List.findIdx?_eq_some_iff_getElem.1 found
    obtain ⟨rfl, rfl⟩ : id = target ∧ programs = programs' := by
      simpa [pure, Except.pure] using h
    have hat : (programs.map Program.path)[id]? = some path := by
      rw [List.getElem?_map, List.getElem?_eq_getElem hi]
      simpa using hpath
    exact ⟨.inl ⟨List.mem_of_getElem? hat, rfl⟩, hat⟩
  · next missing =>
    have hnew : path ∉ programs.map Program.path := by
      intro hm
      obtain ⟨p, hp, he⟩ := List.mem_map.1 hm
      have hne := List.findIdx?_eq_none_iff.1 missing p hp
      simp [he] at hne
    cases hr : space.store.read path.expr with
    | error fault => simp [hr, Except.mapError, bind, Except.bind] at h
    | ok text =>
      cases hd : Document.parse path.render text with
      | error e => simp [hr, hd, Except.mapError, bind, Except.bind] at h
      | ok document =>
        obtain ⟨rfl, rfl⟩ : programs.length = target ∧
            programs ++ [.ofDocument path document] = programs' := by
          simpa [hr, hd, Except.mapError, bind, Except.bind, pure, Except.pure] using h
        exact ⟨.inr ⟨hnew, document, rfl⟩, by simp [Program.ofDocument]⟩

theorem followInclude_ok (h : followInclude space current p programs decl = .ok programs') :
    ∃ path target programs₁, space.find? p.path.directory decl.path = some path ∧
      register space.store programs path = .ok (target, programs₁) ∧
      programs' = programs₁.modify current (appendInclude target decl.position) := by
  unfold followInclude at h
  split at h
  · cases h
  · next path hf =>
    cases hr : register space.store programs path with
    | error e => simp [hr, bind, Except.bind] at h
    | ok result =>
      obtain ⟨target, programs₁⟩ := result
      rw [hr] at h
      exact ⟨path, target, programs₁, hf, hr, (Except.ok.inj h).symm⟩

theorem register_paths {trail : List Path} (hpaths : programs.map Program.path = trail.eraseDups)
    (hr : register space.store programs path = .ok (target, programs')) :
    programs'.map Program.path = (trail ++ [path]).eraseDups := by
  obtain ⟨⟨hm, rfl⟩ | ⟨hnew, document, rfl⟩, -⟩ := register_ok hr
  · rw [hpaths, List.mem_eraseDups] at hm
    rw [eraseDups_snoc_of_mem hm, hpaths]
  · rw [hpaths, List.mem_eraseDups] at hnew
    rw [eraseDups_snoc_of_not_mem hnew, List.map_append, hpaths]
    rfl

theorem register_isPrefix (hr : register space.store programs path = .ok (target, programs')) :
    programs <+: programs' := by
  obtain ⟨⟨-, rfl⟩ | ⟨-, document, rfl⟩, -⟩ := register_ok hr
  · exact List.prefix_rfl
  · exact List.prefix_append _ _

theorem targets_of_isPrefix {paths paths' files : List Path} {includes : List Include}
    (hp : paths <+: paths')
    (h : includes.map (fun inc => paths[inc.target]?) = files.map some) :
    includes.map (fun inc => paths'[inc.target]?) = files.map some := by
  rw [← h]
  apply List.map_congr_left
  intro inc hinc
  have hm : paths[inc.target]? ∈ files.map some := h ▸ List.mem_map_of_mem hinc
  obtain ⟨path, -, hpath⟩ := List.mem_map.1 hm
  rw [← hpath]
  exact getElem?_of_isPrefix hp hpath.symm

theorem targets_appendInclude {paths : List Path} (hnd : paths.Nodup)
    (ht : paths[target]? = some path)
    (h : p.includes.map (fun inc => paths[inc.target]?) = seen.eraseDups.map some)
    (position : Position) :
    (appendInclude target position p).includes.map (fun inc => paths[inc.target]?) =
      (seen ++ [path]).eraseDups.map some := by
  have hany : p.includes.any (·.target = target) = true ↔ path ∈ seen := by
    rw [← List.mem_eraseDups, ← List.mem_map_of_injective (Option.some_injective _), ← h,
      List.any_eq_true, List.mem_map]
    constructor
    · rintro ⟨inc, hinc, he⟩
      obtain rfl : inc.target = target := by simpa using he
      exact ⟨inc, hinc, ht⟩
    · rintro ⟨inc, hinc, he⟩
      exact ⟨inc, hinc, by simpa using index_unique hnd he ht⟩
  unfold appendInclude
  by_cases hm : path ∈ seen
  · rw [if_pos (hany.2 hm), eraseDups_snoc_of_mem hm, h]
  · rw [if_neg (fun he => hm (hany.1 he)), eraseDups_snoc_of_not_mem hm]
    simp [h, ht]

theorem Traced.include (h : Traced space roots current seen programs)
    (hcurrent : current < programs.length)
    (hr : register space.store programs path = .ok (target, programs'))
    (hnd : (programs'.map Program.path).Nodup) (position : Position) :
    Traced space roots current (seen ++ [path])
      (programs'.modify current (appendInclude target position)) := by
  have hgrow : programs.map Program.path <+: programs'.map Program.path :=
    (register_isPrefix hr).map _
  have hsame : (programs'.modify current (appendInclude target position)).map Program.path =
      programs'.map Program.path := map_appendInclude (fun _ _ => rfl) position programs'
  obtain ⟨hcases, ht⟩ := register_ok hr
  refine ⟨?_, ?_⟩
  · have htake : (programs'.map Program.path).take current =
        (programs.map Program.path).take current := by
      obtain ⟨added, he⟩ := hgrow
      rw [← he, List.take_append_of_le_length]
      rw [List.length_map]
      exact Nat.le_of_lt hcurrent
    rw [hsame, htake, ← List.append_assoc]
    exact register_paths h.paths hr
  · intro i q hq
    rw [hsame]
    by_cases hi : current = i
    · subst hi
      have hp := getElem?_of_isPrefix (register_isPrefix hr) (List.getElem?_eq_getElem hcurrent)
      rw [List.getElem?_modify_eq, hp] at hq
      obtain rfl := Option.some.inj hq
      have hold := h.targets current _ (List.getElem?_eq_getElem hcurrent)
      rw [if_neg (Nat.lt_irrefl _), if_pos rfl] at hold ⊢
      exact targets_appendInclude hnd ht (targets_of_isPrefix hgrow hold) position
    · rw [List.getElem?_modify_ne _ _ hi] at hq
      by_cases hlt : i < programs.length
      · have hp := getElem?_of_isPrefix (register_isPrefix hr) (List.getElem?_eq_getElem hlt)
        obtain rfl : programs[i] = q := Option.some.inj (hp.symm.trans hq)
        have hold := h.targets i _ (List.getElem?_eq_getElem hlt)
        rw [if_neg (Ne.symm hi)] at hold ⊢
        exact targets_of_isPrefix hgrow hold
      · have hafter : ¬ i < current := fun h' => hlt (Nat.lt_trans h' hcurrent)
        rw [if_neg hafter, if_neg (Ne.symm hi)]
        rcases hcases with ⟨-, rfl⟩ | ⟨-, document, rfl⟩
        · rw [List.getElem?_eq_none (Nat.le_of_not_lt hlt)] at hq
          cases hq
        · have hq' : q = .ofDocument path document := by
            rw [List.getElem?_append_right (Nat.le_of_not_lt hlt), List.getElem?_singleton] at hq
            split at hq
            · exact (Option.some.inj hq).symm
            · cases hq
          rw [hq']
          rfl

theorem Traced.advance (h : Traced space roots current seen programs)
    (hall : ((programs.map Program.path)[current]?.toList).flatMap space.includedBy = seen) :
    Traced space roots (current + 1) [] programs := by
  refine ⟨?_, ?_⟩
  · rw [List.take_add_one, List.flatMap_append, hall, List.append_nil, ← List.append_assoc]
    exact h.paths
  · intro i p hp
    rw [h.targets i p hp]
    by_cases hi : i = current
    · subst hi
      rw [if_neg (Nat.lt_irrefl i), if_pos rfl, if_pos (Nat.lt_succ_self i), ← hall]
      simp [hp]
    · by_cases hlt : i < current
      · rw [if_pos hlt, if_pos (Nat.lt_succ_of_lt hlt)]
      · have hge : ¬ i < current + 1 := fun h => hi (Nat.eq_of_lt_succ_of_not_lt h hlt)
        rw [if_neg hlt, if_neg hi, if_neg hge, ite_self]

theorem followInclude_traced {paths : List Path} {decls : List IncludeDecl}
    (h : FollowingIn space roots current p paths decls programs)
    (ht : Traced space roots current
      (decls.filterMap fun d => space.find? p.path.directory d.path) programs)
    (hm : decl ∈ p.sourceIncludes) :
    Gives (followInclude space current p programs decl)
      (fun programs' => FollowingIn space roots current p paths (decls ++ [decl]) programs' ∧
        Traced space roots current
          ((decls ++ [decl]).filterMap fun d => space.find? p.path.directory d.path) programs')
      (fun _ => True) := by
  have hfollow := followInclude_gives h hm
  cases hr : followInclude space current p programs decl with
  | error e => trivial
  | ok programs' =>
    have hin := hfollow.of_ok hr
    refine ⟨hin, ?_⟩
    obtain ⟨path, target, programs₁, hf, hreg, rfl⟩ := followInclude_ok hr
    obtain ⟨q, hq, -⟩ := h.here
    have hnd : (programs₁.map Program.path).Nodup := by
      have hd := hin.following.registered.distinct
      rwa [map_appendInclude fun _ _ => rfl] at hd
    have hadd : (decls ++ [decl]).filterMap (fun d => space.find? p.path.directory d.path) =
        decls.filterMap (fun d => space.find? p.path.directory d.path) ++ [path] := by
      simp [List.filterMap_append, hf]
    rw [hadd]
    exact ht.include (List.getElem?_eq_some_iff.1 hq).1 hreg hnd decl.position

theorem followIncludes_traced (h : Following space roots current [] programs)
    (ht : Traced space roots current [] programs) :
    Gives (followIncludes space programs current)
      (fun programs' => Following space roots (current + 1) [] programs' ∧
        Traced space roots (current + 1) [] programs') (fun _ => True) := by
  have hfollow := followIncludes_gives h List.prefix_rfl
  cases hr : followIncludes space programs current with
  | error e => trivial
  | ok programs' =>
    refine ⟨(hfollow.of_ok hr).1, ?_⟩
    unfold followIncludes at hr
    cases hp : programs[current]? with
    | none =>
      rw [hp] at hr
      obtain rfl := Except.ok.inj hr
      exact ht.advance (by simp [hp])
    | some p =>
      rw [hp] at hr
      have hstart : FollowingIn space roots current p (programs.map Program.path) [] programs :=
        ⟨h, ⟨p, hp, rfl, rfl⟩, List.prefix_rfl⟩
      have hrun : Gives (p.sourceIncludes.foldlM (followInclude space current p) programs)
          (fun programs' =>
            FollowingIn space roots current p (programs.map Program.path) p.sourceIncludes
              programs' ∧
            Traced space roots current
              (p.sourceIncludes.filterMap fun d => space.find? p.path.directory d.path) programs')
          (fun _ => True) := by
        apply Gives.foldlM (fun decls programs' =>
          FollowingIn space roots current p (programs.map Program.path) decls programs' ∧
            Traced space roots current
              (decls.filterMap fun d => space.find? p.path.directory d.path) programs')
        · exact ⟨hstart, ht⟩
        · rintro decls decl programs' hm ⟨hin, htraced⟩
          exact followInclude_traced hin htraced hm
      obtain ⟨hin, htraced⟩ := hrun.of_ok hr
      apply htraced.advance
      obtain ⟨q, hq, hpath, hdocument⟩ := hin.here
      have hparsed := hin.following.registered.parsed q (List.mem_of_getElem? hq)
      rw [hpath, hdocument] at hparsed
      simp only [List.getElem?_map, hq, hpath, Option.map_some, Option.toList_some,
        List.flatMap_singleton, includedBy_of_parsed hparsed, Program.sourceIncludes]

theorem followAll_traced (h : Following space roots 0 [] programs)
    (ht : Traced space roots 0 [] programs) (count : Nat) :
    Gives ((List.range count).foldlM (followIncludes space) programs)
      (fun programs' => Following space roots count [] programs' ∧
        Traced space roots count [] programs') (fun _ => True) := by
  induction count with
  | zero => exact ⟨h, ht⟩
  | succ count ih =>
    rw [List.range_succ, List.foldlM_append]
    apply ih.bind
    rintro programs' ⟨h', ht'⟩
    rw [List.foldlM_cons]
    apply (followIncludes_traced h' ht').bind
    intro programs'' h''
    exact h''

theorem registerRoots_paths (space : SearchSpace) (roots : List String) :
    Gives (registerRoots space.store roots)
      (fun found => found.2.map Program.path = (space.rootFiles roots).eraseDups)
      (fun _ => True) := by
  apply Gives.foldlM (fun (seen : List String) (found : List ProgramId × List Program) =>
    found.2.map Program.path = (space.rootFiles seen).eraseDups) rfl
  rintro seen root ⟨ids, programs⟩ - hpaths
  cases hc : space.store.canonicalize (.ofString root) with
  | error fault => trivial
  | ok path =>
    change Gives (register space.store programs path >>= _) _ _
    cases hr : register space.store programs path with
    | error e => trivial
    | ok result =>
      obtain ⟨id, programs'⟩ := result
      have hroots : space.rootFiles (seen ++ [root]) = space.rootFiles seen ++ [path] := by
        simp [SearchSpace.rootFiles, List.filterMap_append, hc, Except.toOption]
      change programs'.map Program.path = _
      rw [hroots]
      exact register_paths hpaths hr

theorem discover_traced {ids : List ProgramId} (hd : discover space roots = .ok (ids, programs)) :
    Traced space roots space.store.files.length [] programs := by
  unfold discover at hd
  cases hroots : registerRoots space.store roots with
  | error e =>
    rw [hroots] at hd
    cases hd
  | ok found =>
    obtain ⟨ids', programs₀⟩ := found
    rw [hroots] at hd
    change ((List.range space.store.files.length).foldlM (followIncludes space) programs₀ >>=
      fun programs => .ok (ids', programs)) = _ at hd
    have hrooted := (registerRoots_gives space roots).of_ok hroots
    have hpaths := (registerRoots_paths space roots).of_ok hroots
    have htraced : Traced space roots 0 [] programs₀ := by
      refine ⟨by simpa using hpaths, ?_⟩
      intro i p hp
      rw [hrooted.unfollowed p (List.mem_of_getElem? hp), if_neg (Nat.not_lt_zero i), ite_self]
      rfl
    have hall := followAll_traced hrooted.following htraced space.store.files.length
    cases hf : (List.range space.store.files.length).foldlM (followIncludes space) programs₀ with
    | error e =>
      rw [hf] at hd
      cases hd
    | ok programs' =>
      rw [hf] at hd
      obtain rfl : programs' = programs := (Prod.mk.inj (Except.ok.inj hd)).2
      exact (hall.of_ok hf).2

end Runs

end Discovery

end ThriftIdl
