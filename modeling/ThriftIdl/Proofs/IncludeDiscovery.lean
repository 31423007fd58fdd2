import Mathlib.Data.List.Nodup
import Mathlib.Logic.Relation
import ThriftIdl.Discovery
import ThriftIdl.Proofs.Runs

namespace ThriftIdl

def Program.sourceIncludes (p : Program) : List IncludeDecl :=
  p.document.includes.filter (!·.native)

def Parsed (store : SourceStore) (path : Path) (document : Document) : Prop :=
  ∃ text, store.read path.expr = .ok text ∧ Document.parse path.render text = .ok document

theorem Parsed.unique {store : SourceStore} {path : Path} {document document' : Document}
    (h : Parsed store path document) (h' : Parsed store path document') : document = document' := by
  obtain ⟨text, hread, hparse⟩ := h
  obtain ⟨text', hread', hparse'⟩ := h'
  obtain rfl := Except.ok.inj (hread.symm.trans hread')
  exact Except.ok.inj (hparse.symm.trans hparse')

inductive Reached (space : SearchSpace) (roots : List String) : Path → Prop
  | root {root : String} {path : Path} (hm : root ∈ roots)
      (hc : space.store.canonicalize (.ofString root) = .ok path) : Reached space roots path
  | included {path path' : Path} {document : Document} {decl : IncludeDecl}
      (h : Reached space roots path) (hp : Parsed space.store path document)
      (hm : decl ∈ document.includes) (hn : decl.native = false)
      (hf : space.find? path.directory decl.path = some path') : Reached space roots path'

/-- Every file that is reached is there, can be read and is well-formed. -/
structure Loadable (space : SearchSpace) (roots : List String) : Prop where
  rooted : ∀ root ∈ roots, ∃ path, space.store.canonicalize (.ofString root) = .ok path
  parsed : ∀ path, Reached space roots path → ∃ document, Parsed space.store path document
  found : ∀ path document decl, Reached space roots path → Parsed space.store path document →
    decl ∈ document.includes → decl.native = false →
      ∃ path', space.find? path.directory decl.path = some path'

def Includes (programs : List Program) (i j : ProgramId) : Prop :=
  ∃ p, programs[i]? = some p ∧ ∃ inc ∈ p.includes, inc.target = j

namespace Discovery

/-- Includes are in step with the statements of a file. -/
structure Follows (space : SearchSpace) (paths : List Path) (directory : Path)
    (decls : List IncludeDecl) (includes : List Include) : Prop where
  complete : ∀ decl ∈ decls, ∃ path, space.find? directory decl.path = some path ∧
    ∃ inc ∈ includes, paths[inc.target]? = some path
  first : ∀ inc ∈ includes, ∃ path, paths[inc.target]? = some path ∧
    ∃ decl, decls.find? (fun decl => space.find? directory decl.path = some path) = some decl ∧
      decl.position = inc.position
  nodup : (includes.map Include.target).Nodup

structure Registered (space : SearchSpace) (roots : List String) (programs : List Program) :
    Prop where
  distinct : (programs.map Program.path).Nodup
  parsed : ∀ p ∈ programs, Parsed space.store p.path p.document
  fresh : ∀ p ∈ programs, p.types = [] ∧ p.services = []
  reached : ∀ p ∈ programs, Reached space roots p.path

def followed (current : ProgramId) (seen : List IncludeDecl) (i : ProgramId) (p : Program) :
    List IncludeDecl :=
  if i < current then p.sourceIncludes else if i = current then seen else []

structure Following (space : SearchSpace) (roots : List String) (current : ProgramId)
    (seen : List IncludeDecl) (programs : List Program) : Prop where
  registered : Registered space roots programs
  follows : ∀ i p, programs[i]? = some p →
    Follows space (programs.map Program.path) p.path.directory (followed current seen i p)
      p.includes

structure Discovered (space : SearchSpace) (roots : List String) (ids : List ProgramId)
    (programs : List Program) : Prop where
  registered : Registered space roots programs
  follows : ∀ p ∈ programs,
    Follows space (programs.map Program.path) p.path.directory p.sourceIncludes p.includes
  rooted : ∀ root ∈ roots, ∃ path, space.store.canonicalize (.ofString root) = .ok path ∧
    ∃ id ∈ ids, (programs.map Program.path)[id]? = some path
  valid : ∀ id ∈ ids, id < programs.length

section Follows

variable {space : SearchSpace} {paths paths' : List Path} {directory path : Path}
  {decls : List IncludeDecl} {decl : IncludeDecl} {includes : List Include} {target : ProgramId}

theorem getElem?_of_isPrefix {α : Type} {xs ys : List α} {i : Nat} {x : α} (hp : xs <+: ys)
    (h : xs[i]? = some x) : ys[i]? = some x := by
  obtain ⟨added, rfl⟩ := hp
  obtain ⟨hi, _⟩ := List.getElem?_eq_some_iff.1 h
  rw [List.getElem?_append_left hi]
  exact h

theorem index_unique {α : Type} {xs : List α} (hnd : xs.Nodup) {i j : Nat} {x : α}
    (hi : xs[i]? = some x) (hj : xs[j]? = some x) : i = j :=
  (List.getElem?_inj (List.getElem?_eq_some_iff.1 hi).1 hnd).1 (hi.trans hj.symm)

theorem follows_nil : Follows space paths directory [] [] :=
  ⟨by simp, by simp, List.nodup_nil⟩

theorem Follows.mono (h : Follows space paths directory decls includes) (hp : paths <+: paths') :
    Follows space paths' directory decls includes := by
  refine ⟨?_, ?_, h.nodup⟩
  · intro decl hm
    obtain ⟨path, hf, inc, hinc, hpath⟩ := h.complete decl hm
    exact ⟨path, hf, inc, hinc, getElem?_of_isPrefix hp hpath⟩
  · intro inc hinc
    obtain ⟨path, hpath, hfirst⟩ := h.first inc hinc
    exact ⟨path, getElem?_of_isPrefix hp hpath, hfirst⟩

theorem Follows.find?_eq_none (h : Follows space paths directory decls includes)
    (hnd : paths.Nodup) (ht : paths[target]? = some path)
    (hnot : ∀ inc ∈ includes, inc.target ≠ target) :
    decls.find? (fun decl => space.find? directory decl.path = some path) = none := by
  rw [List.find?_eq_none]
  intro decl hd he
  have hf : space.find? directory decl.path = some path := by simpa using he
  obtain ⟨path', hf', inc, hinc, hpath'⟩ := h.complete decl hd
  obtain rfl := Option.some.inj (hf.symm.trans hf')
  exact hnot inc hinc (index_unique hnd hpath' ht)

theorem Follows.snoc (h : Follows space paths directory decls includes) (hnd : paths.Nodup)
    (hf : space.find? directory decl.path = some path) (ht : paths[target]? = some path) :
    Follows space paths directory (decls ++ [decl])
      (if includes.any (·.target = target) then includes
        else includes ++ [⟨target, decl.position⟩]) := by
  have hold : ∀ inc ∈ includes, ∃ path', paths[inc.target]? = some path' ∧
      ∃ d, (decls ++ [decl]).find? (fun d => space.find? directory d.path = some path') = some d ∧
        d.position = inc.position := by
    intro inc hinc
    obtain ⟨path', hpath', d, hd, hpos⟩ := h.first inc hinc
    refine ⟨path', hpath', d, ?_, hpos⟩
    rw [List.find?_append, hd]
    rfl
  split
  · next hany =>
    obtain ⟨inc, hinc, he⟩ := List.any_eq_true.1 hany
    obtain rfl : inc.target = target := by simpa using he
    refine ⟨?_, hold, h.nodup⟩
    intro d hd
    rcases List.mem_append.1 hd with hd | hd
    · exact h.complete d hd
    · obtain rfl := List.mem_singleton.1 hd
      exact ⟨path, hf, inc, hinc, ht⟩
  · next hnew =>
    have hnot : ∀ inc ∈ includes, inc.target ≠ target := by
      intro inc hinc he
      exact hnew (List.any_eq_true.2 ⟨inc, hinc, by simpa using he⟩)
    refine ⟨?_, ?_, ?_⟩
    · intro d hd
      rcases List.mem_append.1 hd with hd | hd
      · obtain ⟨path', hf', inc, hinc, hpath'⟩ := h.complete d hd
        exact ⟨path', hf', inc, List.mem_append_left _ hinc, hpath'⟩
      · obtain rfl := List.mem_singleton.1 hd
        exact ⟨path, hf, ⟨target, d.position⟩, by simp, ht⟩
    · intro inc hinc
      rcases List.mem_append.1 hinc with hinc | hinc
      · exact hold inc hinc
      · obtain rfl := List.mem_singleton.1 hinc
        refine ⟨path, ht, decl, ?_, rfl⟩
        rw [List.find?_append, h.find?_eq_none hnd ht hnot]
        simp [hf]
    · rw [List.map_append, List.nodup_append]
      refine ⟨h.nodup, List.nodup_singleton _, ?_⟩
      rintro i hi j hj rfl
      obtain ⟨inc, hinc, rfl⟩ := List.mem_map.1 hi
      exact hnot inc hinc (by simpa using hj)

end Follows

def bare (p : Program) : Program := { p with includes := [] }

section Register

variable {space : SearchSpace} {roots : List String} {programs programs' : List Program}
  {path : Path} {id : ProgramId}

theorem Registered.congr (h : Registered space roots programs)
    (he : programs'.map bare = programs.map bare) : Registered space roots programs' := by
  have hfrom : ∀ p ∈ programs', ∃ q ∈ programs, bare q = bare p := by
    intro p hp
    have hm : bare p ∈ programs.map bare := he ▸ List.mem_map_of_mem hp
    exact List.mem_map.1 hm
  have hpaths : programs'.map Program.path = programs.map Program.path := by
    have hm := congrArg (List.map Program.path) he
    rwa [List.map_map, List.map_map] at hm
  refine ⟨hpaths ▸ h.distinct, ?_, ?_, ?_⟩
  · intro p hp
    obtain ⟨q, hq, hb⟩ := hfrom p hp
    simp only [bare, Program.mk.injEq] at hb
    rw [← hb.1, ← hb.2.1]
    exact h.parsed q hq
  · intro p hp
    obtain ⟨q, hq, hb⟩ := hfrom p hp
    simp only [bare, Program.mk.injEq] at hb
    rw [← hb.2.2.2.1, ← hb.2.2.2.2]
    exact h.fresh q hq
  · intro p hp
    obtain ⟨q, hq, hb⟩ := hfrom p hp
    simp only [bare, Program.mk.injEq] at hb
    rw [← hb.1]
    exact h.reached q hq

theorem Registered.snoc {document : Document} (h : Registered space roots programs)
    (hnew : path ∉ programs.map Program.path) (hparsed : Parsed space.store path document)
    (hreach : Reached space roots path) :
    Registered space roots (programs ++ [.ofDocument path document]) := by
  refine ⟨?_, ?_, ?_, ?_⟩
  · rw [List.map_append, List.nodup_append]
    refine ⟨h.distinct, List.nodup_singleton _, ?_⟩
    rintro a ha b hb rfl
    obtain rfl : a = path := by simpa [Program.ofDocument] using hb
    exact hnew ha
  all_goals
    intro p hp
    rcases List.mem_append.1 hp with hp | hp
  · exact h.parsed p hp
  · obtain rfl := List.mem_singleton.1 hp
    exact hparsed
  · exact h.fresh p hp
  · obtain rfl := List.mem_singleton.1 hp
    exact ⟨rfl, rfl⟩
  · exact h.reached p hp
  · obtain rfl := List.mem_singleton.1 hp
    exact hreach

theorem register_gives (h : Registered space roots programs) (hreach : Reached space roots path) :
    Gives (register space.store programs path)
      (fun result => (result.2 = programs ∨
          ∃ document, result.2 = programs ++ [.ofDocument path document]) ∧
        Registered space roots result.2 ∧ (result.2.map Program.path)[result.1]? = some path)
      (fun _ => ¬ Loadable space roots) := by
  unfold register
  split
  · next id found =>
    obtain ⟨hi, hpath, _⟩ := List.findIdx?_eq_some_iff_getElem.1 found
    refine ⟨.inl rfl, h, ?_⟩
    rw [List.getElem?_map, List.getElem?_eq_getElem hi]
    simpa using hpath
  · next missing =>
    have hnew : path ∉ programs.map Program.path := by
      intro hm
      obtain ⟨p, hp, he⟩ := List.mem_map.1 hm
      have hne := List.findIdx?_eq_none_iff.1 missing p hp
      simp [he] at hne
    apply Gives.bind (P := fun text => space.store.read path.expr = .ok text)
    · apply Gives.mapError
      intro fault hr hl
      obtain ⟨document, text, ht, -⟩ := hl.parsed path hreach
      simp [hr] at ht
    intro text ht
    apply Gives.bind (P := fun document => Document.parse path.render text = .ok document)
    · apply Gives.mapError
      intro fault hd hl
      obtain ⟨document, text', ht', hd'⟩ := hl.parsed path hreach
      obtain rfl : text = text' := Except.ok.inj (ht.symm.trans ht')
      simp [hd] at hd'
    intro document hd
    refine ⟨.inr ⟨document, rfl⟩, h.snoc hnew ⟨text, ht, hd⟩ hreach, ?_⟩
    simp [Program.ofDocument]

end Register

section Follow

variable {space : SearchSpace} {roots : List String} {programs programs' : List Program}
  {path : Path} {current target : ProgramId} {p : Program} {seen : List IncludeDecl}
  {decl : IncludeDecl}

theorem map_modify_eq {β : Type} {f : Program → Program} {g : Program → β}
    (h : ∀ p, g (f p) = g p) (programs : List Program) (i : Nat) :
    (programs.modify i f).map g = programs.map g := by
  apply List.ext_getElem?
  intro j
  rw [List.getElem?_map, List.getElem?_map, List.getElem?_modify]
  cases programs[j]? with
  | none => rfl
  | some p =>
    change some (g (if i = j then f p else p)) = some (g p)
    split
    · rw [h]
    · rfl

theorem Following.registered_more (h : Following space roots current seen programs)
    (hcurrent : current < programs.length) (hr : Registered space roots programs')
    (he : programs' = programs ∨ ∃ document, programs' = programs ++ [.ofDocument path document]) :
    Following space roots current seen programs' := by
  refine ⟨hr, ?_⟩
  rcases he with rfl | ⟨document, rfl⟩
  · exact h.follows
  · intro i q hq
    rw [List.getElem?_append] at hq
    split at hq
    · apply (h.follows i q hq).mono
      rw [List.map_append]
      exact List.prefix_append _ _
    · next hi =>
      obtain ⟨_, rfl⟩ : i - programs.length = 0 ∧ q = .ofDocument path document := by
        rw [List.getElem?_singleton] at hq
        split at hq
        · next h0 => exact ⟨h0, (Option.some.inj hq).symm⟩
        · simp at hq
      have hlt : current < i := Nat.lt_of_lt_of_le hcurrent (Nat.le_of_not_lt hi)
      have hnot : followed current seen i (.ofDocument path document) = [] := by
        unfold followed
        rw [if_neg (Nat.lt_asymm hlt), if_neg (Nat.ne_of_gt hlt)]
      rw [hnot]
      exact follows_nil

theorem Following.include (h : Following space roots current seen programs)
    (hp : programs[current]? = some p) (hf : space.find? p.path.directory decl.path = some path)
    (ht : (programs.map Program.path)[target]? = some path) :
    Following space roots current (seen ++ [decl]) (programs.modify current fun p =>
      if p.includes.any (·.target = target) then p
      else { p with includes := p.includes ++ [⟨target, decl.position⟩] }) := by
  let f (p : Program) : Program :=
    if p.includes.any (·.target = target) then p
    else { p with includes := p.includes ++ [⟨target, decl.position⟩] }
  have hbare : ∀ p, bare (f p) = bare p := by
    intro p
    unfold f
    split <;> rfl
  have hpaths : (programs.modify current f).map Program.path = programs.map Program.path := by
    apply map_modify_eq
    intro p
    unfold f
    split <;> rfl
  refine ⟨h.registered.congr (map_modify_eq hbare programs current), ?_⟩
  intro i q hq
  change (programs.modify current f)[i]? = some q at hq
  change Follows space ((programs.modify current f).map Program.path) _ _ _
  rw [hpaths]
  by_cases hi : current = i
  · subst hi
    rw [List.getElem?_modify_eq, hp] at hq
    obtain rfl : f p = q := Option.some.inj hq
    have hold := h.follows current p hp
    have hseen (decls : List IncludeDecl) (q : Program) :
        followed current decls current q = decls := by
      unfold followed
      rw [if_neg (Nat.lt_irrefl _), if_pos rfl]
    rw [hseen] at hold ⊢
    have hnew := hold.snoc h.registered.distinct hf ht
    unfold f
    split
    · next hany => rwa [if_pos hany] at hnew
    · next hany => rwa [if_neg hany] at hnew
  · rw [List.getElem?_modify_ne _ _ hi] at hq
    have hold := h.follows i q hq
    have hsame : followed current (seen ++ [decl]) i q = followed current seen i q := by
      unfold followed
      rw [if_neg (Ne.symm hi), if_neg (Ne.symm hi)]
    rw [hsame]
    exact hold

structure FollowingIn (space : SearchSpace) (roots : List String) (current : ProgramId)
    (p : Program) (paths : List Path) (seen : List IncludeDecl) (programs : List Program) :
    Prop where
  following : Following space roots current seen programs
  here : ∃ q, programs[current]? = some q ∧ q.path = p.path ∧ q.document = p.document
  grows : paths <+: programs.map Program.path

theorem followInclude_gives {paths : List Path}
    (h : FollowingIn space roots current p paths seen programs) (hm : decl ∈ p.sourceIncludes) :
    Gives (followInclude space current p programs decl)
      (FollowingIn space roots current p paths (seen ++ [decl]))
      (fun _ => ¬ Loadable space roots) := by
  obtain ⟨q, hq, hpath, hdocument⟩ := h.here
  have hqm : q ∈ programs := List.mem_of_getElem? hq
  have hreach : Reached space roots p.path := hpath ▸ h.following.registered.reached q hqm
  have hparsed : Parsed space.store p.path p.document := by
    have hpq := h.following.registered.parsed q hqm
    rwa [hpath, hdocument] at hpq
  obtain ⟨hdecl, hnative⟩ : decl ∈ p.document.includes ∧ decl.native = false := by
    simpa [Program.sourceIncludes] using hm
  unfold followInclude
  split
  · next hnone =>
    intro hl
    obtain ⟨path, hf⟩ := hl.found p.path p.document decl hreach hparsed hdecl hnative
    rw [hnone] at hf
    exact absurd hf (by simp)
  · next path hf =>
    have hgives := register_gives h.following.registered
      (.included hreach hparsed hdecl hnative hf)
    apply hgives.bind
    rintro ⟨target, programs'⟩ ⟨he, hr, ht⟩
    have hcurrent : current < programs.length := (List.getElem?_eq_some_iff.1 hq).1
    have hmore := h.following.registered_more hcurrent hr he
    have hgrow : programs.map Program.path <+: programs'.map Program.path := by
      rcases he with rfl | ⟨document, rfl⟩
      · exact List.prefix_rfl
      · rw [List.map_append]
        exact List.prefix_append _ _
    have hq' : programs'[current]? = some q := by
      rcases he with rfl | ⟨document, rfl⟩
      · exact hq
      · exact getElem?_of_isPrefix (List.prefix_append _ _) hq
    refine ⟨hmore.include hq' (hpath.symm ▸ hf) ht, ?_, ?_⟩
    · rw [List.getElem?_modify_eq, hq']
      refine ⟨_, rfl, ?_, ?_⟩
      · rw [← hpath]
        dsimp only
        split <;> rfl
      · rw [← hdocument]
        dsimp only
        split <;> rfl
    · rw [map_modify_eq]
      · exact h.grows.trans hgrow
      · intro p
        split <;> rfl

theorem Following.advance (h : Following space roots current seen programs)
    (hall : ∀ p, programs[current]? = some p → seen = p.sourceIncludes) :
    Following space roots (current + 1) [] programs := by
  refine ⟨h.registered, ?_⟩
  intro i p hp
  have hold := h.follows i p hp
  have hsame : followed (current + 1) [] i p = followed current seen i p := by
    unfold followed
    by_cases hlt : i < current
    · rw [if_pos hlt, if_pos (Nat.lt_succ_of_lt hlt)]
    · rw [if_neg hlt]
      by_cases hi : i = current
      · subst hi
        rw [if_pos (Nat.lt_succ_self i), if_pos rfl, hall p hp]
      · have hge : ¬ i < current + 1 := fun h => hi (Nat.eq_of_lt_succ_of_not_lt h hlt)
        rw [if_neg hge, if_neg hi, ite_self]
  rw [hsame]
  exact hold

theorem followIncludes_gives {paths : List Path} (h : Following space roots current [] programs)
    (hgrow : paths <+: programs.map Program.path) :
    Gives (followIncludes space programs current)
      (fun programs' => Following space roots (current + 1) [] programs' ∧
        paths <+: programs'.map Program.path)
      (fun _ => ¬ Loadable space roots) := by
  unfold followIncludes
  split
  · next hnone =>
    refine ⟨h.advance ?_, hgrow⟩
    intro p hp
    rw [hnone] at hp
    exact absurd hp (by simp)
  · next p hp =>
    have hstart : FollowingIn space roots current p paths [] programs :=
      ⟨h, ⟨p, hp, rfl, rfl⟩, hgrow⟩
    have hrun : Gives (p.sourceIncludes.foldlM (followInclude space current p) programs)
        (FollowingIn space roots current p paths p.sourceIncludes)
        (fun _ => ¬ Loadable space roots) := by
      apply Gives.foldlM _ hstart
      intro seen decl programs hm hseen
      exact followInclude_gives hseen hm
    refine hrun.imp (fun programs' h' => ⟨h'.following.advance ?_, h'.grows⟩) fun _ hq => hq
    intro q hq
    obtain ⟨q', hq', _, hdocument⟩ := h'.here
    obtain rfl : q = q' := Option.some.inj (hq.symm.trans hq')
    simp only [Program.sourceIncludes, hdocument]

theorem followAll_gives {paths : List Path} (h : Following space roots 0 [] programs)
    (hgrow : paths <+: programs.map Program.path) (count : Nat) :
    Gives ((List.range count).foldlM (followIncludes space) programs)
      (fun programs' => Following space roots count [] programs' ∧
        paths <+: programs'.map Program.path)
      (fun _ => ¬ Loadable space roots) := by
  induction count with
  | zero => exact ⟨h, hgrow⟩
  | succ count ih =>
    rw [List.range_succ, List.foldlM_append]
    apply ih.bind
    rintro programs' ⟨h', hgrow'⟩
    rw [List.foldlM_cons]
    apply (followIncludes_gives h' hgrow').bind
    intro programs'' h''
    exact h''

end Follow

structure Rooted (space : SearchSpace) (roots seen : List String)
    (found : List ProgramId × List Program) : Prop where
  registered : Registered space roots found.2
  unfollowed : ∀ p ∈ found.2, p.includes = []
  rooted : ∀ root ∈ seen, ∃ path, space.store.canonicalize (.ofString root) = .ok path ∧
    ∃ id ∈ found.1, (found.2.map Program.path)[id]? = some path
  valid : ∀ id ∈ found.1, id < found.2.length

section Roots

variable {space : SearchSpace} {roots seen : List String} {programs programs' : List Program}
  {ids : List ProgramId} {id : ProgramId} {root : String} {path : Path}

theorem Rooted.snoc (h : Rooted space roots seen (ids, programs))
    (hroot : space.store.canonicalize (.ofString root) = .ok path)
    (he : programs' = programs ∨ ∃ document, programs' = programs ++ [.ofDocument path document])
    (hr : Registered space roots programs')
    (hid : (programs'.map Program.path)[id]? = some path) :
    Rooted space roots (seen ++ [root]) (if id ∈ ids then ids else ids ++ [id], programs') := by
  have hgrow : programs <+: programs' := by
    rcases he with rfl | ⟨document, rfl⟩
    · exact List.prefix_rfl
    · exact List.prefix_append _ _
  have hkeep : ∀ i ∈ ids, i ∈ (if id ∈ ids then ids else ids ++ [id]) := by
    intro i hi
    split
    · exact hi
    · exact List.mem_append_left _ hi
  have hadded : id ∈ (if id ∈ ids then ids else ids ++ [id]) := by
    split
    · next hm => exact hm
    · simp
  refine ⟨hr, ?_, ?_, ?_⟩
  · intro p hp
    rcases he with rfl | ⟨document, rfl⟩
    · exact h.unfollowed p hp
    · rcases List.mem_append.1 hp with hp | hp
      · exact h.unfollowed p hp
      · obtain rfl := List.mem_singleton.1 hp
        rfl
  · intro root' hm
    rcases List.mem_append.1 hm with hm | hm
    · obtain ⟨path', hc, i, hi, hpath⟩ := h.rooted root' hm
      exact ⟨path', hc, i, hkeep i hi, getElem?_of_isPrefix (hgrow.map _) hpath⟩
    · obtain rfl := List.mem_singleton.1 hm
      exact ⟨path, hroot, id, hadded, hid⟩
  · intro i hi
    have hvalid : ∀ i ∈ ids, i < programs'.length :=
      fun i hi => Nat.lt_of_lt_of_le (h.valid i hi) hgrow.length_le
    dsimp only at hi
    split at hi
    · exact hvalid i hi
    · rcases List.mem_append.1 hi with hi | hi
      · exact hvalid i hi
      · obtain rfl := List.mem_singleton.1 hi
        simpa using (List.getElem?_eq_some_iff.1 hid).1

theorem registerRoots_gives (space : SearchSpace) (roots : List String) :
    Gives (registerRoots space.store roots) (Rooted space roots roots)
      (fun _ => ¬ Loadable space roots) := by
  have hstart : Rooted space roots [] ([], []) :=
    ⟨⟨List.nodup_nil, by simp, by simp, by simp⟩, by simp, by simp, by simp⟩
  apply Gives.foldlM _ hstart
  rintro seen root ⟨ids, programs⟩ hm h
  apply Gives.bind (P := fun path => space.store.canonicalize (.ofString root) = .ok path)
  · apply Gives.mapError
    intro fault hc hl
    obtain ⟨path, hpath⟩ := hl.rooted root hm
    simp [hc] at hpath
  intro path hc
  apply (register_gives h.registered (.root hm hc)).bind
  rintro ⟨id, programs'⟩ ⟨he, hr, hid⟩
  exact h.snoc hc he hr hid

theorem lookup_of_read {store : SourceStore} {text : String}
    (h : store.read path.expr = .ok text) : store.files.lookup path = some text := by
  unfold SourceStore.read at h
  rw [Path.normalize_expr] at h
  dsimp only at h
  split at h
  · cases h
  · split at h
    · next hl =>
      obtain rfl := Except.ok.inj h
      exact hl
    · cases h

theorem Registered.length_le (h : Registered space roots programs) :
    programs.length ≤ space.store.files.length := by
  have hsub : programs.map Program.path ⊆ space.store.files.map Prod.fst := by
    intro path hm
    obtain ⟨p, hp, rfl⟩ := List.mem_map.1 hm
    obtain ⟨text, hread, _⟩ := h.parsed p hp
    obtain ⟨before, after, hfiles, _⟩ := List.lookup_eq_some_iff.1 (lookup_of_read hread)
    rw [hfiles]
    simp
  have hle := List.Nodup.length_le_of_subset h.distinct hsub
  simpa using hle

theorem Rooted.following (h : Rooted space roots seen (ids, programs)) :
    Following space roots 0 [] programs := by
  refine ⟨h.registered, ?_⟩
  intro i p hp
  have hnot : followed 0 [] i p = [] := by
    unfold followed
    rw [if_neg (Nat.not_lt_zero i), ite_self]
  rw [hnot, h.unfollowed p (List.mem_of_getElem? hp)]
  exact follows_nil

theorem discover_gives (space : SearchSpace) (roots : List String) :
    Gives (discover space roots) (fun found => Discovered space roots found.1 found.2)
      (fun _ => ¬ Loadable space roots) := by
  unfold discover
  apply (registerRoots_gives space roots).bind
  rintro ⟨ids, programs⟩ h
  apply (followAll_gives h.following List.prefix_rfl space.store.files.length).bind
  rintro programs' ⟨h', hgrow⟩
  refine ⟨h'.registered, ?_, ?_, ?_⟩
  · intro p hp
    obtain ⟨i, hi, rfl⟩ := List.getElem_of_mem hp
    have hf := h'.follows i _ (List.getElem?_eq_getElem hi)
    have hlt : i < space.store.files.length := Nat.lt_of_lt_of_le hi h'.registered.length_le
    rwa [followed, if_pos hlt] at hf
  · intro root hm
    obtain ⟨path, hc, id, hid, hpath⟩ := h.rooted root hm
    exact ⟨path, hc, id, hid, getElem?_of_isPrefix hgrow hpath⟩
  · intro id hid
    have hle := hgrow.length_le
    rw [List.length_map, List.length_map] at hle
    exact Nat.lt_of_lt_of_le (h.valid id hid) hle

end Roots

namespace Discovered

variable {space : SearchSpace} {roots : List String} {ids : List ProgramId}
  {programs : List Program} {path : Path} {i j : ProgramId} {p : Program}

theorem exists_reaching (h : Discovered space roots ids programs)
    (hr : Reached space roots path) : ∃ root ∈ ids, ∃ i,
      (programs.map Program.path)[i]? = some path ∧
        Relation.ReflTransGen (Includes programs) root i := by
  induction hr with
  | root hm hc =>
    obtain ⟨path', hc', id, hid, hpath⟩ := h.rooted _ hm
    obtain rfl := Except.ok.inj (hc.symm.trans hc')
    exact ⟨id, hid, id, hpath, .refl⟩
  | @included path path' document decl _ hp hm hn hf ih =>
    obtain ⟨root, hroot, i, hi, hreach⟩ := ih
    rw [List.getElem?_map] at hi
    obtain ⟨p, hpi, rfl⟩ := Option.map_eq_some_iff.1 hi
    have hpm : p ∈ programs := List.mem_of_getElem? hpi
    obtain rfl := hp.unique (h.registered.parsed p hpm)
    have hdecl : decl ∈ p.sourceIncludes := by
      simp [Program.sourceIncludes, hm, hn]
    obtain ⟨path'', hf', inc, hinc, hpath⟩ := (h.follows p hpm).complete decl hdecl
    obtain rfl := Option.some.inj (hf.symm.trans hf')
    exact ⟨root, hroot, inc.target, hpath, hreach.tail ⟨p, hpi, inc, hinc, rfl⟩⟩

theorem reaches (h : Discovered space roots ids programs) (hi : i < programs.length) :
    ∃ root ∈ ids, Relation.ReflTransGen (Includes programs) root i := by
  have hreach := h.registered.reached _ (List.getElem_mem hi)
  obtain ⟨root, hroot, j, hj, hrj⟩ := h.exists_reaching hreach
  have hpi : (programs.map Program.path)[i]? = some programs[i].path := by
    rw [List.getElem?_map, List.getElem?_eq_getElem hi]
    rfl
  obtain rfl : i = j := index_unique h.registered.distinct hpi hj
  exact ⟨root, hroot, hrj⟩

theorem includes_lt (h : Discovered space roots ids programs) (hij : Includes programs i j) :
    j < programs.length := by
  obtain ⟨p, hp, inc, hinc, rfl⟩ := hij
  obtain ⟨path, hpath, _⟩ := (h.follows p (List.mem_of_getElem? hp)).first inc hinc
  simpa using (List.getElem?_eq_some_iff.1 hpath).1

end Discovered

end Discovery

end ThriftIdl
