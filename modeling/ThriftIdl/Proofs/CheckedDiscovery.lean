import ThriftIdl.Proofs.CheckedLoading
import ThriftIdl.Proofs.IncludeDiscovery
import ThriftIdl.Proofs.ScannedDocuments
import ThriftIdl.Proofs.SymbolTables

namespace ThriftIdl

/-- A checked run ends as an unchecked one does: with the same error, or with a result that belongs
to the other. -/
def Mirrors {α β : Type} (R : α → β → Prop) (plain : Except LoadError α) (checked : Checked β) :
    Prop :=
  match plain, checked with
  | .ok a, .ok b => R a b
  | .error e, .error s => s = .refused e
  | _, _ => False

namespace Mirrors

variable {α β γ δ : Type} {R : α → β → Prop} {S : γ → δ → Prop} {plain : Except LoadError α}
  {checked : Checked β} {a : α} {b : β}

theorem imp {R' : α → β → Prop} (h : Mirrors R plain checked) (hr : ∀ a b, R a b → R' a b) :
    Mirrors R' plain checked := by
  rcases plain with e | a <;> rcases checked with s | b
  · exact h
  · exact h.elim
  · exact h.elim
  · exact hr a b h

theorem and {P : α → Prop} {Q : LoadError → Prop} (h : Mirrors R plain checked)
    (hp : Gives plain P Q) : Mirrors (fun a b => R a b ∧ P a) plain checked := by
  rcases plain with e | a <;> rcases checked with s | b
  · exact h
  · exact h.elim
  · exact h.elim
  · exact ⟨h, hp⟩

theorem bind {f : α → Except LoadError γ} {g : β → Checked δ} (h : Mirrors R plain checked)
    (hf : ∀ a b, R a b → Mirrors S (f a) (g b)) : Mirrors S (plain >>= f) (checked >>= g) := by
  rcases plain with e | a <;> rcases checked with s | b
  · exact h
  · exact h.elim
  · exact h.elim
  · exact hf a b h

theorem foldlM {ι : Type} {xs : List ι} {f : α → ι → Except LoadError α}
    {g : β → ι → Checked β} (h : R a b)
    (step : ∀ a b, ∀ x ∈ xs, R a b → Mirrors R (f a x) (g b x)) :
    Mirrors R (xs.foldlM f a) (xs.foldlM g b) := by
  induction xs generalizing a b with
  | nil => exact h
  | cons x xs ih =>
    rw [List.foldlM_cons, List.foldlM_cons]
    apply (step a b x List.mem_cons_self h).bind
    intro a' b' h'
    exact ih h' fun a b y hy => step a b y (List.mem_cons_of_mem _ hy)

theorem refusing (plain : Except LoadError α) :
    Mirrors (fun a b => b = a ∧ plain = .ok a) plain (.refusing plain) := by
  cases plain with
  | ok a => exact ⟨rfl, rfl⟩
  | error e => rfl

theorem of_ok (h : Mirrors R plain checked) (hp : plain = .ok a) :
    ∃ b, checked = .ok b ∧ R a b := by
  subst hp
  cases checked with
  | ok b => exact ⟨b, rfl, h⟩
  | error s => exact h.elim

theorem eq_refusing {checked : Checked α} (h : Mirrors (fun a b => b = a) plain checked) :
    checked = .refusing plain := by
  rcases plain with e | a <;> rcases checked with s | b
  · exact congrArg Except.error h
  · exact h.elim
  · exact h.elim
  · exact congrArg Except.ok h

end Mirrors

theorem Checked.get_eq {α : Type} {table : List α} {place : Nat} {entry : α} (b : Breach)
    (h : table[place]? = some entry) : Checked.get table place b = .ok entry := by
  unfold Checked.get
  rw [h]

/-- A file is read by offsets without leaving its text. -/
theorem Checked.parse_eq (file text : String) :
    Checked.parse file text = .refusing ((Document.parse file text).mapError fun e =>
      .malformed ⟨file, e.position⟩ e.fault) := by
  unfold Checked.parse Checked.refusing
  rw [Scan.parse_eq]
  cases Document.parse file text <;> rfl

namespace LoadTables

/-- The tables that stand for a list of programs when those from `next` on are still to be
followed. -/
structure Stands (next : ProgramId) (programs : List Program) (t : LoadTables) : Prop where
  same : t.programs = programs
  paths : t.byPath = (programs.map Program.path).zipIdx
  queued : t.queue = List.range' next (programs.length - next)
  narrow : t.includes.length ≤ programs.length
  rows : ∀ (i : Nat) (p : Program), programs[i]? = some p → t.includes[i]?.getD [] = p.includes

section Stands

variable {space : SearchSpace} {roots : List String} {programs programs' : List Program}
  {t : LoadTables} {next id : Nat} {path : Path} {inc : Include} {decl : IncludeDecl}
  {p : Program}

theorem stands_empty : Stands 0 [] empty := ⟨rfl, rfl, rfl, Nat.le_refl _, by simp⟩

theorem lookup_zipIdx {α : Type} [BEq α] (xs : List α) (x : α) (first : Nat) :
    (xs.zipIdx first).lookup x = (xs.findIdx? (x == ·)).map (· + first) := by
  induction xs generalizing first with
  | nil => rfl
  | cons y xs ih =>
    rw [List.zipIdx_cons, List.lookup_cons, List.findIdx?_cons, ih]
    cases x == y with
    | true => simp
    | false => simp [Function.comp_def, Nat.add_assoc, Nat.add_comm 1]

/-- A path is looked up in the map as the programs are searched for it. -/
theorem Stands.lookup_path (h : Stands next programs t) (path : Path) :
    t.byPath.lookup path = programs.findIdx? (·.path = path) := by
  have hsame : (fun other => path == other) ∘ Program.path = fun p => decide (p.path = path) := by
    funext p
    simp [BEq.beq, eq_comm]
  rw [h.paths, lookup_zipIdx, List.findIdx?_map, hsame]
  simp

/-- Where no two programs have one path, the map leads back from a path to its program. -/
theorem Stands.lookup_path_iff (h : Stands next programs t)
    (hnd : (programs.map Program.path).Nodup) :
    t.byPath.lookup path = some id ↔ (programs.map Program.path)[id]? = some path := by
  have hkeys : ((programs.map Program.path).zipIdx.map Prod.fst).Nodup := by
    rwa [List.zipIdx_map_fst]
  rw [h.paths, lookup_eq_some_iff_mem hkeys, List.mk_mem_zipIdx_iff_getElem?]

theorem Stands.add (h : Stands next programs t) (hnext : next ≤ programs.length)
    (path : Path) (document : Document) :
    Stands next (programs ++ [.ofDocument path document]) (t.add path document) := by
  unfold LoadTables.add
  rw [h.same]
  refine ⟨rfl, ?_, ?_, ?_, ?_⟩
  · rw [h.paths, List.map_append, List.zipIdx_append, List.length_map, Nat.zero_add]
    rfl
  · rw [h.queued, List.length_append, List.length_singleton, Nat.sub_add_comm hnext,
      List.range'_1_concat, Nat.add_sub_cancel' hnext]
  · rw [List.length_append]
    exact Nat.le_trans h.narrow (Nat.le_add_right _ _)
  · intro i p hp
    rw [List.getElem?_append] at hp
    split at hp
    · exact h.rows i p hp
    · next hi =>
      have hnone : t.includes[i]? = none :=
        List.getElem?_eq_none (Nat.le_trans h.narrow (Nat.le_of_not_lt hi))
      obtain rfl : .ofDocument path document = p := by
        rw [List.getElem?_singleton] at hp
        split at hp
        · exact Option.some.inj hp
        · cases hp
      rw [hnone]
      rfl

theorem Stands.register (h : Stands next programs t) (hnext : next ≤ programs.length)
    (store : SourceStore) (path : Path) :
    Mirrors (fun a b => b.1 = a.1 ∧ Stands next a.2 b.2 ∧ programs.length ≤ a.2.length ∧
        a.1 < a.2.length)
      (Discovery.register store programs path) (t.register store path) := by
  unfold Discovery.register LoadTables.register
  rw [h.lookup_path]
  cases hfound : programs.findIdx? (·.path = path) with
  | some id =>
    exact ⟨rfl, h, Nat.le_refl _, (List.findIdx?_eq_some_iff_getElem.1 hfound).1⟩
  | none =>
    apply (Mirrors.refusing _).bind
    rintro _ text ⟨rfl, -⟩
    rw [Checked.parse_eq]
    apply (Mirrors.refusing _).bind
    rintro _ document ⟨rfl, -⟩
    refine ⟨congrArg List.length h.same, h.add hnext path document, ?_, ?_⟩
    · rw [List.length_append]
      exact Nat.le_add_right _ _
    · rw [List.length_append]
      exact Nat.lt_succ_self _

theorem Stands.widen (h : Stands next programs t) : Stands next programs t.widen := by
  refine ⟨h.same, h.paths, h.queued, ?_, ?_⟩
  · unfold LoadTables.widen
    rw [h.same, List.length_append, List.length_replicate]
    have := h.narrow
    omega
  · intro i p hp
    rw [← h.rows i p hp]
    unfold LoadTables.widen
    rw [List.getElem?_append]
    split
    · rfl
    · next hi =>
      rw [List.getElem?_eq_none (Nat.le_of_not_lt hi), List.getElem?_replicate]
      split <;> rfl

theorem Stands.widen_includes (h : Stands next programs t) :
    t.widen.includes = programs.map Program.includes := by
  have hlength : t.widen.includes.length = programs.length := by
    unfold LoadTables.widen
    rw [h.same, List.length_append, List.length_replicate]
    have := h.narrow
    omega
  apply List.ext_getElem?
  intro i
  rw [List.getElem?_map]
  cases hp : programs[i]? with
  | none =>
    rw [List.getElem?_eq_none_iff] at hp
    exact List.getElem?_eq_none (hlength ▸ hp)
  | some p =>
    have hi : i < t.widen.includes.length := by
      rw [hlength]
      exact (List.getElem?_eq_some_iff.1 hp).1
    have hrow := h.widen.rows i p hp
    rw [List.getElem?_eq_getElem hi] at hrow ⊢
    exact congrArg some hrow

theorem Stands.addInclude (h : Stands next programs t) (hid : id < programs.length)
    (hrow : id < t.includes.length) (inc : Include) : ∃ t', t.addInclude id inc = .ok t' ∧
      Stands next (programs.modify id fun p =>
        if p.includes.any (·.target = inc.target) then p
        else { p with includes := p.includes ++ [inc] }) t' := by
  have hp : programs[id]? = some programs[id] := List.getElem?_eq_getElem hid
  have hr := h.rows id _ hp
  rw [List.getElem?_eq_getElem hrow, Option.getD_some] at hr
  unfold LoadTables.addInclude
  rw [h.same, Checked.get_eq _ hp, Checked.get_eq _ (List.getElem?_eq_getElem hrow), hr,
    List.modify_eq_set_get _ hid, List.get_eq_getElem]
  by_cases hany : programs[id].includes.any (·.target = inc.target)
  · refine ⟨t, if_pos hany, ?_⟩
    rw [if_pos hany, List.set_getElem_self]
    exact h
  · refine ⟨_, if_neg hany, ?_⟩
    rw [if_neg hany]
    refine ⟨rfl, ?_, ?_, ?_, ?_⟩
    · have hid' : id < (programs.map Program.path).length := by rwa [List.length_map]
      have hpath : programs[id].path = (programs.map Program.path)[id] :=
        (List.getElem_map Program.path).symm
      rw [h.paths, List.map_set]
      change _ = List.zipIdx ((programs.map Program.path).set id programs[id].path)
      rw [hpath, List.set_getElem_self]
    · rw [List.length_set]
      exact h.queued
    · rw [List.length_set, List.length_set]
      exact h.narrow
    · intro i p hi
      rw [List.getElem?_set] at hi ⊢
      split at hi
      · next he =>
        subst he
        rw [if_pos rfl, if_pos hrow]
        obtain rfl := Option.some.inj hi
        rfl
      · next he =>
        rw [if_neg he]
        exact h.rows i p hi

theorem Stands.followInclude (h : Stands next programs t) (hnext : next ≤ programs.length)
    (hid : id < programs.length) (p : Program) (decl : IncludeDecl) :
    Mirrors (fun programs' t' => Stands next programs' t' ∧ programs.length ≤ programs'.length)
      (Discovery.followInclude space id p programs decl)
      (t.followInclude space id p decl) := by
  unfold Discovery.followInclude LoadTables.followInclude
  cases space.find? p.path.directory decl.path with
  | none => rfl
  | some path =>
    apply (h.register hnext space.store path).bind
    rintro ⟨_, programs'⟩ ⟨target, t'⟩ ⟨rfl, h', hle, -⟩
    have hid' : id < programs'.length := Nat.lt_of_lt_of_le hid hle
    have hrow : id < t'.widen.includes.length := by
      rw [h'.widen_includes, List.length_map]
      exact hid'
    obtain ⟨t'', ht, hs⟩ := h'.widen.addInclude hid' hrow ⟨target, decl.position⟩
    dsimp only at ht ⊢
    rw [ht]
    exact ⟨hs, (List.length_modify ..).symm ▸ hle⟩

theorem Stands.followIncludes (space : SearchSpace) (h : Stands next programs t)
    (hp : programs[next]? = some p) :
    Mirrors (fun programs' t' => Stands (next + 1) programs' t')
      (Discovery.followIncludes space programs next)
      ((p.document.includes.filter (!·.native)).foldlM (LoadTables.followInclude space next p)
        { t with queue := List.range' (next + 1) (programs.length - (next + 1)) }) := by
  have hlt : next < programs.length := (List.getElem?_eq_some_iff.1 hp).1
  unfold Discovery.followIncludes
  rw [hp]
  have hstart : Stands (next + 1) programs
      { t with queue := List.range' (next + 1) (programs.length - (next + 1)) } :=
    ⟨h.same, h.paths, rfl, h.narrow, h.rows⟩
  refine Mirrors.imp (R := fun programs' t' =>
    Stands (next + 1) programs' t' ∧ next < programs'.length) ?_ fun _ _ h => h.1
  apply Mirrors.foldlM ⟨hstart, hlt⟩
  rintro programs' t' decl - ⟨h', hlt'⟩
  refine (h'.followInclude hlt' hlt' p decl).imp ?_
  rintro programs'' t'' ⟨h'', hle⟩
  exact ⟨h'', Nat.lt_of_lt_of_le hlt' hle⟩

theorem followIncludes_done (space : SearchSpace) (programs : List Program) (steps : Nat)
    (h : programs.length ≤ next) :
    (List.range' next steps).foldlM (Discovery.followIncludes space) programs = .ok programs := by
  induction steps generalizing next with
  | zero => rfl
  | succ steps ih =>
    have hnone : programs[next]? = none := List.getElem?_eq_none h
    have hstop : Discovery.followIncludes space programs next = .ok programs := by
      unfold Discovery.followIncludes
      rw [hnone]
      rfl
    rw [List.range'_succ, List.foldlM_cons, hstop]
    exact ih (Nat.le_succ_of_le h)

/-- The queue holds the programs that have not been followed yet, and it is empty when all files
have had their turn. -/
theorem Stands.drain {steps : Nat} (h : Stands next programs t)
    (hf : Discovery.Following space roots next [] programs)
    (hsteps : next + steps = space.store.files.length) :
    Mirrors (fun programs' t' => t'.queue = [] ∧ ∃ next', Stands next' programs' t')
      ((List.range' next steps).foldlM (Discovery.followIncludes space) programs)
      (t.drain space steps) := by
  induction steps generalizing next programs t with
  | zero =>
    have hempty : t.queue = [] := by
      rw [h.queued, ← Nat.add_zero next, hsteps, Nat.sub_eq_zero_of_le hf.registered.length_le]
      rfl
    unfold LoadTables.drain
    rw [if_pos hempty]
    exact ⟨hempty, next, h⟩
  | succ steps ih =>
    unfold LoadTables.drain
    rw [h.queued]
    by_cases hlt : next < programs.length
    · have hp : programs[next]? = some programs[next] := List.getElem?_eq_getElem hlt
      obtain ⟨count, hcount⟩ : ∃ count, programs.length - next = count + 1 :=
        ⟨programs.length - (next + 1), by omega⟩
      have hrest : programs.length - (next + 1) = count := by omega
      have hrun := (h.followIncludes space hp).and
        (Discovery.followIncludes_gives hf List.prefix_rfl)
      rw [hrest] at hrun
      rw [hcount, List.range'_succ, List.range'_succ, List.foldlM_cons, h.same] at *
      dsimp only
      rw [Checked.get_eq _ hp]
      refine hrun.bind ?_
      rintro programs' t' ⟨h', hf', -⟩
      exact ih h' hf' (by omega)
    · have hle := Nat.le_of_not_lt hlt
      have hempty : t.queue = [] := by
        rw [h.queued, Nat.sub_eq_zero_of_le hle]
        rfl
      rw [Nat.sub_eq_zero_of_le hle, followIncludes_done space programs _ hle]
      exact ⟨hempty, next, h⟩

theorem registerRoots_mirrors (store : SourceStore) (roots : List String) :
    Mirrors (fun a b => b.1 = a.1 ∧ Stands 0 a.2 b.2)
      (Discovery.registerRoots store roots) (registerRoots store roots) := by
  apply Mirrors.foldlM ⟨rfl, stands_empty⟩
  rintro ⟨ids, programs⟩ ⟨_, t⟩ root - ⟨rfl, h⟩
  apply (Mirrors.refusing _).bind
  rintro _ path ⟨rfl, -⟩
  apply (h.register (Nat.zero_le _) store path).bind
  rintro ⟨_, programs'⟩ ⟨id, t'⟩ ⟨rfl, h', -, -⟩
  exact ⟨rfl, h'⟩

theorem discover_mirrors (space : SearchSpace) (roots : List String) :
    Mirrors (fun a b => b.1 = a.1 ∧ b.2.queue = [] ∧ b.2.includes = a.2.map Program.includes ∧
        ∃ next, Stands next a.2 b.2)
      (Discovery.discover space roots) (discover space roots) := by
  unfold Discovery.discover LoadTables.discover
  refine ((registerRoots_mirrors space.store roots).and
    (Discovery.registerRoots_gives space roots)).bind ?_
  rintro ⟨_, programs⟩ ⟨ids, t⟩ ⟨⟨rfl, h⟩, hrooted⟩
  rw [List.range_eq_range']
  apply (h.drain hrooted.following (Nat.zero_add _)).bind
  rintro programs' t' ⟨hempty, next, h'⟩
  exact ⟨rfl, hempty, h'.widen_includes, next, h'.widen⟩

end Stands

end LoadTables

end ThriftIdl
