import ThriftIdl.Proofs.SchemaArrays

namespace ThriftIdl

open Linking (PartLinked ServicesLinked linkParts)

def Schema.serviceName? (s : Schema) (id : ServiceId) : Option String :=
  s.services[id]?.map (·.name)

section Bases

variable {space : SearchSpace} {roots roots' : List String} {loaded loaded' : LoadedPrograms}
  {parts parts' : List SchemaPart} {final final' : LinkState} {i i' : ProgramId} {p p' q : Program}
  {name : String} {part part' : SchemaPart} {first first' : ServiceId}

theorem LoadLinked.service_names (h : LoadLinked space roots loaded parts final) :
    (Schema.ofParts final.types parts).services.map (·.name) =
      (loaded.declared Document.services).map (·.decl.name) := by
  have hkept : List.Forall₂ ServiceKept (loaded.declared Document.services)
      (parts.flatMap SchemaPart.services) :=
    h.aligned fun i p part _ hpart => hpart.services_kept
  refine (map_eq_map_of_forall₂ (hkept.imp ?_)).symm
  intro source service hk
  rw [hk.copied]

theorem LoadLinked.serviceSymbol_name (h : LoadLinked space roots loaded parts final)
    (hp : loaded.programs[i]? = some p) (hq : final.programs[i]? = some q) (name : String) :
    (q.serviceSymbol name).map (Schema.ofParts final.types parts).serviceName? =
      if name ∈ p.document.services.map (·.name) then some (some name) else none := by
  obtain ⟨hi, -, -⟩ := h.services_linked
  have hm := h.found.complete i (List.getElem?_eq_some_iff.1 hp).1
  have hiff : (q.serviceSymbol name).isSome ↔ name ∈ p.document.services.map (·.name) :=
    hi.names_service hp hm hq
  cases hs : q.serviceSymbol name with
  | none =>
    rw [hs] at hiff
    rw [if_neg (fun hin => by simpa using hiff.2 hin)]
    rfl
  | some j =>
    obtain ⟨source, hsource, -, rfl⟩ := (hi.symbols i q hq name j).1 hs
    have hj := congrArg (·[j]?) h.service_names
    rw [List.getElem?_map, List.getElem?_map, hsource, Option.map_some] at hj
    rw [if_pos (hiff.1 (by rw [hs]; rfl)), Option.map_some]
    exact congrArg some hj

theorem twin_services (h : LoadLinked space roots loaded parts final)
    (h' : LoadLinked space roots' loaded' parts' final') (htwin : Twin loaded loaded' i i') :
    ∃ q q', final.programs[i]? = some q ∧ final'.programs[i']? = some q' ∧ q'.path = q.path ∧
      ∀ name, (q.serviceSymbol name).map (Schema.ofParts final.types parts).serviceName? =
        (q'.serviceSymbol name).map (Schema.ofParts final'.types parts').serviceName? := by
  obtain ⟨p, p', hp, hp', hpath⟩ := htwin
  obtain ⟨q, hq, he⟩ := h.services_linked.1.exists_source hp
  obtain ⟨q', hq', he'⟩ := h'.services_linked.1.exists_source hp'
  refine ⟨q, q', hq, hq', ?_, ?_⟩
  · have hqpath : q.path = p.path := congrArg Prod.fst he
    have hqpath' : q'.path = p'.path := congrArg Prod.fst he'
    rw [hqpath, hqpath', hpath]
  · intro name
    rw [h.serviceSymbol_name hp hq, h'.serviceSymbol_name hp' hq',
      h.found.document_eq h'.found hp hp' hpath]

theorem lookupService_alike (hl : loadPrograms space roots = .ok loaded)
    (hl' : loadPrograms space roots' = .ok loaded')
    (h : LoadLinked space roots loaded parts final)
    (h' : LoadLinked space roots' loaded' parts' final') (htwin : Twin loaded loaded' i i')
    (name : String) :
    (final.lookupService i name).map (Schema.ofParts final.types parts).serviceName? =
      (final'.lookupService i' name).map (Schema.ofParts final'.types parts').serviceName? := by
  obtain ⟨q, q', hq, hq', -, hown⟩ := twin_services h h' htwin
  obtain ⟨p, p', hp, hp', hpath⟩ := htwin
  have hincludes : q.includes = p.includes := h.services_linked.1.includes_eq hp hq
  have hincludes' : q'.includes = p'.includes := h'.services_linked.1.includes_eq hp' hq'
  unfold LinkState.lookupService
  rw [lookupService_eq hq, lookupService_eq hq', Option.map_or, Option.map_or, hown]
  congr 1
  apply includedSymbol_alike
  rw [hincludes, hincludes']
  exact (twin_includes hl hl' hp hp' hpath).imp fun inc inc' htwin => twin_services h h' htwin

theorem bases_alike (hl : loadPrograms space roots = .ok loaded)
    (hl' : loadPrograms space roots' = .ok loaded')
    (h : LoadLinked space roots loaded parts final)
    (h' : LoadLinked space roots' loaded' parts' final') (htwin : Twin loaded loaded' i i')
    (hdoc : p'.document = p.document)
    (hpart : ServicesLinked final i p first part.services)
    (hpart' : ServicesLinked final' i' p' first' part'.services) :
    List.Forall₂ (fun service service' =>
      ((Schema.ofParts final.types parts).baseOf service).map (·.name) =
        ((Schema.ofParts final'.types parts').baseOf service').map (·.name))
      part.services part'.services := by
  have hnames (s : Schema) (service : Service) :
      (s.baseOf service).map (·.name) = (service.base.map s.serviceName?).join := by
    unfold Schema.baseOf
    cases service.base <;> rfl
  have hbases : part.services.map (fun service =>
        service.base.map (Schema.ofParts final.types parts).serviceName?) =
      part'.services.map fun service =>
        service.base.map (Schema.ofParts final'.types parts').serviceName? := by
    rw [← Function.comp_def, ← Function.comp_def, ← List.map_map, ← List.map_map, hpart.bases,
      hpart'.bases]
    unfold Linking.basesIn
    rw [List.map_map, List.map_map, hdoc]
    apply List.map_congr_left
    intro decl _
    have hlookup := lookupService_alike hl hl' h h' htwin
    cases hb : decl.base with
    | none => simp [hb]
    | some name => simp [hb, hlookup]
  rw [← List.forall₂_eq_eq_eq, List.forall₂_map_left_iff, List.forall₂_map_right_iff] at hbases
  refine hbases.imp ?_
  intro service service' hbase
  rw [hnames, hnames, hbase]

end Bases

section Roots

variable {space : SearchSpace} {roots roots' : List String} {loaded : LoadedPrograms} {path : Path}

/-- Each of the roots is a file that other roots lead to. -/
def Covers (space : SearchSpace) (roots roots' : List String) : Prop :=
  ∀ root ∈ roots', ∃ path, Reached space roots path ∧
    space.store.canonicalize (.ofString root) = .ok path

theorem Covers.reached (hc : Covers space roots roots') (h : Reached space roots' path) :
    Reached space roots path := by
  induction h with
  | root hm hpath =>
    obtain ⟨path, hr, hpath'⟩ := hc _ hm
    obtain rfl := Except.ok.inj (hpath.symm.trans hpath')
    exact hr
  | included _ hp hm hn hf ih => exact .included ih hp hm hn hf

theorem Covers.obstructed (hc : Covers space roots roots') (h : Obstructed space roots') :
    Obstructed space roots := by
  cases h with
  | rootless hm hfault =>
    obtain ⟨path, -, hpath⟩ := hc _ hm
    rw [hfault] at hpath
    cases hpath
  | unreadable h hr => exact .unreadable (hc.reached h) hr
  | malformed h hr hd => exact .malformed (hc.reached h) hr hd
  | unresolved h hp hm hn hf => exact .unresolved (hc.reached h) hp hm hn hf
  | circular h hcycle => exact .circular (hc.reached h) hcycle

theorem Covers.finds (hc : Covers space roots roots')
    (hl : loadPrograms space roots = .ok loaded) :
    ∃ loaded', loadPrograms space roots' = .ok loaded' := by
  cases hl' : loadPrograms space roots' with
  | ok loaded' => exact ⟨loaded', rfl⟩
  | error e =>
    obtain ⟨e', he⟩ := loadPrograms_fails_iff.2 (hc.obstructed (loadPrograms_fails_iff.1 ⟨e, hl'⟩))
    rw [hl] at he
    cases he

theorem mem_paths_iff (hl : loadPrograms space roots = .ok loaded) :
    path ∈ loaded.programs.map Program.path ↔ Reached space roots path := by
  obtain ⟨⟨ids, hd⟩, -⟩ := loadPrograms_files hl
  exact hd.mem_paths_iff

theorem covers_of_loaded (hl : loadPrograms space roots = .ok loaded)
    (h : ∀ root ∈ roots', ∃ p ∈ loaded.programs,
      space.store.canonicalize (.ofString root) = .ok p.path) : Covers space roots roots' := by
  intro root hm
  obtain ⟨p, hp, hpath⟩ := h root hm
  exact ⟨p.path, (mem_paths_iff hl).1 (List.mem_map_of_mem hp), hpath⟩

end Roots

section Elements

/-- The elements of an array that are declared in some files. -/
def LoadedPrograms.elementsFrom (loaded : LoadedPrograms) (kind : ArrayKind) (array : List Json)
    (files : List Path) : List Json :=
  (((loaded.declared kind.positions).zip array).filter
    fun (source, _) => source.program.path ∈ files).map Prod.snd

/-- What each part adds to an array, with the file of the part. -/
def pieces (programs : List Program) (s : Schema) (kind : ArrayKind)
    (parts : List (ProgramId × SchemaPart)) : List (Option Path × List Json) :=
  parts.map fun (i, part) => (programs[i]?.map Program.path, part.array s kind)

def inFiles (programs : List Program) (files : List Path) (part : ProgramId × SchemaPart) : Bool :=
  programs[part.1]?.any fun p => p.path ∈ files

variable {space : SearchSpace} {roots roots' : List String} {loaded loaded' : LoadedPrograms}
  {programs : List Program} {order : List ProgramId} {parts parts' : List SchemaPart} {s s' : Schema}
  {kind : ArrayKind} {files : List Path} {final final' : LinkState}

theorem elementsFrom_one (i : ProgramId) (p : Program) {positions : List Position}
    {array : List Json} (hlength : positions.length = array.length) :
    (((positions.map (⟨i, p, ·⟩ : Position → Placed Position)).zip array).filter
      fun (source, _) => source.program.path ∈ files).map Prod.snd =
        if p.path ∈ files then array else [] := by
  have hsame : ∀ pair ∈ (positions.map (⟨i, p, ·⟩ : Position → Placed Position)).zip array,
      pair.1.program = p := by
    intro pair hm
    obtain ⟨position, -, he⟩ := List.mem_map.1 (List.of_mem_zip hm).1
    rw [← he]
  by_cases hin : p.path ∈ files
  · rw [if_pos hin, List.filter_eq_self.2 fun pair hm => by simpa [hsame pair hm] using hin]
    exact List.map_snd_zip (by rw [List.length_map, hlength])
  · rw [if_neg hin, List.filter_eq_nil_iff.2 fun pair hm => by simpa [hsame pair hm] using hin]
    rfl

theorem elementsFrom_eq (h : List.Forall₂ (fun i part => ∃ p, programs[i]? = some p ∧
      (kind.positions p.document).length = (part.array s kind).length) order parts) :
    (⟨programs, order⟩ : LoadedPrograms).elementsFrom kind
        (parts.flatMap fun part => part.array s kind) files =
      (pieces programs s kind ((order.zip parts).filter (inFiles programs files))).flatMap
        Prod.snd := by
  induction h with
  | nil => rfl
  | @cons i part order parts hpart _ ih =>
    obtain ⟨p, hp, hlength⟩ := hpart
    have hdeclared : (⟨programs, i :: order⟩ : LoadedPrograms).declared kind.positions =
        (kind.positions p.document).map (⟨i, p, ·⟩) ++
          (⟨programs, order⟩ : LoadedPrograms).declared kind.positions := by
      rw [← declared_one kind.positions hp, ← declared_append, List.singleton_append]
    have hin : inFiles programs files (i, part) = decide (p.path ∈ files) := by
      unfold inFiles
      rw [hp, Option.any_some]
    unfold LoadedPrograms.elementsFrom at ih ⊢
    rw [hdeclared, List.flatMap_cons, List.zip_append (by rwa [List.length_map]),
      List.filter_append, List.map_append, ih, elementsFrom_one i p hlength, List.zip_cons_cons,
      List.filter_cons, hin]
    by_cases hm : p.path ∈ files
    · rw [if_pos hm, if_pos (decide_eq_true hm)]
      rfl
    · rw [if_neg hm, if_neg (by simpa using hm)]
      rfl

theorem Loaded.pieces_nodup (h : Loaded space roots loaded)
    (hlength : loaded.order.length = parts.length) :
    (pieces loaded.programs s kind (loaded.order.zip parts)).Nodup := by
  apply List.Nodup.of_map Prod.fst
  have hkeys : (pieces loaded.programs s kind (loaded.order.zip parts)).map Prod.fst =
      loaded.order.map fun i => loaded.programs[i]?.map Program.path := by
    conv_rhs => rw [← List.map_fst_zip hlength.le]
    unfold pieces
    rw [List.map_map, List.map_map]
    rfl
  rw [hkeys]
  refine h.ordered.nodup.map_on ?_
  intro i hi j hj hij
  have hp := List.getElem?_eq_getElem (h.ordered.lt_length hi)
  apply Discovery.index_unique h.paths_distinct
  · rw [List.getElem?_map, hp, Option.map_some]
  · rw [List.getElem?_map, ← hij, hp, Option.map_some]

theorem pieces_perm (h : Loaded space roots loaded) (h' : Loaded space roots' loaded')
    (hlength : loaded.order.length = parts.length)
    (halike : List.Forall₂ (fun i' part' => ∃ i part, Twin loaded loaded' i i' ∧
      (i, part) ∈ loaded.order.zip parts ∧ part.array s kind = part'.array s' kind)
      loaded'.order parts') :
    (pieces loaded'.programs s' kind (loaded'.order.zip parts')).Perm
      (pieces loaded.programs s kind ((loaded.order.zip parts).filter
        (inFiles loaded.programs (loaded'.programs.map Program.path)))) := by
  have hsub : (pieces loaded.programs s kind ((loaded.order.zip parts).filter
      (inFiles loaded.programs (loaded'.programs.map Program.path)))).Sublist
        (pieces loaded.programs s kind (loaded.order.zip parts)) := List.filter_sublist.map _
  rw [List.perm_ext_iff_of_nodup (h'.pieces_nodup halike.length_eq)
    ((h.pieces_nodup hlength).sublist hsub)]
  rintro ⟨path, array⟩
  unfold pieces
  simp only [List.mem_map, List.mem_filter, Prod.mk.injEq, Prod.exists]
  constructor
  · rintro ⟨i', part', hm, rfl, rfl⟩
    obtain ⟨i, part, ⟨p, p', hp, hp', hpath⟩, hm, he⟩ :=
      (List.forall₂_iff_zip.1 halike).2 hm
    refine ⟨i, part, ⟨hm, ?_⟩, ?_, he⟩
    · unfold inFiles
      rw [hp, Option.any_some, ← hpath]
      exact decide_eq_true (List.mem_map_of_mem (List.mem_of_getElem? hp'))
    · rw [hp, hp', Option.map_some, Option.map_some, hpath]
  · rintro ⟨i, part, ⟨hm, hin⟩, rfl, rfl⟩
    have hp := List.getElem?_eq_getElem (h.ordered.lt_length (List.of_mem_zip hm).1)
    unfold inFiles at hin
    rw [hp, Option.any_some] at hin
    obtain ⟨p', hp', hpath⟩ := List.mem_map.1 (of_decide_eq_true hin)
    obtain ⟨i', hi', rfl⟩ := List.getElem_of_mem hp'
    have hp' := List.getElem?_eq_getElem hi'
    obtain ⟨part', hm', j, other, htwin, hother, he⟩ :=
      forall₂_mem_left halike (h'.complete i' hi')
    obtain rfl := htwin.unique h ⟨_, _, hp, hp', hpath⟩
    have hnd : ((loaded.order.zip parts).map Prod.fst).Nodup := by
      rw [List.map_fst_zip hlength.le]
      exact h.ordered.nodup
    obtain ⟨-, rfl⟩ := Prod.mk.inj (List.inj_on_of_nodup_map hnd hother hm rfl)
    refine ⟨i', part', hm', ?_, he.symm⟩
    rw [hp, hp', Option.map_some, Option.map_some, hpath]

end Elements

theorem load_of_linkParts {space : SearchSpace} {roots : List String} {loaded : LoadedPrograms}
    {parts : List SchemaPart} {final : LinkState} (hl : loadPrograms space roots = .ok loaded)
    (hrun : exec (linkParts 0 loaded.order) (.ofPrograms loaded.programs) = (.ok parts, final)) :
    load space roots = .ok (.ofParts final.types parts) := by
  unfold load
  rw [hl]
  change (exec (Linking.linkAll loaded.order) (.ofPrograms loaded.programs)).1 = _
  unfold Linking.linkAll
  rw [exec_bind_of_ok hrun]
  rfl

section Modular

variable {space : SearchSpace} {roots roots' : List String} {loaded loaded' : LoadedPrograms}
  {parts parts' : List SchemaPart} {final final' : LinkState} {kind : ArrayKind}

/-- The parts of a load add to its arrays what the parts of the same files add in another load. -/
theorem Mirrored.arrays_alike (hl : loadPrograms space roots = .ok loaded)
    (hl' : loadPrograms space roots' = .ok loaded')
    (h : LoadLinked space roots loaded parts final)
    (h' : LoadLinked space roots' loaded' parts' final')
    (hm : Mirrored loaded loaded' parts final loaded'.order parts' final') (kind : ArrayKind) :
    List.Forall₂ (fun i' part' => ∃ i part, Twin loaded loaded' i i' ∧
      (i, part) ∈ loaded.order.zip parts ∧
        part.array (.ofParts final.types parts) kind =
          part'.array (.ofParts final'.types parts') kind) loaded'.order parts' := by
  obtain ⟨-, hservices, -⟩ := h.services_linked
  obtain ⟨-, hservices', -⟩ := h'.services_linked
  refine (forall₂_and hm.parts hservices').imp ?_
  rintro i' part' ⟨⟨i, part, htwin, hzip, ha⟩, hlinked'⟩
  refine ⟨i, part, htwin, hzip, ?_⟩
  have hlinked := (List.forall₂_iff_zip.1 hservices).2 hzip
  obtain ⟨p, p', hp, hp', hpath⟩ := id htwin
  obtain ⟨first, hpart⟩ := hlinked p hp
  obtain ⟨first', hpart'⟩ := hlinked' p' hp'
  have hdoc := h.found.document_eq h'.found hp hp' hpath
  exact ha.array_eq h.advances.wellFormed.types h'.advances.wellFormed.types
    (bases_alike hl hl' h h' htwin hdoc hpart hpart') kind

theorem LoadLinked.array_lengths (h : LoadLinked space roots loaded parts final) (s : Schema)
    (kind : ArrayKind) :
    List.Forall₂ (fun i part => ∃ p, loaded.programs[i]? = some p ∧
      (kind.positions p.document).length = (part.array s kind).length) loaded.order parts := by
  have hvalid : ∀ i ∈ loaded.order, i < loaded.programs.length :=
    fun i hi => h.found.ordered.lt_length hi
  refine ((List.forall₂_and_left _ _).2 ⟨hvalid, h.linked⟩).imp ?_
  rintro i part ⟨hlt, hl⟩
  have hp := List.getElem?_eq_getElem hlt
  exact ⟨_, hp, (h.array_located s hp (hl _ hp) kind).length_eq⟩

theorem pieces_array (programs : List Program) (types : TypeGraph) {order : List ProgramId}
    (hlength : order.length = parts.length) (kind : ArrayKind) :
    (pieces programs (.ofParts types parts) kind (order.zip parts)).flatMap Prod.snd =
      (Schema.ofParts types parts).array kind := by
  have hparts := congrArg (List.flatMap fun part : SchemaPart =>
    part.array (.ofParts types parts) kind) (List.map_snd_zip hlength.ge)
  rw [array_ofParts, ← hparts, List.flatMap_map]
  unfold pieces
  rw [List.flatMap_map]

/-- What a covered load gives. -/
theorem Covers.loads (hc : Covers space roots roots') (hl : loadPrograms space roots = .ok loaded)
    (h : LoadLinked space roots loaded parts final) :
    ∃ loaded' schema', loadPrograms space roots' = .ok loaded' ∧
      load space roots' = .ok schema' ∧ ∀ kind, (schema'.array kind).Perm
        (loaded.elementsFrom kind ((Schema.ofParts final.types parts).array kind)
          (loaded'.programs.map Program.path)) := by
  obtain ⟨loaded', hl'⟩ := hc.finds hl
  have hloaded' := loadPrograms_loaded hl'
  have htwins : ∀ i' ∈ loaded'.order, ∃ i, Twin loaded loaded' i i' := by
    intro i' hi'
    have hp' := List.getElem?_eq_getElem (hloaded'.ordered.lt_length hi')
    have hr := (mem_paths_iff hl').1 (List.mem_map_of_mem (List.mem_of_getElem? hp'))
    obtain ⟨p, hp, hpath⟩ := List.mem_map.1 ((mem_paths_iff hl).2 (hc.reached hr))
    obtain ⟨i, hi⟩ := List.mem_iff_getElem?.1 hp
    exact ⟨i, p, _, hi, hp', hpath.symm⟩
  obtain ⟨parts', final', hm⟩ := exists_mirrored hl hl' h htwins
  have h' := loadLinked_of_ran hloaded' hm.ran
  refine ⟨loaded', _, hl', load_of_linkParts hl' hm.ran, ?_⟩
  intro kind
  have hperm := pieces_perm h.found hloaded' h.linked.length_eq (hm.arrays_alike hl hl' h h' kind)
  rw [← pieces_array _ _ hm.parts.length_eq, array_ofParts,
    elementsFrom_eq (h.array_lengths _ kind)]
  exact hperm.flatMap_right _

theorem elementsFrom_all {array : List Json} {files : List Path}
    (hlength : (loaded.declared kind.positions).length = array.length)
    (h : ∀ p ∈ loaded.programs, p.path ∈ files) :
    loaded.elementsFrom kind array files = array := by
  unfold LoadedPrograms.elementsFrom
  rw [List.filter_eq_self.2 ?_, List.map_snd_zip hlength.ge]
  rintro ⟨source, element⟩ hm
  obtain ⟨-, hp, -⟩ := mem_declared_iff.1 (List.of_mem_zip hm).1
  exact decide_eq_true (h _ (List.mem_of_getElem? hp))

theorem covers_of_subset (hl : loadPrograms space roots = .ok loaded)
    (h : ∀ root ∈ roots', root ∈ roots) : Covers space roots roots' := by
  intro root hm
  obtain ⟨⟨ids, hd⟩, -⟩ := loadPrograms_files hl
  obtain ⟨path, hpath⟩ := hd.loadable.rooted root (h root hm)
  exact ⟨path, .root (h root hm) hpath, hpath⟩

theorem load_perm_of_same {schema : Schema} (hload : load space roots = .ok schema)
    (h : ∀ root, root ∈ roots' ↔ root ∈ roots) :
    ∃ schema', load space roots' = .ok schema' ∧
      ∀ kind, (schema'.array kind).Perm (schema.array kind) := by
  obtain ⟨loaded, parts, final, hl, hlinked, rfl⟩ := load_linked hload
  have hc := covers_of_subset hl fun root hm => (h root).1 hm
  obtain ⟨loaded', schema', hl', hload', hperm⟩ := hc.loads hl hlinked
  have hc' := covers_of_subset hl' fun root hm => (h root).2 hm
  have hfiles : ∀ p ∈ loaded.programs, p.path ∈ loaded'.programs.map Program.path := by
    intro p hp
    exact (mem_paths_iff hl').2 (hc'.reached ((mem_paths_iff hl).1 (List.mem_map_of_mem hp)))
  refine ⟨schema', hload', fun kind => ?_⟩
  have hall := hperm kind
  rwa [elementsFrom_all (hlinked.arrays_located kind).length_eq hfiles] at hall

/-- A load is modular in its roots. Roots among the files of a load can be loaded by themselves, and
their arrays hold, in some order, what the files they lead to add to the arrays of that load. So it
does not matter in which order and how often roots are given. -/
theorem load_modular (space : SearchSpace) (roots roots' : List String) :
    (∀ loaded schema, loadPrograms space roots = .ok loaded → load space roots = .ok schema →
      (∀ root ∈ roots', ∃ p ∈ loaded.programs,
        space.store.canonicalize (.ofString root) = .ok p.path) →
      (∀ kind, List.Forall₂ DeclaredAt (loaded.declared kind.positions) (schema.array kind)) ∧
      ∃ loaded' schema', loadPrograms space roots' = .ok loaded' ∧
        load space roots' = .ok schema' ∧
        (∀ path, path ∈ loaded'.programs.map Program.path ↔ Reached space roots' path) ∧
        ∀ kind, (schema'.array kind).Perm
          (loaded.elementsFrom kind (schema.array kind) (loaded'.programs.map Program.path))) ∧
    ((∀ root, root ∈ roots' ↔ root ∈ roots) →
      ((∃ schema', load space roots' = .ok schema') ↔ ∃ schema, load space roots = .ok schema) ∧
      ∀ schema schema', load space roots = .ok schema → load space roots' = .ok schema' →
        ∀ kind, (schema'.array kind).Perm (schema.array kind)) := by
  constructor
  · intro loaded schema hl hload hroots
    obtain ⟨loaded₁, parts, final, hl₁, hlinked, rfl⟩ := load_linked hload
    obtain rfl : loaded = loaded₁ := Except.ok.inj (hl.symm.trans hl₁)
    refine ⟨hlinked.arrays_located, ?_⟩
    obtain ⟨loaded', schema', hl', hload', hperm⟩ := (covers_of_loaded hl hroots).loads hl hlinked
    exact ⟨loaded', schema', hl', hload', fun path => mem_paths_iff hl', hperm⟩
  · intro hsame
    refine ⟨⟨?_, ?_⟩, ?_⟩
    · rintro ⟨schema', h'⟩
      obtain ⟨schema, h, -⟩ := load_perm_of_same h' fun root => (hsame root).symm
      exact ⟨schema, h⟩
    · rintro ⟨schema, h⟩
      obtain ⟨schema', h', -⟩ := load_perm_of_same h hsame
      exact ⟨schema', h'⟩
    · intro schema schema' h h' kind
      obtain ⟨schema₁, h₁, hperm⟩ := load_perm_of_same h hsame
      obtain rfl : schema' = schema₁ := Except.ok.inj (h'.symm.trans h₁)
      exact hperm kind

end Modular

def market : SearchSpace :=
  ⟨⟨[(⟨true, ["shop.thrift"]⟩, "service Shop \x7b\x7d"),
    (⟨true, ["news.thrift"]⟩, "include \"base.thrift\" struct Item \x7b 1: base.Id id \x7d " ++
        "service News extends base.Root \x7b\x7d"),
    (⟨true, ["base.thrift"]⟩, "typedef i32 Id service Root \x7b\x7d")], []⟩, []⟩

theorem market_modular :
    ∃ loaded schema loaded' schema',
      loadPrograms market ["/shop.thrift", "/news.thrift"] = .ok loaded ∧
      load market ["/shop.thrift", "/news.thrift"] = .ok schema ∧
      loadPrograms market ["/news.thrift", "/news.thrift"] = .ok loaded' ∧
      load market ["/news.thrift", "/news.thrift"] = .ok schema' ∧
      loaded'.programs.map Program.path = [⟨true, ["news.thrift"]⟩, ⟨true, ["base.thrift"]⟩] ∧
      ∀ kind, (schema'.array kind).Perm
        (loaded.elementsFrom kind (schema.array kind) (loaded'.programs.map Program.path)) := by
  have hpaths : (loadPrograms market ["/shop.thrift", "/news.thrift"]).map
      (fun loaded => loaded.programs.map Program.path) = .ok [⟨true, ["shop.thrift"]⟩,
        ⟨true, ["news.thrift"]⟩, ⟨true, ["base.thrift"]⟩] := by cbv
  have hpaths' : (loadPrograms market ["/news.thrift", "/news.thrift"]).map
      (fun loaded => loaded.programs.map Program.path) = .ok [⟨true, ["news.thrift"]⟩,
        ⟨true, ["base.thrift"]⟩] := by cbv
  have hok : (load market ["/shop.thrift", "/news.thrift"]).toOption.isSome := by cbv
  cases hload : load market ["/shop.thrift", "/news.thrift"] with
  | error e =>
    rw [hload] at hok
    cases hok
  | ok schema =>
    obtain ⟨loaded, -, -, hl, -⟩ := load_linked hload
    rw [hl] at hpaths
    have hroots : ∀ root ∈ ["/news.thrift", "/news.thrift"],
        ∃ p ∈ loaded.programs, market.store.canonicalize (.ofString root) = .ok p.path := by
      have hfiles : loaded.programs.map Program.path = _ := Except.ok.inj hpaths
      have hnews : (⟨true, ["news.thrift"]⟩ : Path) ∈ loaded.programs.map Program.path := by
        rw [hfiles]
        simp
      obtain ⟨p, hp, hpath⟩ := List.mem_map.1 hnews
      intro root hm
      obtain rfl : root = "/news.thrift" := by simpa using hm
      refine ⟨p, hp, ?_⟩
      rw [hpath]
      cbv
    obtain ⟨-, loaded', schema', hl', hload', -, hperm⟩ :=
      (load_modular market _ _).1 loaded schema hl hload hroots
    rw [hl'] at hpaths'
    exact ⟨loaded, schema, loaded', schema', hl, rfl, hl', hload', Except.ok.inj hpaths', hperm⟩

end ThriftIdl
