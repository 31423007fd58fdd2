import ThriftIdl.Proofs.IncludeClosure
import ThriftIdl.Proofs.ServicesInStep
import ThriftIdl.Proofs.WellFoundedServices

namespace ThriftIdl

open LinkState (InStep)
open Linking (PartLinked Advances Unlinked linkPart linkParts linkTypes linkServices)

section Symbols

variable {α β γ : Type} {symbol : Program → String → Option α}
  {symbol' : Program → String → Option β} {f : α → γ} {f' : β → γ} {q q' : Program}

theorem findSome?_alike {δ ε : Type} {g : δ → Option α} {g' : ε → Option β} {xs : List δ}
    {ys : List ε} (h : List.Forall₂ (fun x y => (g x).map f = (g' y).map f') xs ys) :
    (xs.findSome? g).map f = (ys.findSome? g').map f' := by
  induction h with
  | nil => rfl
  | @cons x y _ _ hxy _ ih =>
    rw [List.findSome?_cons, List.findSome?_cons]
    cases hx : g x with
    | none =>
      rw [hx, Option.map_none] at hxy
      rw [Option.map_eq_none_iff.1 hxy.symm]
      exact ih
    | some a =>
      rw [hx, Option.map_some] at hxy
      obtain ⟨b, hb, he⟩ := Option.map_eq_some_iff.1 hxy.symm
      rw [hb]
      exact congrArg some he.symm

theorem offeredSymbol_alike (hpath : q'.path = q.path)
    (h : ∀ name, (symbol q name).map f = (symbol' q' name).map f') (name : String) :
    (symbol q name <|> (q.unqualified? name).bind (symbol q)).map f =
      (symbol' q' name <|> (q'.unqualified? name).bind (symbol' q')).map f' := by
  have hstem : q'.unqualified? name = q.unqualified? name := by
    unfold Program.unqualified? Program.name
    rw [hpath]
  simp only [Option.orElse_eq_orElse, Option.orElse_eq_or, Option.map_or]
  rw [h, hstem]
  cases q.unqualified? name with
  | none => rfl
  | some own => rw [Option.bind_some, Option.bind_some, h]

/-- A look-up in the includes of two programs gives the same if each include of the one has what the
include of the other in its place has. -/
theorem includedSymbol_alike {programs programs' : List Program} {p p' : Program}
    (h : List.Forall₂ (fun inc inc' : Include => ∃ q q', programs[inc.target]? = some q ∧
      programs'[inc'.target]? = some q' ∧ q'.path = q.path ∧
        ∀ name, (symbol q name).map f = (symbol' q' name).map f') p.includes p'.includes)
    (name : String) :
    (includedSymbol symbol programs p name).map f =
      (includedSymbol symbol' programs' p' name).map f' := by
  apply findSome?_alike
  refine h.imp ?_
  rintro inc inc' ⟨q, q', hq, hq', hpath, hsymbol⟩
  rw [hq, hq', Option.bind_some, Option.bind_some]
  exact offeredSymbol_alike hpath hsymbol name

end Symbols

namespace Linking

structure PartAlike (g g' : TypeGraph) (part part' : SchemaPart) : Prop where
  enums : List.Forall₂ EnumAlike part.enums part'.enums
  typedefs : List.Forall₂ (TypedefAlike g g') part.typedefs part'.typedefs
  records : List.Forall₂ (RecordAlike g g') part.records part'.records
  services : List.Forall₂ (ServiceAlike g g') part.services part'.services

theorem persists_part : Persists PartAlike := by
  intro g g' h h' part part' hev hev' ha
  refine ⟨ha.enums, ?_, ?_, ?_⟩
  · exact ha.typedefs.imp fun _ _ => persists_typedef _ _ _ _ _ _ hev hev'
  · exact ha.records.imp fun _ _ => persists_record _ _ _ _ _ _ hev hev'
  · exact ha.services.imp fun _ _ => persists_service _ _ _ _ _ _ hev hev'

theorem linkTypes_included {st mid : LinkState} {i : ProgramId} {p : Program}
    {types : List EnumType × List Typedef × List Record} (hst : st.WellFormed)
    (hu : Unlinked st.programs i p) (h : exec (linkTypes i p) st = (.ok types, mid))
    (name : String) : includedSymbol Program.serviceSymbol mid.programs p name =
      includedSymbol Program.serviceSymbol st.programs p name := by
  obtain ⟨-, -, added, hprograms⟩ := linkTypes_ok hst hu h
  apply includedSymbol_of_same rfl
  intro inc hinc
  rw [hprograms, List.getElem?_modify_ne _ _ (hu.others inc hinc).symm]

theorem linkPart_follows {loaded loaded' : LoadedPrograms} {before before' : List ProgramId}
    {i i' : ProgramId} {p p' : Program} {st st' : LinkState} (hat : AtPart loaded before i p st)
    (hat' : AtPart loaded' before' i' p' st') (hdoc : p'.document = p.document)
    (h : InStep i i' st st')
    (hseen : ∀ name, (includedSymbol Program.serviceSymbol st.programs p name).isSome →
      (includedSymbol Program.serviceSymbol st'.programs p' name).isSome) :
    Follows i i' PartAlike (linkPart (⟨loaded.programs, before⟩ : LoadedPrograms).serviceCount i)
      (linkPart (⟨loaded'.programs, before'⟩ : LoadedPrograms).serviceCount i') st st' := by
  apply Follows.of_exec (exec_linkPart hat.unlinked.present _)
    (exec_linkPart hat'.unlinked.present _) rfl rfl
  intro part final hx
  obtain ⟨⟨enums, typedefs, records⟩, mid, h₁, hx⟩ := exec_bind_ok_iff.1 hx
  obtain ⟨services, st₁, h₂, hx⟩ := exec_bind_ok_iff.1 hx
  obtain ⟨rfl, rfl⟩ := exec_pure_ok_iff.1 hx
  obtain ⟨types', mid', h₁', hstep, hev, hev', henums, htypedefs, hrecords⟩ :=
    linkTypes_follows hdoc h _ mid h₁
  have hready := ServicesReady.of_indexed hat.wellFormed hat.unlinked hat.indexed hat.new h₁
  have hready' := ServicesReady.of_indexed hat'.wellFormed hat'.unlinked hat'.indexed hat'.new h₁'
  have hseen' : ∀ name, (includedSymbol Program.serviceSymbol mid.programs p name).isSome →
      (includedSymbol Program.serviceSymbol mid'.programs p' name).isSome := by
    intro name
    rw [linkTypes_included hat.wellFormed hat.unlinked h₁,
      linkTypes_included hat'.wellFormed hat'.unlinked h₁']
    exact hseen name
  obtain ⟨services', st₁', h₂', hstep, hew, hew', hservices⟩ :=
    linkServices_follows hdoc hstep hready hready' hseen' services st₁ h₂
  refine ⟨⟨types'.1, types'.2.1, types'.2.2, services'⟩, st₁', ?_, hstep, hev.trans hew,
    hev'.trans hew', henums, ?_, ?_, hservices⟩
  · rw [exec_bind_of_ok h₁']
    exact exec_bind_of_ok h₂'
  · exact htypedefs.imp fun _ _ => persists_typedef _ _ _ _ _ _ hew hew'
  · exact hrecords.imp fun _ _ => persists_record _ _ _ _ _ _ hew hew'

end Linking

/-- Programs of two loads that were read from one file. -/
def Twin (loaded loaded' : LoadedPrograms) (i i' : ProgramId) : Prop :=
  ∃ p p', loaded.programs[i]? = some p ∧ loaded'.programs[i']? = some p' ∧ p'.path = p.path

section Twins

variable {space : SearchSpace} {roots roots' : List String} {loaded loaded' : LoadedPrograms}
  {i i' j : ProgramId} {p p' q : Program} {name : String} {done : List ProgramId} {st : LinkState}

theorem Loaded.paths_distinct (h : Loaded space roots loaded) :
    (loaded.programs.map Program.path).Nodup := by
  obtain ⟨ids, hd⟩ := h.discovered
  exact hd.registered.distinct

theorem Loaded.parsed (h : Loaded space roots loaded) (hp : loaded.programs[i]? = some p) :
    Parsed space.store p.path p.document := by
  obtain ⟨ids, hd⟩ := h.discovered
  exact hd.registered.parsed p (List.mem_of_getElem? hp)

theorem Twin.unique (hl : Loaded space roots loaded) (h : Twin loaded loaded' i i')
    (hj : Twin loaded loaded' j i') : i = j := by
  obtain ⟨p, p', hp, hp', hpath⟩ := h
  obtain ⟨q, q', hq, hq', hpath'⟩ := hj
  obtain rfl := Option.some.inj (hp'.symm.trans hq')
  apply Discovery.index_unique hl.paths_distinct (x := p.path)
  · rw [List.getElem?_map, hp, Option.map_some]
  · rw [List.getElem?_map, hq, Option.map_some, ← hpath', hpath]

theorem Loaded.document_eq (hl : Loaded space roots loaded) (hl' : Loaded space roots' loaded')
    (hp : loaded.programs[i]? = some p) (hp' : loaded'.programs[i']? = some p')
    (hpath : p'.path = p.path) : p'.document = p.document := by
  have hparsed := hl'.parsed hp'
  rw [hpath] at hparsed
  exact hparsed.unique (hl.parsed hp)

theorem twin_includes (hl : loadPrograms space roots = .ok loaded)
    (hl' : loadPrograms space roots' = .ok loaded') (hp : loaded.programs[i]? = some p)
    (hp' : loaded'.programs[i']? = some p') (hpath : p'.path = p.path) :
    List.Forall₂ (fun inc inc' => Twin loaded loaded' inc.target inc'.target) p.includes
      p'.includes := by
  obtain ⟨⟨ids, hd⟩, -, htargets⟩ := loadPrograms_files hl
  obtain ⟨-, -, htargets'⟩ := loadPrograms_files hl'
  have he := htargets p (List.mem_of_getElem? hp)
  rw [← hpath, ← htargets' p' (List.mem_of_getElem? hp')] at he
  rw [← List.forall₂_eq_eq_eq, List.forall₂_map_left_iff, List.forall₂_map_right_iff] at he
  have hvalid : ∀ inc ∈ p.includes, inc.target < loaded.programs.length :=
    fun inc hinc => hd.includes_lt ⟨p, hp, inc, hinc, rfl⟩
  refine ((List.forall₂_and_left _ _).2 ⟨hvalid, he⟩).imp ?_
  rintro inc inc' ⟨hlt, he⟩
  have hq := List.getElem?_eq_getElem hlt
  rw [List.getElem?_map, hq, Option.map_some, List.getElem?_map] at he
  obtain ⟨q', hq', hpath⟩ := Option.map_eq_some_iff.1 he.symm
  exact ⟨_, q', hq, hq', hpath⟩

theorem ServicesIndexed.names_service (h : ServicesIndexed ⟨loaded.programs, done⟩ st)
    (hp : loaded.programs[i]? = some p) (hi : i ∈ done) (hq : st.programs[i]? = some q) :
    (q.serviceSymbol name).isSome ↔ name ∈ p.document.services.map (·.name) := by
  rw [Option.isSome_iff_exists, List.mem_map]
  simp only [h.symbols i q hq]
  constructor
  · rintro ⟨k, s, hs, rfl, rfl⟩
    obtain ⟨-, hp', hdecl⟩ := mem_declared_iff.1 (List.mem_of_getElem? hs)
    obtain rfl := Option.some.inj (hp.symm.trans hp')
    exact ⟨s.decl, hdecl, rfl⟩
  · rintro ⟨decl, hdecl, rfl⟩
    have hm : ⟨i, p, decl⟩ ∈ (⟨loaded.programs, done⟩ : LoadedPrograms).declared Document.services :=
      mem_declared_iff.2 ⟨hi, hp, hdecl⟩
    obtain ⟨k, hk⟩ := List.mem_iff_getElem?.1 hm
    exact ⟨k, _, hk, rfl, rfl⟩

end Twins

theorem Linking.Advances.evolves {st st' : LinkState} {order : List ProgramId}
    (h : Advances st order st') (hst : st.WellFormed) : st.types.Evolves st'.types :=
  ⟨h.grows, hst.types, h.wellFormed.types⟩

theorem Linking.Advances.offered {st st' : LinkState} {order : List ProgramId}
    (h : Advances st order st') (hst : st.WellFormed) {i : ProgramId} (hi : i ∉ order)
    (name : String) : st'.offered i name = st.offered i name :=
  LinkState.offered_of_same hst (h.evolves hst) (h.others i hi) name

/-- The stretch of a run in which one program is linked. What the programs offer by then, they offer
at the end. -/
structure PartRun (loaded : LoadedPrograms) (parts : List SchemaPart) (final : LinkState)
    (i : ProgramId) (p : Program) (before : List ProgramId) (start : LinkState) (part : SchemaPart)
    (mid : LinkState) : Prop where
  arrived : AtPart loaded before i p start
  ran : exec (linkPart (⟨loaded.programs, before⟩ : LoadedPrograms).serviceCount i) start =
    (.ok part, mid)
  place : (i, part) ∈ loaded.order.zip parts
  includes : ∀ inc ∈ p.includes, inc.target ∈ before
  types : mid.types.Evolves final.types
  earlier : ∀ j ∈ before, ∀ name, final.offered j name = start.offered j name
  own : ∀ name, final.offered i name = mid.offered i name

/-- The programs of one load that are linked so far offer the types that their twins offer at the
end of another load, and what they declare has become the same. -/
structure Mirrored (loaded loaded' : LoadedPrograms) (parts : List SchemaPart) (final : LinkState)
    (done : List ProgramId) (parts' : List SchemaPart) (st : LinkState) : Prop where
  ran : exec (linkParts 0 done) (.ofPrograms loaded'.programs) = (.ok parts', st)
  offered : ∀ i i', i' ∈ done → Twin loaded loaded' i i' → ∀ name,
    final.offered i name = st.offered i' name
  parts : List.Forall₂ (fun i' part' => ∃ i part, Twin loaded loaded' i i' ∧
    (i, part) ∈ loaded.order.zip parts ∧ Linking.PartAlike final.types st.types part part')
    done parts'

section Runs

variable {space : SearchSpace} {roots roots' : List String} {loaded loaded' : LoadedPrograms}
  {i i' : ProgramId} {p p' : Program} {done after : List ProgramId} {parts parts' : List SchemaPart}
  {st st' final : LinkState}

theorem LoadLinked.partRun (h : LoadLinked space roots loaded parts final)
    (hp : loaded.programs[i]? = some p) :
    ∃ before start part mid, PartRun loaded parts final i p before start part mid := by
  have hi := h.found.complete i (List.getElem?_eq_some_iff.1 hp).1
  obtain ⟨before, after, horder⟩ := List.append_of_mem hi
  have hrun := h.ran
  have hlinkable := h.found.linkable
  rw [horder] at hrun hlinkable
  obtain ⟨parts₁, start, parts₂, h₁, hrest, rfl⟩ := Linking.linkParts_append_iff.1 hrun
  obtain ⟨part, mid, h₂, hrest⟩ := exec_bind_ok_iff.1 hrest
  obtain ⟨others, st₂, h₃, hrest⟩ := exec_bind_ok_iff.1 hrest
  obtain ⟨rfl, rfl⟩ := exec_pure_ok_iff.1 hrest
  obtain ⟨hat, hcount⟩ := h.found.atPart horder hp h₁
  rw [Nat.zero_add, ← hcount] at h₂
  obtain ⟨hadv₁, hparts₁, -⟩ :=
    Linking.linkParts_ok hlinkable.of_append h.found.wellFormed (fun _ _ => rfl) h₁
  obtain ⟨hadv₂, -, -⟩ := Linking.linkPart_ok hat.wellFormed hat.unlinked h₂
  have hrest : Linking.Linkable loaded.programs ([i] ++ after) := hlinkable.of_append_right
  have hsame := hrest.unchanged hadv₂ (hlinkable.unchanged hadv₁ fun _ _ => rfl)
  obtain ⟨hadv₃, -, -⟩ := Linking.linkParts_ok hrest.of_append_right hadv₂.wellFormed hsame h₃
  refine ⟨before, start, part, mid, hat, h₂, ?_, ?_, hadv₃.evolves hadv₂.wellFormed, ?_, ?_⟩
  · rw [horder, List.zip_append hparts₁.length_eq]
    exact List.mem_append_right _ List.mem_cons_self
  · intro inc hinc
    exact h.found.ordered.includes_before horder ⟨p, hp, inc, hinc, rfl⟩
  · intro j hj name
    have hne : j ∉ [i] := fun hm => hat.new (List.mem_singleton.1 hm ▸ hj)
    have hlater : j ∉ after := fun hm => hlinkable.not_mem_rest hj (List.mem_cons_of_mem _ hm)
    rw [hadv₃.offered hadv₂.wellFormed hlater, hadv₂.offered hat.wellFormed hne]
  · intro name
    exact hadv₃.offered hadv₂.wellFormed (hrest.not_mem_rest List.mem_cons_self) name

/-- Each include of one program offers what the include of the other program in its place does. -/
def IncludesAlike (start st : LinkState) (p p' : Program) : Prop :=
  List.Forall₂ (fun inc inc' : Include => ∃ q q', start.programs[inc.target]? = some q ∧
    st.programs[inc'.target]? = some q' ∧ q'.path = q.path ∧
      (∀ name, start.offered inc.target name = st.offered inc'.target name) ∧
        ∀ name, (q.serviceSymbol name).isSome ↔ (q'.serviceSymbol name).isSome)
    p.includes p'.includes

theorem IncludesAlike.inStep {before : List ProgramId} {start : LinkState}
    (h : IncludesAlike start st p p') (hat : AtPart loaded before i p start)
    (hat' : AtPart loaded' done i' p' st) (hdoc : p'.document = p.document) :
    InStep i i' start st := by
  have hp := hat.unlinked.present
  have hp' := hat'.unlinked.present
  refine ⟨hat.wellFormed, hat'.wellFormed, ?_, ?_, ?_, ⟨p, hp, hat.unlinked.others⟩,
    ⟨p', hp', hat'.unlinked.others⟩⟩
  · unfold LinkState.document
    rw [hp, hp', Option.map_some, Option.map_some, hdoc]
  · intro name
    unfold LinkState.offered Program.typeSymbol
    rw [hp, hp', Option.bind_some, Option.bind_some, hat.unlinked.fresh, hat'.unlinked.fresh]
    rfl
  · intro name
    unfold LinkState.inherited
    rw [hp, hp', Option.bind_some, Option.bind_some]
    apply includedSymbol_alike
    refine h.imp ?_
    rintro inc inc' ⟨q, q', hq, hq', hpath, hoffered, -⟩
    refine ⟨q, q', hq, hq', hpath, fun name => ?_⟩
    have ho := hoffered name
    unfold LinkState.offered at ho
    rwa [hq, hq', Option.bind_some, Option.bind_some] at ho

theorem IncludesAlike.seen {start : LinkState} (h : IncludesAlike start st p p') (name : String) :
    (includedSymbol Program.serviceSymbol start.programs p name).isSome =
      (includedSymbol Program.serviceSymbol st.programs p' name).isSome := by
  have hall : (includedSymbol Program.serviceSymbol start.programs p name).map (fun _ => ()) =
      (includedSymbol Program.serviceSymbol st.programs p' name).map fun _ => () := by
    apply includedSymbol_alike
    refine h.imp ?_
    rintro inc inc' ⟨q, q', hq, hq', hpath, -, hservices⟩
    refine ⟨q, q', hq, hq', hpath, fun name => ?_⟩
    have hiff := hservices name
    cases hs : q.serviceSymbol name <;> cases hs' : q'.serviceSymbol name <;>
      simp [hs, hs'] at hiff ⊢
  have hsome := congrArg Option.isSome hall
  rwa [Option.isSome_map, Option.isSome_map] at hsome

theorem Mirrored.includesAlike {before : List ProgramId} {start mid : LinkState}
    {part : SchemaPart} (hl : loadPrograms space roots = .ok loaded)
    (hl' : loadPrograms space roots' = .ok loaded')
    (hm : Mirrored loaded loaded' parts final done parts' st)
    (hrun : PartRun loaded parts final i p before start part mid)
    (hat' : AtPart loaded' done i' p' st) (hpath : p'.path = p.path)
    (hdone : ∀ inc ∈ p'.includes, inc.target ∈ done) : IncludesAlike start st p p' := by
  have hat := hrun.arrived
  refine (forall₂_with_mem (twin_includes hl hl' hat.source hat'.source hpath)).imp ?_
  rintro inc inc' ⟨hinc, hinc', htwin⟩
  have hbefore := hrun.includes inc hinc
  have hoffered := hm.offered _ _ (hdone inc' hinc') htwin
  obtain ⟨source, source', hs, hs', hsame⟩ := htwin
  have hdoc := (loadPrograms_loaded hl).document_eq (loadPrograms_loaded hl') hs hs' hsame
  obtain ⟨q, hq, he⟩ := hat.indexed.exists_source hs
  obtain ⟨q', hq', he'⟩ := hat'.indexed.exists_source hs'
  refine ⟨q, q', hq, hq', ?_, ?_, ?_⟩
  · have hqpath : q.path = source.path := congrArg Prod.fst he
    have hqpath' : q'.path = source'.path := congrArg Prod.fst he'
    rw [hqpath, hqpath', hsame]
  · intro name
    rw [← hrun.earlier _ hbefore, hoffered]
  · intro name
    rw [hat.indexed.names_service hs hbefore hq,
      hat'.indexed.names_service hs' (hdone inc' hinc') hq', hdoc]

theorem Mirrored.step (hl : loadPrograms space roots = .ok loaded)
    (hl' : loadPrograms space roots' = .ok loaded')
    (h : LoadLinked space roots loaded parts final)
    (hm : Mirrored loaded loaded' parts final done parts' st)
    (horder : loaded'.order = done ++ i' :: after) (htwin : Twin loaded loaded' i i') :
    ∃ part' st', Mirrored loaded loaded' parts final (done ++ [i']) (parts' ++ [part']) st' := by
  obtain ⟨p, p', hp, hp', hpath⟩ := id htwin
  have hloaded' := loadPrograms_loaded hl'
  obtain ⟨before, start, part, mid, hrun⟩ := h.partRun hp
  obtain ⟨hat', hcount⟩ := hloaded'.atPart horder hp' hm.ran
  have hdoc := h.found.document_eq hloaded' hp hp' hpath
  have halike := hm.includesAlike hl hl' hrun hat' hpath fun inc hinc =>
    hloaded'.ordered.includes_before horder ⟨p', hp', inc, hinc, rfl⟩
  obtain ⟨part', st', hpart', hstep, hev, hev', hparts⟩ :=
    Linking.linkPart_follows hrun.arrived hat' hdoc (halike.inStep hrun.arrived hat' hdoc)
      (fun name hs => (halike.seen name) ▸ hs) part mid hrun.ran
  obtain ⟨hadv', -, -⟩ := Linking.linkPart_ok hat'.wellFormed hat'.unlinked hpart'
  refine ⟨part', st', ?_, ?_, ?_⟩
  · refine Linking.linkParts_append_iff.2 ⟨parts', st, [part'], hm.ran, ?_, rfl⟩
    rw [Nat.zero_add, ← hcount, Linking.linkParts, exec_bind_of_ok hpart']
    rfl
  · intro j j' hj' hj name
    rcases List.mem_append.1 hj' with hj' | hj'
    · have hne : j' ∉ [i'] := fun hm => hat'.new (List.mem_singleton.1 hm ▸ hj')
      rw [hm.offered j j' hj' hj, hadv'.offered hat'.wellFormed hne]
    · obtain rfl := List.mem_singleton.1 hj'
      obtain rfl := hj.unique h.found htwin
      rw [hrun.own, hstep.offered]
  · refine List.rel_append (hm.parts.imp ?_) (.cons ?_ .nil)
    · rintro j' other' ⟨j, other, hj, hother, ha⟩
      exact ⟨j, other, hj, hother,
        Linking.persists_part _ _ _ _ _ _ (.refl hrun.types.after) hev' ha⟩
    · exact ⟨i, part, htwin, hrun.place,
        Linking.persists_part _ _ _ _ _ _ hrun.types (.refl hev'.after) hparts⟩

theorem exists_mirrored (hl : loadPrograms space roots = .ok loaded)
    (hl' : loadPrograms space roots' = .ok loaded')
    (h : LoadLinked space roots loaded parts final)
    (htwins : ∀ i' ∈ loaded'.order, ∃ i, Twin loaded loaded' i i') :
    ∃ parts' final', Mirrored loaded loaded' parts final loaded'.order parts' final' := by
  have hrun : ∀ done after, loaded'.order = done ++ after →
      ∃ parts' st, Mirrored loaded loaded' parts final done parts' st := by
    intro done
    induction done using List.reverseRecOn with
    | nil =>
      intro after _
      exact ⟨[], _, rfl, by simp, .nil⟩
    | append_singleton done i' ih =>
      intro after horder
      rw [List.append_assoc, List.singleton_append] at horder
      obtain ⟨parts', st, hm⟩ := ih _ horder
      obtain ⟨i, htwin⟩ := htwins i' (horder ▸ List.mem_append_right _ List.mem_cons_self)
      obtain ⟨part', st', hm'⟩ := hm.step hl hl' h horder htwin
      exact ⟨_, st', hm'⟩
  exact hrun loaded'.order [] (List.append_nil _).symm

end Runs

end ThriftIdl
