import ThriftIdl.Proofs.ServiceRuns

namespace ThriftIdl

open Linking (Extends ReportsLoop ServicesLinked ServicesReady BaseFound Unlinked linkTypes
  linkServices linkParts)
open Relation (ReflTransGen TransGen)

/-- Linking comes to a program: those before it in the order are linked. -/
structure AtPart (loaded : LoadedPrograms) (before : List ProgramId) (program : ProgramId)
    (p : Program) (st : LinkState) : Prop where
  source : loaded.programs[program]? = some p
  wellFormed : st.WellFormed
  unlinked : Unlinked st.programs program p
  indexed : ServicesIndexed ⟨loaded.programs, before⟩ st
  new : program ∉ before

/-- Linking comes to the services of a program: those before it in the order are linked, and so are
its own types. -/
def AtServices (loaded : LoadedPrograms) (program : ProgramId) (p : Program) (first : ServiceId)
    (st : LinkState) : Prop :=
  loaded.programs[program]? = some p ∧ ∃ before after parts start types,
    loaded.order = before ++ program :: after ∧
    exec (linkParts 0 before) (.ofPrograms loaded.programs) = (.ok parts, start) ∧
    first = (parts.flatMap SchemaPart.services).length ∧
    exec (linkTypes program p) start = (.ok types, st)

def BasesResolve (loaded : LoadedPrograms) (program : ProgramId) (p : Program) : Prop :=
  ∀ decl ∈ p.document.services, ∀ name, decl.base = some name →
    ∃ j, loaded.NamesService program name j

/-- A service has the base that the written name stands for. -/
def BaseKept (loaded : LoadedPrograms) (schema : Schema) (source : Placed ServiceDecl)
    (service : Service) : Prop :=
  (source.decl.base = none ∧ service.base = none) ∨
    ∃ name j base, source.decl.base = some name ∧ loaded.NamesService source.id name j ∧
      service.base = some j ∧ schema.services[j]? = some base

theorem LoadedPrograms.NamesService.lt_count {loaded : LoadedPrograms} {i : ProgramId}
    {name : String} {j : ServiceId} (h : loaded.NamesService i name j) :
    j < loaded.serviceCount := by
  rcases h with h | ⟨-, p, before, inc, after, -, -, h | ⟨-, q, own, -, -, h⟩, -⟩
  · exact h.lt_count
  · exact h.lt_count
  · exact h.lt_count

section Prefixes

variable {programs : List Program} {done after : List ProgramId} {i : ProgramId} {p : Program}
  {name : String} {j : ServiceId}

theorem offersService_append (hi : i ∉ after) :
    (⟨programs, done ++ after⟩ : LoadedPrograms).OffersService i name j ↔
      (⟨programs, done⟩ : LoadedPrograms).OffersService i name j := by
  unfold LoadedPrograms.OffersService
  simp only [serviceAt_append hi]

theorem namesService_append (hp : programs[i]? = some p) (hi : i ∉ after)
    (hinc : ∀ inc ∈ p.includes, inc.target ∉ after) :
    (⟨programs, done ++ after⟩ : LoadedPrograms).NamesService i name j ↔
      (⟨programs, done⟩ : LoadedPrograms).NamesService i name j := by
  unfold LoadedPrograms.NamesService
  simp only [serviceAt_append hi]
  apply or_congr_right
  apply and_congr_right
  intro hnone
  constructor
  · rintro ⟨q, before, inc, rest, hq, he, hoffers, hearlier⟩
    obtain rfl : p = q := Option.some.inj (hp.symm.trans hq)
    have hinc' : ∀ inc' ∈ before ++ inc :: rest, inc'.target ∉ after := he ▸ hinc
    refine ⟨p, before, inc, rest, hp, he, ?_, ?_⟩
    · exact (offersService_append (hinc' inc (by simp))).1 hoffers
    · intro earlier hm k hk
      have hout := hinc' earlier (List.mem_append_left _ hm)
      exact hearlier earlier hm k ((offersService_append hout).2 hk)
  · rintro ⟨q, before, inc, rest, hq, he, hoffers, hearlier⟩
    obtain rfl : p = q := Option.some.inj (hp.symm.trans hq)
    have hinc' : ∀ inc' ∈ before ++ inc :: rest, inc'.target ∉ after := he ▸ hinc
    refine ⟨p, before, inc, rest, hp, he, ?_, ?_⟩
    · exact (offersService_append (hinc' inc (by simp))).2 hoffers
    · intro earlier hm k hk
      have hout := hinc' earlier (List.mem_append_left _ hm)
      exact hearlier earlier hm k ((offersService_append hout).1 hk)

end Prefixes

section Check

variable {space : SearchSpace} {roots : List String} {loaded : LoadedPrograms}
  {program : ProgramId} {p : Program} {first : ServiceId} {st : LinkState}

theorem Loaded.servicesIndexed (h : Loaded space roots loaded) :
    ServicesIndexed ⟨loaded.programs, []⟩ (.ofPrograms loaded.programs) := by
  obtain ⟨ids, hd⟩ := h.discovered
  refine ⟨fun _ => rfl, ?_⟩
  intro i q hq name j
  have hfresh : q.services = [] := (hd.registered.fresh q (List.mem_of_getElem? hq)).2
  constructor
  · intro hs
    simp [Program.serviceSymbol, hfresh] at hs
  · intro hs
    simpa using hs.mem

theorem Loaded.unlinked (h : Loaded space roots loaded) (hp : loaded.programs[program]? = some p) :
    Unlinked loaded.programs program p := by
  have hm := h.complete program (List.getElem?_eq_some_iff.1 hp).1
  obtain ⟨q, hq⟩ := h.linkable.unlinked program hm
  obtain rfl : p = q := Option.some.inj (hp.symm.trans hq.present)
  exact hq

/-- The state in which linking comes to a program. -/
theorem Loaded.atPart (h : Loaded space roots loaded) {before after : List ProgramId}
    {parts : List SchemaPart} (horder : loaded.order = before ++ program :: after)
    (hp : loaded.programs[program]? = some p)
    (hrun : exec (linkParts 0 before) (.ofPrograms loaded.programs) = (.ok parts, st)) :
    AtPart loaded before program p st ∧ (⟨loaded.programs, before⟩ : LoadedPrograms).serviceCount =
      (parts.flatMap SchemaPart.services).length := by
  have hlinkable := h.linkable
  rw [horder] at hlinkable
  obtain ⟨hi, -, -, hcount⟩ := Linking.linkParts_services hlinkable.of_append h.wellFormed
    (fun _ _ => rfl) h.servicesIndexed (by simp) hrun
  obtain ⟨hadv, -, -⟩ :=
    Linking.linkParts_ok hlinkable.of_append h.wellFormed (fun _ _ => rfl) hrun
  rw [List.nil_append] at hi hcount
  have hnew : program ∉ before := hlinkable.not_mem_done List.mem_cons_self
  have hu := h.unlinked hp
  refine ⟨⟨hp, hadv.wellFormed, ?_, hi, hnew⟩, ?_⟩
  · exact ⟨(hadv.others program hnew).trans hu.present, hu.fresh, hu.others⟩
  · rw [hcount]
    exact Nat.zero_add _

/-- The state right before the services of a program are linked, and the one in which they have
their symbols. -/
theorem AtServices.ready (h : AtServices loaded program p first st)
    (hl : Loaded space roots loaded) :
    ServicesReady st program p first ∧ ∃ before after, loaded.order = before ++ program :: after ∧
      ServicesIndexed ⟨loaded.programs, before ++ [program]⟩
        (st.defineServices program first p.document.services) := by
  obtain ⟨hp, before, after, parts, start, types, horder, hparts, rfl, htypes⟩ := h
  obtain ⟨hat, hcount⟩ := hl.atPart horder hp hparts
  rw [← hcount]
  have hready := ServicesReady.of_indexed hat.wellFormed hat.unlinked hat.indexed hat.new htypes
  obtain ⟨-, -, added, hmid⟩ := Linking.linkTypes_ok hat.wellFormed hat.unlinked htypes
  exact ⟨hready, before, after, horder, Linking.servicesIndexed_define hat.unlinked.present hp
    hat.indexed hat.new hready.distinct hmid rfl⟩

theorem AtServices.basesFound (h : AtServices loaded program p first st)
    (hl : Loaded space roots loaded) (hr : BasesResolve loaded program p) :
    ∀ decl ∈ p.document.services,
      BaseFound (st.defineServices program first p.document.services) program decl := by
  intro decl hdecl name hname
  obtain ⟨-, before, after, horder, hi⟩ := h.ready hl
  obtain ⟨j, hj⟩ := hr decl hdecl name hname
  have hp := h.1
  have hnd := hl.ordered.nodup
  rw [horder, ← List.singleton_append, ← List.append_assoc] at hnd
  have hdone : ∀ i ∈ before ++ [program], i ∉ after := fun i hi hm =>
    (List.nodup_append.1 hnd).2.2 i hi i hm rfl
  have hloaded : loaded = ⟨loaded.programs, (before ++ [program]) ++ after⟩ := by
    rw [List.append_assoc, List.singleton_append, ← horder]
  rw [hloaded, namesService_append hp (hdone program (by simp)) ?_] at hj
  · rw [Option.isSome_iff_exists]
    exact ⟨j, hi.lookupService_iff.2 hj⟩
  · intro inc hinc
    apply hdone
    have hbefore := hl.ordered.includes_before horder ⟨p, hp, inc, hinc, rfl⟩
    exact List.mem_append_left _ hbefore

theorem AtServices.load_error (h : AtServices loaded program p first st)
    (hl : loadPrograms space roots = .ok loaded) {e : LoadError}
    (he : (exec (linkServices program p first) st).1 = .error e) :
    load space roots = .error e := by
  obtain ⟨hp, before, after, parts, start, types, horder, hparts, rfl, htypes⟩ := h
  obtain ⟨hat, -⟩ := (loadPrograms_loaded hl).atPart horder hp hparts
  have hstart := hat.unlinked.present
  obtain ⟨st', he⟩ : ∃ st', exec (linkServices program p
      (parts.flatMap SchemaPart.services).length) st = (.error e, st') := ⟨_, Prod.ext he rfl⟩
  have hpart : exec (Linking.linkPart (0 + (parts.flatMap SchemaPart.services).length) program)
      start = (.error e, st') := by
    rw [Nat.zero_add, Linking.exec_linkPart hstart, exec_bind_of_ok htypes]
    exact exec_bind_of_error he
  have hrun := Linking.linkParts_error after hparts hpart
  rw [← horder] at hrun
  unfold load
  rw [hl]
  change (exec (Linking.linkAll loaded.order) (.ofPrograms loaded.programs)).1 = _
  unfold Linking.linkAll
  rw [exec_bind_of_error hrun]

end Check

section Linked

variable {space : SearchSpace} {roots : List String} {loaded : LoadedPrograms}
  {parts : List SchemaPart} {final : LinkState} {i n : Nat} {p : Program} {first : ServiceId}
  {schema : Schema} {services : List Service} {s : Service}

theorem LoadLinked.services_linked (h : LoadLinked space roots loaded parts final) :
    ServicesIndexed loaded final ∧
      List.Forall₂ (fun i part => ∀ p, loaded.programs[i]? = some p →
        ∃ first, ServicesLinked final i p first part.services) loaded.order parts ∧
      (parts.flatMap SchemaPart.services).map (·.id) =
        List.range (parts.flatMap SchemaPart.services).length := by
  obtain ⟨hi, hparts, hids, -⟩ := Linking.linkParts_services h.found.linkable h.found.wellFormed
    (fun _ _ => rfl) h.found.servicesIndexed (by simp) h.ran
  refine ⟨hi, hparts, ?_⟩
  rw [hids, List.range_eq_range']
  rfl

theorem Linking.ServicesLinked.basesKept (h : ServicesLinked final i p first services)
    (hi : ServicesIndexed loaded final) (hcount : loaded.serviceCount = schema.services.length) :
    List.Forall₂ (fun decl => BaseKept loaded schema ⟨i, p, decl⟩) p.document.services services := by
  have hbases := h.bases
  unfold Linking.basesIn at hbases
  rw [← List.forall₂_eq_eq_eq, List.forall₂_map_left_iff, List.forall₂_map_right_iff] at hbases
  refine ((List.forall₂_and_left _ _).2 ⟨h.found, hbases.flip⟩).imp ?_
  rintro decl s ⟨hfound, hbase⟩
  cases hd : decl.base with
  | none =>
    rw [hd] at hbase
    exact .inl ⟨hd, hbase⟩
  | some name =>
    obtain ⟨j, hj⟩ := Option.isSome_iff_exists.1 (hfound name hd)
    rw [hd, Option.bind_some, hj] at hbase
    have hnames := hi.lookupService_iff.1 hj
    have hlt : j < schema.services.length := hcount ▸ hnames.lt_count
    exact .inr ⟨name, j, _, hd, hnames, hbase, List.getElem?_eq_getElem hlt⟩

/-- Inheritance leads on among the services of one file, and at last to one without a base or to
one with a smaller id. -/
theorem Linking.ServicesLinked.leaves (h : ServicesLinked final i p first services)
    (hplaced : ∀ k s, services[k]? = some s → schema.services[first + k]? = some s)
    {k : Nat} (hs : services[k]? = some s) :
    ∃ last ∈ services, ReflTransGen (fun s t => schema.baseOf s = some t) s last ∧
      ∀ j, last.base = some j → j < first := by
  have hlength := h.length_eq
  have hk : k < p.document.services.length := by
    rw [← hlength]
    exact (List.getElem?_eq_some_iff.1 hs).1
  have hacyclic : ∀ i, ¬ TransGen (Trail.Leads (Linking.baseWithin first
      (services.map (·.base)))) i i := by
    rw [Linking.leads_eq_extends h.within]
    exact h.acyclic
  obtain ⟨last, hreach, hend⟩ := (Linking.trail_walked h.within hk).ends hacyclic
  have hsteps : ∃ t, services[last]? = some t ∧
      ReflTransGen (fun s t => schema.baseOf s = some t) s t := by
    clear hend
    induction hreach with
    | refl => exact ⟨s, hs, .refl⟩
    | @tail l m _ hlm ih =>
      obtain ⟨t, ht, hst⟩ := ih
      have hbase := Linking.baseWithin_eq_some_iff.1 hlm
      rw [List.getElem?_map, ht, Option.map_some] at hbase
      have hm : m < services.length := by
        rw [hlength]
        exact ((h.within l m).1 hlm).lt_length.2
      have hu := List.getElem?_eq_getElem hm
      refine ⟨_, hu, hst.tail ?_⟩
      unfold Schema.baseOf
      rw [Option.some.inj hbase, Option.bind_some]
      exact hplaced m _ hu
  obtain ⟨t, ht, hst⟩ := hsteps
  refine ⟨t, List.mem_of_getElem? ht, hst, ?_⟩
  intro j hj
  by_contra hle
  obtain ⟨d, rfl⟩ := Nat.exists_eq_add_of_le (Nat.le_of_not_lt hle)
  have hsome : Linking.baseWithin first (services.map (·.base)) last = some d := by
    rw [Linking.baseWithin_eq_some_iff, List.getElem?_map, ht, Option.map_some, hj]
  rw [hend] at hsome
  cases hsome

theorem getElem?_of_id (h : services.map (·.id) = List.range' first services.length)
    (hs : services[n]? = some s) : s.id = first + n := by
  have hid := congrArg (·[n]?) h
  have hn := (List.getElem?_eq_some_iff.1 hs).1
  rw [List.getElem?_map, hs, Option.map_some, List.getElem?_range' hn, Nat.one_mul] at hid
  exact Option.some.inj hid

theorem Linking.ServicesLinked.own_ids (h : ServicesLinked final i p first services) :
    services.map (·.id) = List.range' first services.length := by
  rw [h.ids, h.length_eq]

/-- The ids of a file's services are their places among all. -/
theorem getElem?_placed {part : SchemaPart} {k : Nat}
    (hids : (parts.flatMap SchemaPart.services).map (·.id) =
      List.range' 0 (parts.flatMap SchemaPart.services).length)
    (hown : part.services.map (·.id) = List.range' first part.services.length)
    (hpart : part ∈ parts) (hs : part.services[k]? = some s) :
    (parts.flatMap SchemaPart.services)[first + k]? = some s := by
  have hm : s ∈ parts.flatMap SchemaPart.services :=
    List.mem_flatMap.2 ⟨part, hpart, List.mem_of_getElem? hs⟩
  obtain ⟨place, hplace⟩ := List.mem_iff_getElem?.1 hm
  have hid := getElem?_of_id hids hplace
  rw [getElem?_of_id hown hs, Nat.zero_add] at hid
  rw [hid]
  exact hplace

theorem LoadLinked.ends (h : LoadLinked space roots loaded parts final)
    (hcount : loaded.serviceCount = (parts.flatMap SchemaPart.services).length)
    (hs : (parts.flatMap SchemaPart.services)[n]? = some s) :
    ∃ top ∈ parts.flatMap SchemaPart.services,
      ReflTransGen (fun s t => (Schema.ofParts final.types parts).baseOf s = some t) s top ∧
        top.base = none := by
  obtain ⟨hi, hparts, hids⟩ := h.services_linked
  rw [List.range_eq_range'] at hids
  induction n using Nat.strong_induction_on generalizing s with
  | _ n ih =>
    have hm := List.mem_of_getElem? hs
    obtain ⟨part, hpart, hsm⟩ := List.mem_flatMap.1 hm
    obtain ⟨i, him, hl⟩ := forall₂_mem_right hparts hpart
    obtain ⟨first, hlinked⟩ := hl _ (List.getElem?_eq_getElem (h.found.ordered.lt_length him))
    have hown := hlinked.own_ids
    have hplaced : ∀ k t, part.services[k]? = some t →
        (Schema.ofParts final.types parts).services[first + k]? = some t :=
      fun k t ht => getElem?_placed hids hown hpart ht
    obtain ⟨k, hk⟩ := List.mem_iff_getElem?.1 hsm
    obtain ⟨last, hlm, hreach, hsmaller⟩ := hlinked.leaves hplaced hk
    have hkept : List.Forall₂ (fun decl => BaseKept loaded (.ofParts final.types parts)
        ⟨i, _, decl⟩) _ part.services := hlinked.basesKept hi hcount
    have hfirst : first ≤ n := by
      have hid := getElem?_of_id hown hk
      rw [getElem?_of_id hids hs, Nat.zero_add] at hid
      rw [hid]
      exact Nat.le_add_right first k
    cases hb : last.base with
    | none =>
      exact ⟨last, List.mem_flatMap.2 ⟨part, hpart, hlm⟩, hreach, hb⟩
    | some j =>
      obtain ⟨decl, -, hkept⟩ := forall₂_mem_right hkept hlm
      obtain ⟨-, hnone⟩ | ⟨name, j', t, -, -, hj, ht⟩ := hkept
      · rw [hb] at hnone
        cases hnone
      · obtain rfl : j = j' := Option.some.inj (hb.symm.trans hj)
        have hlt : j < n := Nat.lt_of_lt_of_le (hsmaller j hb) hfirst
        obtain ⟨top, htop, hrest, hbase⟩ := ih j hlt ht
        refine ⟨top, htop, hreach.trans (.head ?_ hrest), hbase⟩
        unfold Schema.baseOf
        rw [hb, Option.bind_some]
        exact ht

/-- Linking refuses inheritance that goes round in one file, and names the first circle. In a schema
every service has the base that is written, if there is one, and inheritance comes to an end. -/
theorem services_well_founded (h : loadPrograms space roots = .ok loaded) :
    (∀ program p first st, AtServices loaded program p first st → BasesResolve loaded program p →
      ((∃ location names, (exec (linkServices program p first) st).1 =
        .error (.unlinkable location (.circularInheritance names))) ↔
          ∃ i, TransGen (Extends p.document.services) i i) ∧
      ∀ location names, (exec (linkServices program p first) st).1 =
          .error (.unlinkable location (.circularInheritance names)) →
        load space roots = .error (.unlinkable location (.circularInheritance names)) ∧
          ∃ position, location = p.locate position ∧
            ReportsLoop p.document.services position (.circularInheritance names)) ∧
    ∀ schema, load space roots = .ok schema →
      (∀ (i : ServiceId) s, schema.services[i]? = some s → s.id = i) ∧
      List.Forall₂ (fun source s => ServiceKept source s ∧ BaseKept loaded schema source s)
        (loaded.declared Document.services) schema.services ∧
      ∀ s ∈ schema.services, ∃ top ∈ schema.services,
        ReflTransGen (fun s t => schema.baseOf s = some t) s top ∧ top.base = none := by
  have hloaded := loadPrograms_loaded h
  constructor
  · intro program p first st hat hresolve
    have hfound := hat.basesFound hloaded hresolve
    obtain ⟨hready, -⟩ := hat.ready hloaded
    refine ⟨hready.refuses_iff hfound, ?_⟩
    intro location names he
    exact ⟨hat.load_error h he, hready.reports he hfound⟩
  · intro schema hschema
    obtain ⟨loaded', parts, final, hl, hlinked, rfl⟩ := load_linked hschema
    obtain rfl : loaded = loaded' := Except.ok.inj (h.symm.trans hl)
    obtain ⟨hi, hparts, hids⟩ := hlinked.services_linked
    have hkept : List.Forall₂ ServiceKept (loaded.declared Document.services)
        (parts.flatMap SchemaPart.services) :=
      hlinked.aligned fun i p part _ hpart => hpart.services_kept
    have hcount : loaded.serviceCount = (parts.flatMap SchemaPart.services).length :=
      hkept.length_eq
    have hbases : List.Forall₂ (BaseKept loaded (.ofParts final.types parts))
        (loaded.declared Document.services) (parts.flatMap SchemaPart.services) := by
      apply hloaded.aligned
      refine hparts.imp fun i part hl p hp => ?_
      obtain ⟨first, hservices⟩ := hl p hp
      exact hservices.basesKept hi hcount
    refine ⟨?_, ?_, ?_⟩
    · intro i s hs
      rw [List.range_eq_range'] at hids
      rw [getElem?_of_id hids hs, Nat.zero_add]
    · exact forall₂_and hkept hbases
    · intro s hs
      obtain ⟨n, hn⟩ := List.mem_iff_getElem?.1 hs
      exact hlinked.ends hcount hn

end Linked

def heirs : SearchSpace :=
  ⟨⟨[(⟨true, ["heirs.thrift"]⟩, "include \"base.thrift\" service First extends Second \x7b\x7d " ++
        "service Second extends base.Root \x7b\x7d"),
    (⟨true, ["base.thrift"]⟩, "service Root \x7b\x7d")], []⟩, []⟩

def ring : SearchSpace :=
  ⟨⟨[(⟨true, ["ring.thrift"]⟩, "service Top extends A \x7b\x7d service A extends B \x7b\x7d " ++
        "service B extends A \x7b\x7d")], []⟩, []⟩

def ringProgram : Program :=
  .ofDocument ⟨true, ["ring.thrift"]⟩ ⟨"/ring.thrift",
    [.service ⟨⟨1, 1⟩, "", "Top", some "A", []⟩, .service ⟨⟨1, 26⟩, "", "A", some "B", []⟩,
      .service ⟨⟨1, 49⟩, "", "B", some "A", []⟩]⟩

theorem ring_loads : loadPrograms ring ["/ring.thrift"] = .ok ⟨[ringProgram], [0]⟩ := by
  cbv

theorem ring_atServices :
    AtServices ⟨[ringProgram], [0]⟩ 0 ringProgram 0 (.ofPrograms [ringProgram]) :=
  ⟨rfl, [], [], [], _, ([], [], []), rfl, rfl, rfl, by cbv⟩

theorem ring_basesResolve : BasesResolve ⟨[ringProgram], [0]⟩ 0 ringProgram := by
  intro decl hdecl name hname
  have hA : LoadedPrograms.NamesService ⟨[ringProgram], [0]⟩ 0 "A" 1 :=
    .inl ⟨_, rfl, rfl, rfl⟩
  have hB : LoadedPrograms.NamesService ⟨[ringProgram], [0]⟩ 0 "B" 2 :=
    .inl ⟨_, rfl, rfl, rfl⟩
  have hbases : ringProgram.document.services.map (·.base) = [some "A", some "B", some "A"] := rfl
  have hm : some name ∈ [some "A", some "B", some "A"] :=
    hbases ▸ hname ▸ List.mem_map_of_mem hdecl
  obtain rfl | rfl : name = "A" ∨ name = "B" := by
    simpa [or_comm, or_left_comm] using hm
  · exact ⟨1, hA⟩
  · exact ⟨2, hB⟩

theorem ring_extends : TransGen (Extends ringProgram.document.services) 1 1 :=
  .tail (.single ⟨_, _, rfl, rfl, rfl⟩ : TransGen _ 1 2) ⟨_, _, rfl, rfl, rfl⟩

theorem heirs_and_ring_services :
    (∃ schema, load heirs ["/heirs.thrift"] = .ok schema ∧
      schema.services.map (fun s => (s.id, s.name, s.base)) =
        [(0, "Root", none), (1, "First", some 2), (2, "Second", some 0)] ∧
      ∀ s ∈ schema.services, ∃ top ∈ schema.services,
        ReflTransGen (fun s t => schema.baseOf s = some t) s top ∧ top.base = none) ∧
    load ring ["/ring.thrift"] =
      .error (.unlinkable ⟨"/ring.thrift", ⟨1, 26⟩⟩ (.circularInheritance ["A", "B", "A"])) ∧
    ReportsLoop ringProgram.document.services ⟨1, 26⟩ (.circularInheritance ["A", "B", "A"]) := by
  constructor
  · have hbases : (load heirs ["/heirs.thrift"]).map (fun schema =>
        schema.services.map fun s => (s.id, s.name, s.base)) =
          .ok [(0, "Root", none), (1, "First", some 2), (2, "Second", some 0)] := by cbv
    cases h : load heirs ["/heirs.thrift"] with
    | error e =>
      rw [h] at hbases
      cases hbases
    | ok schema =>
      rw [h] at hbases
      obtain ⟨loaded, -, -, hl, -⟩ := load_linked h
      exact ⟨schema, rfl, Except.ok.inj hbases, ((services_well_founded hl).2 schema h).2.2⟩
  · have hrefused : load ring ["/ring.thrift"] =
        .error (.unlinkable ⟨"/ring.thrift", ⟨1, 26⟩⟩ (.circularInheritance ["A", "B", "A"])) := by
      cbv
    obtain ⟨hiff, hreports⟩ :=
      (services_well_founded ring_loads).1 0 ringProgram 0 _ ring_atServices ring_basesResolve
    obtain ⟨location, names, he⟩ := hiff.2 ⟨1, ring_extends⟩
    obtain ⟨hload, position, rfl, hloop⟩ := hreports location names he
    rw [hrefused] at hload
    obtain ⟨hlocation, hfault⟩ := LoadError.unlinkable.inj (Except.error.inj hload)
    obtain rfl := LinkFault.circularInheritance.inj hfault
    have hposition : (⟨1, 26⟩ : Position) = position := congrArg Location.position hlocation
    exact ⟨hrefused, hposition ▸ hloop⟩

end ThriftIdl
