import ThriftIdl.Proofs.CheckedOrder
import ThriftIdl.Proofs.GuardedRuns
import ThriftIdl.Proofs.ScanTraces
import ThriftIdl.Proofs.WellFoundedServices

namespace ThriftIdl

open Relation (ReflTransGen)
open LinkState (GuardedAmong)
open Linking (linkAll linkParts resolve basesIn RunsBy ServicesReady)

/-- Linking goes by guarded steps, and in every state on the way what is referred to is there. -/
structure LoadedPrograms.LinksSafely (loaded : LoadedPrograms) : Prop where
  order : ∀ program ∈ loaded.order, program < loaded.programs.length
  steps : ReflTransGen (GuardedAmong loaded.order) (.ofPrograms loaded.programs)
    (exec (linkAll loaded.order) (.ofPrograms loaded.programs)).2
  sound : ∀ st, ReflTransGen (GuardedAmong loaded.order) (.ofPrograms loaded.programs) st →
    st.Sound ∧ st.programs.length = loaded.programs.length
  resolved : ∀ st, ReflTransGen (GuardedAmong loaded.order) (.ofPrograms loaded.programs) st →
    ∀ program location type id st',
      exec (resolve program location type) st = (.ok (some id), st') → st'.types.Usable id
  bases : ∀ program p first st, AtServices loaded program p first st → ∀ base,
    some base ∈ basesIn (st.defineServices program first p.document.services) program
      p.document.services → base < first + p.document.services.length

/-- What is followed when a schema is written out is there. -/
structure Schema.Closed (s : Schema) : Prop where
  types : ∀ id ∈ s.whole.typeIds ++ s.whole.returnTypes, ∀ part,
    ReflTransGen s.types.MadeOf id part → part < s.types.size ∧ s.types.node part ≠ .placeholder
  ids : s.services.map (·.id) = List.range s.services.length
  bases : ∀ service ∈ s.services, ∀ base, service.base = some base → base < s.services.length

theorem TypeGraph.WellFormed.known_of_reaches {g : TypeGraph} {id part : TypeId}
    (hg : g.WellFormed) (h : g.node id ≠ .placeholder) (hr : ReflTransGen g.MadeOf id part) :
    g.node part ≠ .placeholder := by
  induction hr with
  | refl => exact h
  | tail _ hm ih => exact (hg.usable _ (lt_size_of_node ih) _ hm).1

section Linking

variable {space : SearchSpace} {roots : List String} {loaded : LoadedPrograms}
  {parts : List SchemaPart} {final st : LinkState} {program : ProgramId} {p : Program}
  {first base : ServiceId} {decls : List ServiceDecl}

theorem LinkState.Sound.base_lt (h : st.Sound) (hb : some base ∈ basesIn st program decls) :
    base < st.serviceCount := by
  obtain ⟨decl, -, hbase⟩ := List.mem_map.1 hb
  obtain ⟨name, -, hl⟩ := Option.bind_eq_some_iff.1 hbase
  exact h.lookupService_lt hl

/-- A base is one of the services that are linked together, or an earlier one. -/
theorem Linking.ServicesReady.base_lt (h : ServicesReady st program p first)
    (hb : some base ∈ basesIn (st.defineServices program first p.document.services) program
      p.document.services) : base < first + p.document.services.length := by
  obtain ⟨decl, -, hbase⟩ := List.mem_map.1 hb
  obtain ⟨name, -, hl⟩ := Option.bind_eq_some_iff.1 hbase
  rw [h.lookup, Option.or_eq_some_iff] at hl
  rcases hl with hl | ⟨-, hl⟩
  · obtain ⟨i, own, hown, -, rfl⟩ := (lookup_serviceSymbols h.distinct).1 hl
    exact Nat.add_lt_add_left (List.getElem?_eq_some_iff.1 hown).1 first
  · obtain ⟨inc, hinc, q, hq, name', hs⟩ := includedSymbol_eq_some hl
    exact Nat.lt_add_right _ (h.earlier inc hinc q hq name' _ hs)

theorem Loaded.fresh (h : Loaded space roots loaded) (hp : p ∈ loaded.programs) :
    p.types = [] ∧ p.services = [] := by
  obtain ⟨ids, hd⟩ := h.discovered
  exact hd.registered.fresh p hp

theorem Loaded.sound (h : Loaded space roots loaded) :
    (LinkState.ofPrograms loaded.programs).Sound := by
  obtain ⟨ids, hd⟩ := h.discovered
  refine ⟨h.wellFormed, ?_⟩
  intro p hp
  obtain ⟨htypes, hservices⟩ := h.fresh hp
  obtain ⟨i, hi⟩ := List.mem_iff_getElem?.1 hp
  refine ⟨?_, ?_, ?_, ?_⟩
  · intro inc hinc
    exact hd.includes_lt ⟨p, hi, inc, hinc, rfl⟩
  · rw [htypes]
    exact List.nodup_nil
  · rw [hservices]
    exact List.nodup_nil
  · rw [hservices]
    exact nofun

theorem Loaded.runsBy (h : Loaded space roots loaded) :
    RunsBy (GuardedAmong loaded.order) (.ofPrograms loaded.programs) (linkParts 0 loaded.order)
      fun parts st => st.serviceCount = (parts.flatMap SchemaPart.services).length := by
  have hcount : (LinkState.ofPrograms loaded.programs).serviceCount = 0 := by
    apply List.sum_eq_zero
    intro count hm
    obtain ⟨p, hp, rfl⟩ := List.mem_map.1 hm
    rw [(h.fresh hp).2, List.length_nil]
  refine (Linking.linkParts_guarded h.ordered.nodup h.wellFormed ?_ hcount).imp ?_
  · intro i hi
    have hlt := h.ordered.lt_length hi
    exact ⟨_, List.getElem?_eq_getElem hlt, h.fresh (List.getElem_mem hlt)⟩
  · intro parts st hst
    rw [hst, Nat.zero_add]

theorem Loaded.linksSafely (h : Loaded space roots loaded) : loaded.LinksSafely where
  order _ hm := h.ordered.lt_length hm
  steps := (h.runsBy.bind (S := fun _ _ => True) fun _ _ _ _ =>
    Linking.runsBy_get (Linking.runsBy_pure trivial)).steps
  sound _ hsteps := h.sound.reached hsteps
  resolved _ hsteps _ _ _ _ _ hresolve :=
    Linking.resolve_usable (h.sound.reached hsteps).1.wellFormed hresolve
  bases _ _ _ _ hat _ hbase := (hat.ready h).1.base_lt hbase

theorem LoadLinked.closed (h : LoadLinked space roots loaded parts final) :
    (Schema.ofParts final.types parts).Closed := by
  have hst := h.advances.wellFormed
  obtain ⟨-, hparts, hids⟩ := h.services_linked
  refine ⟨?_, hids, ?_⟩
  · intro id hid part hreach
    have hknown : final.types.node id ≠ .placeholder := by
      rcases List.mem_append.1 hid with hid | hid
      · obtain ⟨part, hm, hid⟩ := Schema.mem_ofParts.1 hid
        obtain ⟨program, p, hp⟩ := h.exists_linked hm
        exact (hp.typeId_usable hst hid).1
      · obtain ⟨part, hm, hid⟩ := Schema.mem_ofParts.2 hid
        obtain ⟨program, p, hp⟩ := h.exists_linked hm
        rcases hp.returnType_usable hst hid with rfl | hu
        · rw [hst.types.node_builtin .void]
          exact nofun
        · exact hu.1
    have hpart := hst.types.known_of_reaches hknown hreach
    exact ⟨TypeGraph.lt_size_of_node hpart, hpart⟩
  · intro service hm base hbase
    obtain ⟨part, hpart, hm⟩ := List.mem_flatMap.1 hm
    obtain ⟨i, hi, hlinked⟩ := forall₂_mem_right hparts hpart
    obtain ⟨first, hservices⟩ := hlinked _ (List.getElem?_eq_getElem (h.found.ordered.lt_length hi))
    have hsome : some base ∈ part.services.map (·.base) := List.mem_map.2 ⟨service, hm, hbase⟩
    rw [hservices.bases] at hsome
    -- Symbols stay sound up to the end, when there are as many of them as services.
    have hsound := (h.found.sound.reached (h.found.runsBy.reaches h.ran)).1
    have hlt := hsound.base_lt hsome
    rwa [h.found.runsBy.result _ _ h.ran] at hlt

end Linking

/-- Whatever is asked of a scanner, and whatever is in a file, nothing is taken that the text does
not have and no line begins behind a place that is on it. No table is asked for what it does not
hold, linking defines a name once and makes types of known ones only, and in a schema no handle leads
astray. -/
theorem load_without_breach (space : SearchSpace) (roots : List String) :
    (∀ text steps, ∀ out ∈ PlaceSession.start.trace text steps,
      out.2.place.lineStart ≤ out.2.place.offset ∧ ∀ o, out.1 ≠ .error (.overrun o)) ∧
    (∀ file text, Scan.parse file text = (Document.parse file text).mapError .refused) ∧
    Checked.loadPrograms space roots = .refusing (loadPrograms space roots) ∧
    (∀ loaded, loadPrograms space roots = .ok loaded → loaded.LinksSafely) ∧
    ∀ schema, load space roots = .ok schema → schema.Closed := by
  refine ⟨?_, Scan.parse_eq, Checked.loadPrograms_eq space roots, ?_, ?_⟩
  · intro text steps
    have hstart : PlaceSession.start.InOrder := ⟨Nat.le_refl 0, nofun⟩
    exact hstart.bounded steps
  · intro loaded hload
    exact (loadPrograms_loaded hload).linksSafely
  · intro schema hload
    obtain ⟨loaded, parts, final, -, hlinked, rfl⟩ := load_linked hload
    exact hlinked.closed

/-- A typedef before the one it is made of, and a service that extends an included one. -/
def pages : SearchSpace :=
  ⟨⟨[(⟨true, ["main.thrift"]⟩, "include \"lib.thrift\" service Pages extends lib.Base \x7b\x7d"),
    (⟨true, ["lib.thrift"]⟩, "typedef list<Id> Ids typedef i64 Id " ++
        "service Base \x7b Ids all() \x7d")], []⟩, []⟩

theorem pages_without_breach : ∃ loaded schema, loadPrograms pages ["/main.thrift"] = .ok loaded ∧
    load pages ["/main.thrift"] = .ok schema ∧ loaded.order = [1, 0] ∧
      schema.services.map (·.base) = [none, some 0] ∧ loaded.LinksSafely ∧ schema.Closed := by
  have horder : (loadPrograms pages ["/main.thrift"]).map (·.order) = .ok [1, 0] := by cbv
  have hbases : (load pages ["/main.thrift"]).map (fun schema => schema.services.map (·.base)) =
      .ok [none, some 0] := by cbv
  obtain ⟨-, -, -, hlinks, hcloses⟩ := load_without_breach pages ["/main.thrift"]
  cases hloaded : loadPrograms pages ["/main.thrift"] with
  | error e =>
    rw [hloaded] at horder
    cases horder
  | ok loaded =>
    cases hschema : load pages ["/main.thrift"] with
    | error e =>
      rw [hschema] at hbases
      cases hbases
    | ok schema =>
      rw [hloaded] at horder
      rw [hschema] at hbases
      exact ⟨loaded, schema, rfl, rfl, Except.ok.inj horder, Except.ok.inj hbases,
        hlinks loaded hloaded, hcloses schema hschema⟩

end ThriftIdl
