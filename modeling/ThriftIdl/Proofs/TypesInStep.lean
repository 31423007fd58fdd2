import ThriftIdl.Proofs.LinkingInStep
import ThriftIdl.Proofs.ServiceRuns

namespace ThriftIdl

open LinkState (InStep)
open TypeExpr (Known)
open TypeGraph (Alike)

namespace LinkState.InStep

variable {st st' t t' : LinkState} {i i' : ProgramId} {name : String} {type : TypeExpr}
  {id id' target target' : TypeId}

theorem known_iff (h : InStep i i' st st') (name : String) :
    Known (st.lookupType i) name ↔ Known (st'.lookupType i') name := by
  have hl := congrArg Option.isSome (h.lookup name)
  rw [Option.isSome_map, Option.isSome_map] at hl
  unfold Known
  rw [hl]

theorem denotes_form (hst : st.WellFormed) (hd : type.Denotes st.types (st.lookupType i) id) :
    type.tree? (fun name => (st.lookupType i name).map st.types.form) =
      some (st.types.form id) := by
  have ht := congrArg (Option.map TypeTree.unplaced) (hd.tree?_eq hst.types)
  rw [TypeExpr.tree?_unplaced] at ht
  simp only [Option.map_map] at ht
  exact ht

theorem denotes_alike (h : InStep i i' st st') (hd : type.Denotes st.types (st.lookupType i) id)
    (hd' : type.Denotes st'.types (st'.lookupType i') id') : st.types.Alike st'.types id id' := by
  have hu := hd.usable h.wellFormed.types fun _ _ hs => h.wellFormed.usable hs
  have hu' := hd'.usable h.wellFormed'.types fun _ _ hs => h.wellFormed'.usable hs
  refine ⟨hu.lt_size, hu'.lt_size, ?_⟩
  have he := denotes_form h.wellFormed hd
  rw [TypeExpr.tree?_congr fun name _ _ => h.lookup name, denotes_form h.wellFormed' hd'] at he
  exact (Option.some.inj he).symm

theorem present (h : InStep i i' st st') : ∃ p p', st.programs[i]? = some p ∧
    st'.programs[i']? = some p' ∧ p'.document = p.document := by
  obtain ⟨p, hp, -⟩ := h.apart
  obtain ⟨p', hp', -⟩ := h.apart'
  have hdoc := h.document
  unfold LinkState.document at hdoc
  rw [hp, hp', Option.map_some, Option.map_some] at hdoc
  exact ⟨p, p', hp, hp', (Option.some.inj hdoc).symm⟩

theorem defineUser (h : InStep i i' st st') (user : String × UserKind) :
    InStep i i' (st.defineUser i user) (st'.defineUser i' user) := by
  have hd := Defines.defineUser h.wellFormed i user
  have hd' := Defines.defineUser h.wellFormed' i' user
  refine h.define hd hd' ?_
  rw [hd.wellFormed.types.form_user (st.types.node_intern _),
    hd'.wellFormed.types.form_user (st'.types.node_intern _)]

theorem defineUsers (h : InStep i i' st st') (users : List (String × UserKind)) :
    InStep i i' (users.foldl (.defineUser i) st) (users.foldl (.defineUser i') st') := by
  induction users generalizing st st' with
  | nil => exact h
  | cons user users ih => exact ih (h.defineUser user)

end LinkState.InStep

section Documents

variable {p p' : Program} (hdoc : p'.document = p.document)

include hdoc

theorem locate_eq : p'.locate = p.locate := by
  funext position
  unfold Program.locate
  rw [hdoc]

theorem namespaces_eq : p'.namespaces = p.namespaces := by
  unfold Program.namespaces
  rw [hdoc]

end Documents

namespace Linking

def ResolvedAlike (g g' : TypeGraph) (r r' : ResolvedTypedef) : Prop :=
  g.Alike g' r.target r'.target ∧ g.Alike g' r.typeId r'.typeId

/-- In both programs the same declaration is still pending, or both have it resolved, to types that
differ in the programs of their parts only. -/
structure EntryAlike (g g' : TypeGraph) (entry entry' : TypedefEntry) : Prop where
  decl : entry'.1 = entry.1
  resolved : Option.Rel (ResolvedAlike g g') entry.2 entry'.2

/-- What two results have in common if they were copied from the same declaration. Handles and ids
may be different. -/
structure FieldAlike (g g' : TypeGraph) (field field' : Field) : Prop where
  copied : field' = { field with typeId := field'.typeId }
  type : g.Alike g' field.typeId field'.typeId

structure EnumAlike (enum enum' : EnumType) : Prop where
  copied : enum' = { enum with typeId := enum'.typeId }

structure TypedefAlike (g g' : TypeGraph) (t t' : Typedef) : Prop where
  copied : t' = { t with target := t'.target, typeId := t'.typeId }
  target : g.Alike g' t.target t'.target
  typeId : g.Alike g' t.typeId t'.typeId

structure RecordAlike (g g' : TypeGraph) (record record' : Record) : Prop where
  copied : record' = { record with typeId := record'.typeId, fields := record'.fields }
  fields : List.Forall₂ (FieldAlike g g') record.fields record'.fields

section Rules

variable {st st' : LinkState} {i i' : ProgramId} {type : TypeExpr} {locate : Position → Location}
  {p p' : Program} {target target' : TypeId} {entry entry' : TypedefEntry}
  {entries entries' : List TypedefEntry}

theorem persists_entry : Persists EntryAlike := by
  rintro g g' h h' ⟨decl, r⟩ ⟨decl', r'⟩ hev hev' ⟨hdecl, hr⟩
  refine ⟨hdecl, ?_⟩
  cases hr with
  | none => exact .none
  | some hr => exact .some ⟨hr.1.evolves hev hev', hr.2.evolves hev hev'⟩

theorem persists_field : Persists FieldAlike := by
  intro g g' h h' field field' hev hev' ha
  exact ⟨ha.copied, ha.type.evolves hev hev'⟩

theorem persists_fields : Persists fun g g' => List.Forall₂ (FieldAlike g g') := by
  intro g g' h h' fields fields' hev hev' ha
  exact ha.imp fun _ _ => persists_field _ _ _ _ _ _ hev hev'

theorem persists_typedef : Persists TypedefAlike := by
  intro g g' h h' t t' hev hev' ha
  exact ⟨ha.copied, ha.target.evolves hev hev', ha.typeId.evolves hev hev'⟩

theorem persists_record : Persists RecordAlike := by
  intro g g' h h' record record' hev hev' ha
  exact ⟨ha.copied, persists_fields _ _ _ _ _ _ hev hev' ha.fields⟩

theorem resolve_follows (h : InStep i i' st st') (location : Location) (type : TypeExpr) :
    Follows i i' (fun g g' => Option.Rel fun id id' =>
        g.Alike g' id id' ∧ g.Usable id ∧ g'.Usable id')
      (resolve i location type) (resolve i' location type) st st' := by
  obtain ⟨g, r, hgrow, hg, hout, he⟩ := resolve_cases h.wellFormed i location type
  obtain ⟨g', r', hgrow', hg', hout', he'⟩ := resolve_cases h.wellFormed' i' location type
  have ht : st.Keeps i { st with types := g } := .setTypes h.wellFormed hg hgrow
  have ht' : st'.Keeps i' { st' with types := g' } := .setTypes h.wellFormed' hg' hgrow'
  have hstep := h.later (ht.later h.wellFormed) (ht'.later h.wellFormed')
  have hev : st.types.Evolves g := ⟨hgrow, h.wellFormed.types, hg⟩
  have hev' : st'.types.Evolves g' := ⟨hgrow', h.wellFormed'.types, hg'⟩
  intro a t hx
  rw [he] at hx
  cases hout with
  | void => simp [Except.mapError] at hx
  | unknown hv hm hn =>
    obtain ⟨rfl, rfl⟩ : none = a ∧ _ = t := by simpa [Except.mapError] using hx
    cases hout' with
    | void hv' => exact absurd hv' hv
    | unknown => exact ⟨none, _, he', hstep, hev, hev', .none⟩
    | known hd' => exact absurd ((h.known_iff _).2 (hd'.known hm)) hn
  | @known id hd =>
    obtain ⟨rfl, rfl⟩ : some id = a ∧ _ = t := by simpa [Except.mapError] using hx
    cases hout' with
    | void hv' => exact absurd hv' hd.void_not_mem
    | unknown hv' hm' hn' => exact absurd ((h.known_iff _).1 (hd.known hm')) hn'
    | known hd' =>
      have hu := hd.usable hg fun _ _ hs => hstep.wellFormed.usable hs
      have hu' := hd'.usable hg' fun _ _ hs => hstep.wellFormed'.usable hs
      exact ⟨_, _, he', hstep, hev, hev', .some ⟨hstep.denotes_alike hd hd', hu, hu'⟩⟩

theorem resolveKnown_follows (h : InStep i i' st st') (location : Location) (type : TypeExpr) :
    Follows i i' Alike (resolveKnown i location type) (resolveKnown i' location type) st st' := by
  apply (resolve_follows h location type).bind
  rintro _ _ t t' hstep - - (hid | -)
  · exact .pure hstep hid.1
  · exact .get .throw

theorem defineTypedef_follows (h : InStep i i' st st') (decl : TypedefDecl)
    (ha : st.types.Alike st'.types target target') (hu : st.types.Usable target)
    (hu' : st'.types.Usable target') :
    Follows i i' EntryAlike
      (do
        let typeId ← intern (.typedef decl.name target i)
        modify (·.defineType i decl.name typeId)
        return (decl, some ⟨target, typeId⟩))
      (do
        let typeId ← intern (.typedef decl.name target' i')
        modify (·.defineType i' decl.name typeId)
        return (decl, some ⟨target', typeId⟩)) st st' := by
  have hn := st.types.node_intern (.typedef decl.name target i)
  have hn' := st'.types.node_intern (.typedef decl.name target' i')
  have hd := LinkState.Defines.declare h.wellFormed
    (by simpa [TypeNode.children] using hu) (.inr ⟨target, hn⟩)
  have hd' := LinkState.Defines.declare h.wellFormed'
    (by simpa [TypeNode.children] using hu') (.inr ⟨target', hn'⟩)
  have hev := hd.evolves h.wellFormed
  have hev' := hd'.evolves h.wellFormed'
  have ha' := ha.evolves hev hev'
  have hform := hev.after.form_typedef hn
  have hform' := hev'.after.form_typedef hn'
  rw [← ha'.form, ← hform] at hform'
  rintro _ _ ⟨⟩
  refine ⟨_, _, rfl, h.define hd hd' hform'.symm, hev, hev', rfl, .some ⟨ha', ?_⟩⟩
  exact ⟨hd.known h.apart, hd'.known h.apart', hform'.symm⟩

theorem tryTypedef_follows (h : InStep i i' st st')
    (ha : EntryAlike st.types st'.types entry entry') :
    Follows i i' EntryAlike (tryTypedef i locate entry) (tryTypedef i' locate entry') st st' := by
  obtain ⟨decl, r⟩ := entry
  obtain ⟨decl', r'⟩ := entry'
  obtain ⟨hdecl, hr⟩ := ha
  obtain rfl : decl' = decl := hdecl
  cases hr with
  | some hr => exact .pure h ⟨rfl, .some hr⟩
  | none =>
    apply (resolve_follows h (locate decl'.position) decl'.target).bind
    rintro _ _ t t' hstep - - (⟨hid, hu, hu'⟩ | -)
    · exact defineTypedef_follows hstep decl' hid hu hu'
    · exact .pure hstep ⟨rfl, .none⟩

theorem pending_alike {g g' : TypeGraph} (ha : List.Forall₂ (EntryAlike g g') entries entries') :
    pending entries' = pending entries := by
  unfold pending
  induction ha with
  | nil => rfl
  | @cons entry entry' _ _ hr _ ih =>
    obtain ⟨decl, r⟩ := entry
    obtain ⟨decl', r'⟩ := entry'
    obtain ⟨hdecl, hr⟩ := hr
    obtain rfl : decl' = decl := hdecl
    rw [List.filterMap_cons, List.filterMap_cons, ih]
    cases hr <;> rfl

theorem typedefRounds_follows (h : InStep i i' st st')
    (ha : List.Forall₂ (EntryAlike st.types st'.types) entries entries') :
    Follows i i' (fun g g' => List.Forall₂ (EntryAlike g g')) (typedefRounds i locate entries)
      (typedefRounds i' locate entries') st st' := by
  induction hn : (pending entries).length using Nat.strongRecOn
    generalizing entries entries' st st' with
  | ind n ih =>
    have hp := pending_alike ha
    rw [typedefRounds, typedefRounds, hp]
    by_cases hd : pending entries = []
    · rw [if_pos hd, if_pos hd]
      exact .pure h ha
    · rw [if_neg hd, if_neg hd]
      have hround : Follows i i' (fun g g' => List.Forall₂ (EntryAlike g g'))
          (entries.mapM (tryTypedef i locate)) (entries'.mapM (tryTypedef i' locate)) st st' := by
        apply Follows.mapM persists_entry ha h
        intro entry entry' t t' hentry hstep hev hev'
        exact tryTypedef_follows hstep (persists_entry _ _ _ _ _ _ hev hev' hentry)
      apply hround.bind
      intro later later' t t' hstep hev hev' hlater
      rw [pending_alike hlater]
      by_cases hlt : (pending later).length < (pending entries).length
      · rw [if_pos hlt, if_pos hlt]
        exact ih _ (hn ▸ hlt) hstep hlater rfl
      · rw [if_neg hlt, if_neg hlt]
        exact .get .throw

theorem resolved_alike {g g' : TypeGraph} (ha : List.Forall₂ (EntryAlike g g') entries entries') :
    List.Forall₂ (ResolvedAlike g g')
      (entries.filterMap (·.2)) (entries'.filterMap (·.2)) := by
  induction ha with
  | nil => exact .nil
  | @cons entry entry' _ _ hr _ ih =>
    obtain ⟨decl, r⟩ := entry
    obtain ⟨decl', r'⟩ := entry'
    obtain ⟨-, hr⟩ := hr
    cases hr with
    | none => exact ih
    | some hr => exact .cons hr ih

theorem defineUserTypes_follows (h : InStep i i' st st') :
    Follows i i' (fun _ _ _ _ => True) (defineUserTypes i) (defineUserTypes i') st st' := by
  obtain ⟨p, p', hp, hp', hdoc⟩ := h.present
  unfold defineUserTypes
  apply Follows.get
  rw [hp, hp']
  dsimp only
  rw [hdoc]
  cases nameFault? [] (definitions p.document) with
  | some fault => exact .throw
  | none =>
    rintro _ _ ⟨⟩
    obtain ⟨added, hd, -⟩ := LinkState.Defines.defineUsers h.wellFormed (userTypes p.document)
    obtain ⟨added', hd', -⟩ := LinkState.Defines.defineUsers h.wellFormed' (userTypes p.document)
    exact ⟨_, _, rfl, h.defineUsers _, hd.evolves h.wellFormed, hd'.evolves h.wellFormed', trivial⟩

theorem defineTypedefs_follows (h : InStep i i' st st') :
    Follows i i' (fun g g' => List.Forall₂ (ResolvedAlike g g')) (defineTypedefs i)
      (defineTypedefs i') st st' := by
  obtain ⟨p, p', hp, hp', hdoc⟩ := h.present
  unfold defineTypedefs
  apply Follows.get
  rw [hp, hp']
  dsimp only
  rw [hdoc, locate_eq hdoc]
  have hentries : List.Forall₂ (EntryAlike st.types st'.types)
      (p.document.typedefs.map (·, none)) (p.document.typedefs.map (·, none)) := by
    rw [List.forall₂_map_left_iff, List.forall₂_map_right_iff]
    exact List.forall₂_same.2 fun decl _ => ⟨rfl, .none⟩
  apply (typedefRounds_follows h hentries).bind
  rintro entries entries' t t' hstep - - hall
  exact .pure hstep (resolved_alike hall)

theorem zipWith_alike {g g' : TypeGraph} {decls : List TypedefDecl}
    {resolved resolved' : List ResolvedTypedef} (hdoc : p'.document = p.document)
    (h : List.Forall₂ (ResolvedAlike g g') resolved resolved') :
    List.Forall₂ (TypedefAlike g g') (decls.zipWith (linkTypedef p) resolved)
      (decls.zipWith (linkTypedef p') resolved') := by
  induction h generalizing decls with
  | nil =>
    rw [List.zipWith_nil_right, List.zipWith_nil_right]
    exact .nil
  | cons hr _ ih =>
    cases decls with
    | nil => exact .nil
    | cons decl decls =>
      refine .cons ⟨?_, hr.1, hr.2⟩ ih
      unfold linkTypedef
      rw [locate_eq hdoc, namespaces_eq hdoc]

theorem linkEnum_follows (hdoc : p'.document = p.document) (h : InStep i i' st st')
    (decl : EnumDecl) :
    Follows i i' (fun _ _ => EnumAlike) (linkEnum i p decl) (linkEnum i' p' decl) st st' := by
  unfold linkEnum
  rw [locate_eq hdoc, namespaces_eq hdoc]
  rintro _ _ ⟨⟩
  exact ⟨_, _, rfl, h, .refl h.wellFormed.types, .refl h.wellFormed'.types, ⟨rfl⟩⟩

theorem linkField_follows (h : InStep i i' st st') (decl : FieldDecl) :
    Follows i i' FieldAlike (linkField i locate decl) (linkField i' locate decl) st st' := by
  apply (resolveKnown_follows h _ _).bind
  rintro id id' t t' hstep - - hid
  exact .pure hstep ⟨rfl, hid⟩

theorem linkFields_follows (h : InStep i i' st st') (decls : List FieldDecl) :
    Follows i i' (fun g g' => List.Forall₂ (FieldAlike g g')) (linkFields i locate decls)
      (linkFields i' locate decls) st st' := by
  apply Follows.mapM persists_field (List.forall₂_same.2 fun decl _ => rfl) h
  rintro decl _ t t' rfl hstep - -
  exact linkField_follows hstep decl

theorem declaredType_follows (h : InStep i i' st st') (name : String) :
    Follows i i' (fun _ _ _ _ => True) (declaredType i name) (declaredType i' name) st st' :=
  .get (.pure h trivial)

theorem linkRecord_follows (hdoc : p'.document = p.document) (h : InStep i i' st st')
    (decl : RecordDecl) :
    Follows i i' RecordAlike (linkRecord i p decl) (linkRecord i' p' decl) st st' := by
  unfold linkRecord
  rw [locate_eq hdoc, namespaces_eq hdoc]
  apply (declaredType_follows h decl.name).bind
  rintro id id' t t' hstep - - -
  apply (linkFields_follows hstep decl.fields).bind
  rintro fields fields' u u' hstep - - hfields
  exact .pure hstep ⟨rfl, hfields⟩

theorem linkTypes_follows (hdoc : p'.document = p.document) (h : InStep i i' st st') :
    Follows i i' (fun g g' types types' => List.Forall₂ EnumAlike types.1 types'.1 ∧
        List.Forall₂ (TypedefAlike g g') types.2.1 types'.2.1 ∧
        List.Forall₂ (RecordAlike g g') types.2.2 types'.2.2)
      (linkTypes i p) (linkTypes i' p') st st' := by
  unfold linkTypes
  rw [hdoc]
  apply (defineUserTypes_follows h).bind
  rintro _ _ t t' hstep - - -
  apply (defineTypedefs_follows hstep).bind
  rintro resolved resolved' u u' hstep - - hresolved
  have henums : Follows i i' (fun _ _ => List.Forall₂ EnumAlike)
      (p.document.enums.mapM (linkEnum i p)) (p.document.enums.mapM (linkEnum i' p')) u u' := by
    apply Follows.mapM (fun _ _ _ _ _ _ _ _ ha => ha) (List.forall₂_same.2 fun decl _ => rfl) hstep
    rintro decl _ t t' rfl hstep - -
    exact linkEnum_follows hdoc hstep decl
  apply henums.bind
  rintro enums enums' v v' hstep hev hev' henums
  have hrecords : Follows i i' (fun g g' => List.Forall₂ (RecordAlike g g'))
      (p.document.records.mapM (linkRecord i p)) (p.document.records.mapM (linkRecord i' p'))
      v v' := by
    apply Follows.mapM persists_record (List.forall₂_same.2 fun decl _ => rfl) hstep
    rintro decl _ t t' rfl hstep - -
    exact linkRecord_follows hdoc hstep decl
  apply hrecords.bind
  rintro records records' w w' hstep hew hew' hrecords
  refine .pure hstep ⟨henums, ?_, hrecords⟩
  exact (zipWith_alike hdoc hresolved).imp fun _ _ =>
    persists_typedef _ _ _ _ _ _ (hev.trans hew) (hev'.trans hew')

end Rules

end Linking

end ThriftIdl
