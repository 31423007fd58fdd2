import Mathlib.Data.List.Basic
import ThriftIdl.Linking.Names

namespace ThriftIdl

/-- The top-level names of a document, kind by kind, each with its place. -/
def Document.declaredNames (d : Document) : List (String × Position) :=
  d.typedefs.map (fun t => (t.name, t.position)) ++
    (d.enums.map (fun e => (e.name, e.position)) ++
      d.records.map (fun r => (r.name, r.position))) ++
    d.services.map (fun s => (s.name, s.position))

/-- Lines are compared before columns. -/
def Position.upTo (p q : Position) : Bool :=
  p.line < q.line || p.line = q.line && p.column ≤ q.column

/-- The top-level names of a document, sorted by their places. -/
def Document.sortedNames (d : Document) : List (String × Position) :=
  d.declaredNames.mergeSort fun x y => x.2.upTo y.2

namespace Linking

theorem nameFault?_eq_none_iff {earlier later : List (String × Position)} :
    nameFault? earlier later = none ↔
      (∀ d ∈ later, Builtin.ofName? d.1 = none ∧ earlier.lookup d.1 = none) ∧
        (later.map Prod.fst).Nodup := by
  induction later generalizing earlier with
  | nil => simp [nameFault?]
  | cons d later ih =>
    obtain ⟨name, position⟩ := d
    rw [nameFault?]
    cases hb : Builtin.ofName? name with
    | some type => simp [hb]
    | none =>
      cases hl : earlier.lookup name with
      | some first =>
        simp only [Option.isSome_none, Bool.false_eq_true, if_false, reduceCtorEq, false_iff]
        rintro ⟨h, _⟩
        simpa [hl] using (h _ List.mem_cons_self).2
      | none =>
        simp only [Option.isSome_none, Bool.false_eq_true, if_false, ih, List.forall_mem_cons, hb,
          hl, List.map_cons, List.nodup_cons, List.lookup_cons]
        constructor
        · rintro ⟨h, hnd⟩
          refine ⟨⟨⟨trivial, trivial⟩, fun d hd => ⟨(h d hd).1, ?_⟩⟩, ?_, hnd⟩
          · have hl := (h d hd).2
            split at hl
            · simp at hl
            · exact hl
          · intro hm
            obtain ⟨d, hd, rfl⟩ := List.mem_map.1 hm
            simpa using (h d hd).2
        · rintro ⟨⟨_, h⟩, hnew, hnd⟩
          refine ⟨fun d hd => ⟨(h d hd).1, ?_⟩, hnd⟩
          have hne : (d.1 == name) = false := by
            rw [beq_eq_false_iff_ne]
            rintro rfl
            exact hnew (List.mem_map_of_mem hd)
          simp only [hne, (h d hd).2]

theorem definitions_names (d : Document) :
    (definitions d).map Prod.fst = d.declarations.filterMap Declaration.name? := by
  unfold definitions
  rw [List.map_filterMap]
  apply List.filterMap_congr
  intro decl _
  cases decl <;> rfl

theorem definitions_cons (file : String) (decl : Declaration) (declarations : List Declaration) :
    definitions ⟨file, decl :: declarations⟩ =
      (decl.name?.map fun name => (name, decl.position)).toList ++
        definitions ⟨file, declarations⟩ := by
  cases decl <;> rfl

theorem definitions_perm_declared (d : Document) : (definitions d).Perm d.declaredNames := by
  rw [List.perm_iff_count]
  obtain ⟨file, declarations⟩ := d
  intro x
  simp only [Document.declaredNames, Document.typedefs, Document.enums, Document.records,
    Document.recordsOf, Document.services, List.map_append, List.count_append]
  induction declarations with
  | nil => rfl
  | cons decl declarations ih =>
    rw [definitions_cons, List.count_append, ih]
    cases decl with
    | scoping _ | inclusion _ => simp [Declaration.name?]
    | typedef _ | enum _ | service _ =>
      simp only [Declaration.name?, Declaration.position, Option.map_some, Option.toList_some,
        List.filterMap_cons, List.map_cons, List.count_cons, List.count_nil]
      omega
    | record decl =>
      cases hk : decl.kind <;>
        simp only [Declaration.name?, Declaration.position, Option.map_some, Option.toList_some,
          List.filterMap_cons, List.map_cons, List.count_cons, List.count_nil, hk, reduceCtorEq,
          if_true, if_false] <;>
        omega

theorem definitions_perm (d : Document) :
    ((definitions d).map Prod.fst).Perm
      (d.typedefs.map (·.name) ++ ((userTypes d).map Prod.fst ++ d.services.map (·.name))) := by
  have h := (definitions_perm_declared d).map Prod.fst
  simpa [Document.declaredNames, userTypes, Function.comp_def] using h

variable {d d' : Document} {decl : TypedefDecl}

theorem typedef_name_mem (h : decl ∈ d.typedefs) :
    ∃ position, (decl.name, position) ∈ definitions d := by
  obtain ⟨outer, hm, ho⟩ := List.mem_filterMap.1 h
  cases outer <;> simp only [reduceCtorEq, Option.some.injEq] at ho
  next inner =>
    subst ho
    exact ⟨_, List.mem_filterMap.2 ⟨_, hm, rfl⟩⟩

section WellNamed

variable (hn : nameFault? [] (definitions d) = none)

include hn

theorem declared_nodup :
    (d.typedefs.map (·.name) ++
      ((userTypes d).map Prod.fst ++ d.services.map (·.name))).Nodup :=
  (definitions_perm d).nodup_iff.1 (nameFault?_eq_none_iff.1 hn).2

theorem typedef_not_builtin (h : decl ∈ d.typedefs) : Builtin.ofName? decl.name = none := by
  obtain ⟨position, hm⟩ := typedef_name_mem h
  exact ((nameFault?_eq_none_iff.1 hn).1 _ hm).1

theorem typedefs_nodup : (d.typedefs.map (·.name)).Nodup :=
  (List.nodup_append.1 (declared_nodup hn)).1

theorem typedef_not_user (h : decl ∈ d.typedefs) : decl.name ∉ (userTypes d).map Prod.fst := by
  intro hu
  have hm : decl.name ∈ (userTypes d).map Prod.fst ++ d.services.map (·.name) :=
    List.mem_append_left _ hu
  exact (List.nodup_append.1 (declared_nodup hn)).2.2 _ (List.mem_map_of_mem h) _ hm rfl

theorem nameFault?_perm (hp : d'.declarations.Perm d.declarations) :
    nameFault? [] (definitions d') = none := by
  have hd : (definitions d').Perm (definitions d) := hp.filterMap _
  obtain ⟨hb, hnd⟩ := nameFault?_eq_none_iff.1 hn
  refine nameFault?_eq_none_iff.2 ⟨fun d hm => hb d (hd.mem_iff.1 hm), ?_⟩
  exact (hd.map Prod.fst).nodup_iff.2 hnd

end WellNamed

end Linking

end ThriftIdl
