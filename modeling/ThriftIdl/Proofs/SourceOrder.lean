import ThriftIdl.Document.Parse
import ThriftIdl.Proofs.SourcePositions

open scoped List

namespace ThriftIdl

namespace Document

/-- The places in each list of a document. -/
def placeLists (d : Document) : List (List Position) :=
  [d.namespaces.map (·.position), d.includes.map (·.position), d.typedefs.map (·.position),
    d.enums.map (·.position), (d.recordsOf .struct).map (·.position),
    (d.recordsOf .union).map (·.position), (d.recordsOf .exception).map (·.position),
    d.services.map (·.position)] ++
  d.enums.map (·.members.map (·.position)) ++
  d.records.map (·.fields.map (·.position)) ++
  d.services.map (·.functions.map (·.position)) ++
  d.services.flatMap (·.functions.map (·.params.map (·.position))) ++
  d.services.flatMap (·.functions.map (·.throws.map (·.position)))

section Lists

variable {d : Document} {decl : Declaration}

theorem places_filterMap {β : Type} {l : List Declaration} {part : Declaration → Option β}
    {place : β → Position} (h : ∀ decl b, part decl = some b → place b = decl.position) :
    (l.filterMap part).map place <+ (l.flatMap Declaration.constructs).map Construct.position := by
  induction l with
  | nil => exact .slnil
  | cons decl l ih =>
    have hparts : (l.filterMap part).map place <+ decl.parts.map Construct.position ++
        (l.flatMap Declaration.constructs).map Construct.position :=
      ih.trans (List.sublist_append_right _ _)
    simp only [List.flatMap_cons, Declaration.constructs, List.map_append, List.map_cons,
      List.cons_append]
    cases hb : part decl with
    | none =>
      rw [List.filterMap_cons_none hb]
      exact hparts.cons _
    | some b =>
      rw [List.filterMap_cons_some hb, List.map_cons, h decl b hb]
      exact hparts.cons_cons _

theorem functions_sublist (functions : List FunctionDecl) :
    functions.map Construct.function <+ functions.flatMap FunctionDecl.constructs := by
  induction functions with
  | nil => exact .slnil
  | cons f functions ih =>
    simp only [List.map_cons, List.flatMap_cons, FunctionDecl.constructs, List.cons_append]
    exact (ih.trans (List.sublist_append_right _ _)).cons_cons _

theorem function_sublist {s : ServiceDecl} {f : FunctionDecl} (h : f ∈ s.functions) :
    f.constructs <+ (Declaration.service s).parts :=
  List.sublist_flatten_of_mem (List.mem_map_of_mem h)

theorem constructs_sublist (h : decl ∈ d.declarations) : decl.constructs <+ d.constructs :=
  List.sublist_flatten_of_mem (List.mem_map_of_mem h)

/-- What is listed in a declaration has its places from the constructs in their order. -/
theorem places_parts {β : Type} {items : List β} {place : β → Position} (wrap : β → Construct)
    (hplace : ∀ b, (wrap b).position = place b) (hdecl : decl ∈ d.declarations)
    (hparts : items.map wrap <+ decl.parts) :
    items.map place <+ d.constructs.map Construct.position := by
  have hall := (hparts.trans (List.sublist_cons_self _ _)).trans (constructs_sublist hdecl)
  have hmap := hall.map Construct.position
  rwa [List.map_map, show Construct.position ∘ wrap = place from funext hplace] at hmap

theorem sublist_of_mem_placeLists {places : List Position} (h : places ∈ d.placeLists) :
    places <+ d.constructs.map Construct.position := by
  simp only [placeLists, List.mem_append, List.mem_cons, List.not_mem_nil, or_false, List.mem_map,
    List.mem_flatMap] at h
  obtain ((((htop | ⟨e, he, rfl⟩) | ⟨r, hr, rfl⟩) | ⟨s, hs, rfl⟩) | ⟨s, hs, f, hf, rfl⟩) |
    ⟨s, hs, f, hf, rfl⟩ := h
  · obtain rfl | rfl | rfl | rfl | rfl | rfl | rfl | rfl := htop <;>
      exact places_filterMap fun decl b hb => by cases decl <;> simp_all [Declaration.position]
  · exact places_parts .member (fun _ => rfl) (declared_enum he) (List.Sublist.refl _)
  · exact places_parts .field (fun _ => rfl) (declared_record hr) (List.Sublist.refl _)
  · exact places_parts .function (fun _ => rfl) (declared_service hs)
      (functions_sublist _)
  · refine places_parts .field (fun _ => rfl) (declared_service hs) ?_
    exact ((List.sublist_append_left _ _).cons _).trans (function_sublist hf)
  · refine places_parts .field (fun _ => rfl) (declared_service hs) ?_
    exact ((List.sublist_append_right _ _).cons _).trans (function_sublist hf)

theorem headers_before (hplaces : d.constructs.Pairwise fun x y => x.position.Before y.position)
    (hfalling : Falling (d.declarations.map (·.isHeader))) {early late : Declaration}
    (hearly : early ∈ d.declarations) (hlate : late ∈ d.declarations)
    (hheader : early.isHeader = true) (hother : late.isHeader = false) :
    ∀ x ∈ late.constructs, early.position.Before x.position := by
  obtain ⟨before, behind, hsplit⟩ := List.append_of_mem hlate
  rw [hsplit, List.mem_append, List.mem_cons] at hearly
  rw [hsplit, List.map_append, List.map_cons] at hfalling
  obtain hearly | rfl | hearly := hearly
  · intro x hx
    rw [constructs, List.pairwise_flatMap, hsplit] at hplaces
    exact (List.pairwise_append.1 hplaces.2).2.2 early hearly late List.mem_cons_self
      (.declaration early) List.mem_cons_self x hx
  · simp [hheader] at hother
  · have hfall := (List.pairwise_cons.1 (List.pairwise_append.1 hfalling).2.1).1
    simp [hfall _ (List.mem_map_of_mem hearly) hheader] at hother

end Lists

/-- Reading a text meets the constructs of its document, or ends where it fails. -/
theorem gives_parse_walked (file text : String) : Gives (parse file text)
    (fun d => d.file = file ∧ (∃ c, (Cursor.ofText text).Meets d.constructs c) ∧
      Falling (d.declarations.map (·.isHeader))) (Cursor.ofText text).Faults := by
  refine gives_parse (P := fun found => (∃ c, (Cursor.ofText text).Meets
    (found.flatMap Declaration.constructs) c) ∧ Falling (found.map (·.isHeader))) ?_
  exact Reader.Ends.imp Reader.walks_declarations (fun _ c h => ⟨⟨c, h.2.1⟩, h.2.2⟩) fun _ he => he

end Document

theorem Document.parse_places (file text : String) (d : Document)
    (h : Document.parse file text = .ok d) :
    (∀ x ∈ d.constructs, ∃ before rest, text.toList = before ++ rest ∧
      d.locate x.position = ⟨file, .behind before⟩ ∧ x.Opens rest) ∧
    (∀ places ∈ d.placeLists, places.Pairwise Position.Before) ∧
    (∀ early ∈ d.declarations, early.isHeader = true → ∀ late ∈ d.declarations,
      late.isHeader = false → ∀ x ∈ late.constructs, early.position.Before x.position) ∧
    d.declarationCount = d.typedefs.length + d.enums.length + (d.recordsOf .struct).length +
      (d.recordsOf .union).length + (d.recordsOf .exception).length + d.services.length := by
  obtain ⟨rfl, ⟨c, hmeets⟩, hfalling⟩ := (Document.gives_parse_walked file text).of_ok h
  obtain ⟨hplaced, hordered⟩ := hmeets.placed (Cursor.at_start text.toList)
  refine ⟨fun x hx => ?_, fun places hplaces => ?_, ?_, d.declarationCount_eq⟩
  · obtain ⟨before, rest, htext, hplace, hopens⟩ := hplaced x hx
    exact ⟨before, rest, htext, by rw [hplace]; rfl, hopens⟩
  · have hall := List.pairwise_map.2 hordered
    exact hall.sublist (Document.sublist_of_mem_placeLists hplaces)
  · intro early hearly hheader late hlate hother
    exact Document.headers_before hordered hfalling hearly hlate hheader hother

/-- A header, a record with qualified fields and a service that inherits, over several lines. -/
def spreadText : String :=
  "include 'a' /* b */ struct S \x7b 1: required\n i8 a // c\n" ++
    "  list<T> b \x7d\nservice U extends V \x7b void f (1: S s) throws (E e), oneway void g() \x7d"

theorem spreadText_places : ∃ d, Document.parse "t.thrift" spreadText = .ok d ∧
    d.constructs.map Construct.position =
      [⟨1, 1⟩, ⟨1, 21⟩, ⟨1, 32⟩, ⟨3, 3⟩, ⟨4, 1⟩, ⟨4, 23⟩, ⟨4, 31⟩, ⟨4, 47⟩, ⟨4, 53⟩] ∧
    (∀ x ∈ d.constructs, ∃ before rest, spreadText.toList = before ++ rest ∧
      d.locate x.position = ⟨"t.thrift", .behind before⟩ ∧ x.Opens rest) ∧
    (∀ places ∈ d.placeLists, places.Pairwise Position.Before) ∧
    (∀ early ∈ d.declarations, early.isHeader = true → ∀ late ∈ d.declarations,
      late.isHeader = false → ∀ x ∈ late.constructs, early.position.Before x.position) ∧
    d.declarationCount = d.typedefs.length + d.enums.length + (d.recordsOf .struct).length +
      (d.recordsOf .union).length + (d.recordsOf .exception).length + d.services.length := by
  have hplaces : (Document.parse "t.thrift" spreadText).map
      (·.constructs.map Construct.position) =
      .ok [⟨1, 1⟩, ⟨1, 21⟩, ⟨1, 32⟩, ⟨3, 3⟩, ⟨4, 1⟩, ⟨4, 23⟩, ⟨4, 31⟩, ⟨4, 47⟩, ⟨4, 53⟩] := by cbv
  cases h : Document.parse "t.thrift" spreadText with
  | error e =>
    rw [h] at hplaces
    cases hplaces
  | ok d =>
    rw [h] at hplaces
    exact ⟨d, rfl, Except.ok.inj hplaces, Document.parse_places _ _ d h⟩

end ThriftIdl
