import Mathlib
import ThriftIdl.Proofs.Numberings
import ThriftIdl.Proofs.ReadableDocuments

namespace ThriftIdl

namespace Reader

open ThriftIdl.Numbering (ClashesAt numbersAfter)

/-- A field as it is written. Its own id is not known yet where none is written. -/
def plainField (doc : String) : Reader FieldDecl := do
  let start ← position
  let written ← writtenId start
  let (requiredness, type) ← fieldType
  let name ← identifier false
  noDefault
  let following ← trailing true
  return ⟨start, joinDocumentation doc following, written, written.getD 0, requiredness, type, name⟩

def plainFields (close : Char) : Reader (List FieldDecl) := plainItems close plainField

def fieldFault : Numbering.Fault → SyntaxFault
  | .repeated id => .repeatedFieldId id
  | .outOfRange => .fieldIdOutOfRange

def fieldScheme : Numbering.Scheme FieldDecl where
  first := 1
  written f := f.written
  number id f := { f with id }
  place f := f.position
  fault := fieldFault

theorem field_eq_read (doc : String) (n : Numbering) :
    field doc n = fieldScheme.read plainField doc n := by
  simp only [field, plainField, Numbering.Scheme.read, fieldScheme, bind_assoc, pure_bind]
  congr! with start written out name _ following
  cases n.assign written with
  | ok out => rfl
  | error fault => cases fault <;> rfl

theorem fields_eq (close : Char) :
    fields close = itemsUntil close (fieldScheme.read plainField) (.startingAt 1) := by
  have hfield : field = fieldScheme.read plainField :=
    funext fun doc => funext fun n => field_eq_read doc n
  rw [fields, hfield]

theorem yields_plainField (doc : String) : Yields (plainField doc) fun f =>
    ∀ id ∈ f.written, 1 ≤ id ∧ Numeral.fitsInt32 id = true := by
  refine yields_bind _ fun start c => (ends_writtenId start c).bind fun written d hwritten => ?_
  exact (yields_bind _ fun _ => yields_bind _ fun _ => yields_bind _ fun _ => yields_bind _ fun _ =>
    yields_pure hwritten.1 : Yields _ _) d

theorem yields_plainItems {α : Type} {P : α → Prop} {plain : String → Reader α}
    (hplain : ∀ doc, Yields (plain doc) P) (close : Char) :
    Yields (plainItems close plain) fun items => ∀ item ∈ items, P item := by
  have hitem (doc : String) (s : Unit) : Yields (stateless plain doc s) fun out => P out.1 :=
    (hplain doc).bind fun item hitem => yields_pure hitem
  apply (yields_itemsUntil (R := fun _ item _ => P item) hitem ()).imp
  intro items h
  exact h.forall (I := fun _ => True) trivial fun _ _ _ _ hitem => ⟨trivial, hitem⟩

theorem yields_plainFields (close : Char) : Yields (plainFields close) fun plain =>
    ∀ f ∈ plain, ∀ id ∈ f.written, 1 ≤ id ∧ Numeral.fitsInt32 id = true :=
  yields_plainItems yields_plainField close

section Numbered

variable {plain : List FieldDecl}

/-- Fields with their ids. -/
def numbered (plain : List FieldDecl) : List FieldDecl :=
  List.zipWith fieldScheme.number (numbersAfter 1 [] (plain.map (·.written))) plain

theorem map_id_numbered (plain : List FieldDecl) :
    (numbered plain).map (·.id) = numbersAfter 1 [] (plain.map (·.written)) :=
  fieldScheme.map_numbered (fun _ _ => rfl) plain

theorem numbered_id {i : Nat} {f : FieldDecl} (h : (numbered plain)[i]? = some f) :
    f.id = f.written.getD (1 + (((numbered plain).take i).map (·.id)).foldl max 0) := by
  rw [Int.add_comm]
  exact fieldScheme.numbered_shown (fun _ _ => rfl) (fun _ _ => rfl) h

/-- Without a clash the ids are positive, different and not too great. -/
theorem numbered_ids (hwritten : ∀ f ∈ plain, ∀ id ∈ f.written, 1 ≤ id ∧ Numeral.fitsInt32 id = true)
    (h : ∀ i fault, ¬ ClashesAt 1 [] (plain.map (·.written)) i fault) :
    (∀ f ∈ numbered plain, 0 < f.id ∧ Numeral.fitsInt32 f.id = true) ∧
      ((numbered plain).map (·.id)).Nodup := by
  rw [map_id_numbered]
  have hall := Numbering.numbers_within (P := fun id => 1 ≤ id ∧ Numeral.fitsInt32 id = true)
    (by decide) (fun id hid => Numeral.le_of_fitsInt32 hid.2)
    (fun id hpos hmax => ⟨hpos, Numeral.fitsInt32_of_nonneg (by omega) hmax⟩) ?_ h
  · refine ⟨fun f hf => ?_, hall.1⟩
    apply hall.2
    rw [← map_id_numbered]
    exact List.mem_map_of_mem hf
  · rintro _ hw number hnumber
    obtain ⟨f, hf, rfl⟩ := List.mem_map.1 hw
    exact hwritten f hf number hnumber

end Numbered

/-- The fields of a list that can be read have the ids that their order and their written ids
determine, up to the first field without an id of its own. -/
theorem fields_numbered (close : Char) (c d : Cursor) (plain : List FieldDecl)
    (h : (plainFields close).run c = .ok (plain, d)) :
    let clashesAt := ClashesAt 1 [] (plain.map (·.written))
    ((∃ out, (fields close).run c = .ok out) ↔ ∀ i fault, ¬ clashesAt i fault) ∧
    (∀ (found : List FieldDecl) e, (fields close).run c = .ok (found, e) → e = d ∧
      List.Forall₂ (fun p f => f = { p with id := f.id }) plain found ∧
      (∀ i (f : FieldDecl), found[i]? = some f →
        f.id = f.written.getD (1 + ((found.take i).map (·.id)).foldl max 0)) ∧
      (∀ f ∈ found, 0 < f.id ∧ Numeral.fitsInt32 f.id = true) ∧ (found.map (·.id)).Nodup) ∧
    (∀ e, (fields close).run c = .error e ↔ ∃ i, ∃ f : FieldDecl, ∃ fault, plain[i]? = some f ∧
      clashesAt i fault ∧ (∀ j < i, ∀ fault, ¬ clashesAt j fault) ∧
      e = ⟨f.position, fieldFault fault⟩) ∧
    ∀ written n, (Numbering.startingAt 1).assignAll written = .ok n →
      ∀ id, n.assign none ≠ .error (.repeated id) := by
  intro clashesAt
  have hwritten := (yields_plainFields close c).of_ok h
  have hcounts := Numbering.counts_startingAt 1
  have hmax : ∀ f ∈ plain, ∀ id ∈ fieldScheme.written f, id ≤ Numeral.maxInt32 :=
    fun f hf id hid => Numeral.le_of_fitsInt32 (hwritten f hf id hid).2
  have hok {found : List FieldDecl} {e : Cursor} :
      (itemsUntil close (fieldScheme.read plainField) (.startingAt 1)).run c = .ok (found, e) ↔
        fieldScheme.numberAll (.startingAt 1) plain = .ok found ∧ e = d :=
    itemsUntil_numbered_ok_iff fieldScheme close _ h
  rw [fields_eq]
  refine ⟨?_, ?_, fun e => ?_, fun written n hn id hc => ?_⟩
  · refine Iff.trans ?_ (fieldScheme.numberAll_ok_iff hcounts (by decide) hmax)
    exact ⟨fun ⟨(found, e), hout⟩ => ⟨found, (hok.1 hout).1⟩,
      fun ⟨found, hfound⟩ => ⟨(found, d), hok.2 ⟨hfound, rfl⟩⟩⟩
  · intro found e hout
    obtain ⟨hfound, rfl⟩ := hok.1 hout
    obtain ⟨hfree, rfl⟩ := fieldScheme.numberAll_ok hcounts (by decide) hmax hfound
    obtain ⟨hids, hnodup⟩ := numbered_ids hwritten hfree
    exact ⟨rfl, fieldScheme.numbered_same (fun _ _ => rfl) plain, fun i f hi => numbered_id hi, hids, hnodup⟩
  · rw [itemsUntil_numbered_error_iff fieldScheme close _ h]
    exact fieldScheme.numberAll_error_iff hcounts (by decide) hmax
  · exact Numbering.assign_none_ne_repeated (by decide) hn id hc

/-- A field without an id comes after one of a great id, and a small id is written last. -/
def mixed : Cursor := .ofText "i32 a, 5: i32 b, i32 c, 2: i32 d )"

theorem mixed_numbered : ∃ plain d found e, (plainFields ')').run mixed = .ok (plain, d) ∧
    plain.map (·.written) = [none, some 5, none, some 2] ∧
    (fields ')').run mixed = .ok (found, e) ∧ e = d ∧ found.map (·.id) = [1, 5, 6, 2] ∧
    (found.map (·.id)).Nodup := by
  have hwritten : ((plainFields ')').run mixed).map (·.1.map (·.written)) =
      .ok [none, some 5, none, some 2] := by cbv
  have hids : ((fields ')').run mixed).map (·.1.map (·.id)) = .ok [1, 5, 6, 2] := by cbv
  cases hplain : (plainFields ')').run mixed with
  | error e =>
    rw [hplain] at hwritten
    cases hwritten
  | ok out =>
    obtain ⟨plain, d⟩ := out
    cases hfields : (fields ')').run mixed with
    | error e =>
      rw [hfields] at hids
      cases hids
    | ok out' =>
      obtain ⟨found, e⟩ := out'
      rw [hplain] at hwritten
      rw [hfields] at hids
      obtain ⟨he, -, -, -, hnodup⟩ := (fields_numbered ')' mixed d plain hplain).2.1 found e hfields
      exact ⟨plain, d, found, e, rfl, Except.ok.inj hwritten, rfl, he, Except.ok.inj hids, hnodup⟩

end Reader

end ThriftIdl
