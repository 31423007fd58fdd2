import ThriftIdl.Proofs.FieldNumbers

namespace ThriftIdl.Reader

open ThriftIdl.Numbering (ClashesAt following numbersAfter)

/-- A member as it is written. Its own value is not known yet where none is written. -/
def plainMember (doc : String) : Reader EnumMemberDecl := do
  let start ← position
  let name ← identifier false
  let written ← writtenValue
  let following ← trailing true
  return ⟨start, joinDocumentation doc following, name, written, written.getD 0⟩

def plainEnum (start : Position) (doc : String) : Reader EnumDecl := do
  let name ← identifier false
  expect '{' (.missingBrace "enum" name)
  let members ← plainItems '}' plainMember
  return ⟨start, doc, name, members⟩

def memberFault : Numbering.Fault → SyntaxFault
  | .repeated value => .repeatedEnumValue value
  | .outOfRange => .enumValueOutOfRange

def memberScheme : Numbering.Scheme EnumMemberDecl where
  first := 0
  written m := m.written
  number value m := { m with value }
  place m := m.position
  fault := memberFault

theorem enumMember_eq_read : enumMember = memberScheme.read plainMember := by
  funext doc n
  simp only [enumMember, plainMember, Numbering.Scheme.read, memberScheme, bind_assoc, pure_bind]
  congr! with start name written following
  cases n.assign written with
  | ok out => rfl
  | error fault => cases fault <;> rfl

theorem yields_plainMember (doc : String) : Yields (plainMember doc) fun m =>
    ∀ value ∈ m.written, Numeral.fitsInt32 value = true :=
  yields_bind _ fun _ => yields_bind _ fun _ => yields_writtenValue.bind fun _ hwritten =>
    yields_bind _ fun _ => yields_pure hwritten

theorem yields_plainEnum (start : Position) (doc : String) :
    Yields (plainEnum start doc) fun plain =>
      ∀ m ∈ plain.members, ∀ value ∈ m.written, Numeral.fitsInt32 value = true :=
  yields_bind _ fun _ => yields_bind _ fun _ =>
    (yields_plainItems yields_plainMember '}').bind fun _ hmembers => yields_pure hmembers

section Numbered

variable {start : Position} {doc : String} {c d : Cursor} {plain : EnumDecl}

/-- Past its opening brace, reading an enum is numbering its members. -/
theorem enumDecl_run (h : (plainEnum start doc).run c = .ok (plain, d)) :
    (enumDecl start doc).run c =
      (memberScheme.numberAll (.startingAt 0) plain.members).map
        fun members => ({ plain with members }, d) := by
  obtain ⟨name, c₁, hname, h⟩ := bind_run_ok h
  obtain ⟨_, c₂, hbrace, h⟩ := bind_run_ok h
  obtain ⟨members, c₃, hmembers, h⟩ := bind_run_ok h
  cases h
  unfold enumDecl
  rw [bind_run_of_ok hname, bind_run_of_ok hbrace, StateT.run_bind, enumMember_eq_read,
    itemsUntil_numbered memberScheme '}' _ hmembers]
  cases memberScheme.numberAll (.startingAt 0) members with
  | ok out => rfl
  | error e => rfl

theorem enumDecl_ok_iff (h : (plainEnum start doc).run c = .ok (plain, d)) {found : EnumDecl}
    {e : Cursor} : (enumDecl start doc).run c = .ok (found, e) ↔
      ∃ members, memberScheme.numberAll (.startingAt 0) plain.members = .ok members ∧
        found = { plain with members } ∧ e = d := by
  rw [enumDecl_run h]
  cases memberScheme.numberAll (.startingAt 0) plain.members with
  | ok members => simp [Except.map, eq_comm]
  | error e => simp [Except.map]

theorem enumDecl_error_iff (h : (plainEnum start doc).run c = .ok (plain, d)) {e : SyntaxError} :
    (enumDecl start doc).run c = .error e ↔
      memberScheme.numberAll (.startingAt 0) plain.members = .error e := by
  rw [enumDecl_run h]
  cases memberScheme.numberAll (.startingAt 0) plain.members with
  | ok members => simp [Except.map]
  | error e => simp [Except.map]

theorem map_value_numbered (members : List EnumMemberDecl) :
    (memberScheme.numbered members).map (·.value) =
      numbersAfter 0 [] (members.map (·.written)) :=
  memberScheme.map_numbered (fun _ _ => rfl) members

variable {m : EnumMemberDecl} {i : Nat}

/-- A value that is not written is past all before it, and never negative. -/
theorem numbered_value (h : (memberScheme.numbered plain.members)[i]? = some m) :
    m.value = m.written.getD
      ((((memberScheme.numbered plain.members).take i).map (·.value + 1)).foldl max 0) := by
  have hvalue : m.value = m.written.getD (Numbering.following 0
      (((memberScheme.numbered plain.members).take i).map (·.value))) :=
    memberScheme.numbered_shown (fun _ _ => rfl) (fun _ _ => rfl) h
  rw [Numbering.following_eq_foldl, List.map_map] at hvalue
  exact hvalue

/-- Without a clash the values are different, and all are integers of 32 bits. -/
theorem numbered_values
    (hwritten : ∀ m ∈ plain.members, ∀ value ∈ m.written, Numeral.fitsInt32 value = true)
    (h : ∀ i fault, ¬ ClashesAt 0 [] (plain.members.map (·.written)) i fault) :
    (∀ m ∈ memberScheme.numbered plain.members, Numeral.fitsInt32 m.value = true) ∧
      ((memberScheme.numbered plain.members).map (·.value)).Nodup := by
  rw [map_value_numbered]
  have hall := Numbering.numbers_within (P := fun value => Numeral.fitsInt32 value = true)
    (by decide) (fun _ => Numeral.le_of_fitsInt32) (fun _ => Numeral.fitsInt32_of_nonneg) ?_ h
  · refine ⟨fun m hm => ?_, hall.1⟩
    apply hall.2
    rw [← map_value_numbered]
    exact List.mem_map_of_mem hm
  · intro w hw value hvalue
    obtain ⟨m, hm, rfl⟩ := List.mem_map.1 hw
    exact hwritten m hm value hvalue

/-- The clash of a member that needs a value above the last one. -/
theorem clashesAt_outOfRange_iff {written : List (Option Int)}
    (hwritten : ∀ w ∈ written, ∀ value ∈ w, value ≤ Numeral.maxInt32)
    (hi : written[i]? = some none) : ClashesAt 0 [] written i .outOfRange ↔
      Numeral.maxInt32 < following 0 ((numbersAfter 0 [] written).take i) := by
  rw [← Numbering.last_mem_iff (by decide) hwritten]
  constructor
  · rintro ⟨w, hw, hc⟩
    cases hc with
    | outOfRange hlast => exact hlast
  · intro hlast
    exact ⟨none, hi, .outOfRange hlast⟩

end Numbered

/-- The members of an enum that can be read have the values that their order and their written
values determine, up to the first member without a value of its own. -/
theorem enumDecl_numbered (start : Position) (doc : String) (c d : Cursor) (plain : EnumDecl)
    (h : (plainEnum start doc).run c = .ok (plain, d)) :
    let written := plain.members.map (·.written)
    let clashesAt := ClashesAt 0 [] written
    ((∃ out, (enumDecl start doc).run c = .ok out) ↔ ∀ i fault, ¬ clashesAt i fault) ∧
    (∀ i, written[i]? = some none → (clashesAt i .outOfRange ↔
      Numeral.maxInt32 < following 0 ((numbersAfter 0 [] written).take i))) ∧
    (∀ (found : EnumDecl) e, (enumDecl start doc).run c = .ok (found, e) → e = d ∧
      found = { plain with members := found.members } ∧
      List.Forall₂ (fun p m => m = { p with value := m.value }) plain.members found.members ∧
      (∀ i (m : EnumMemberDecl), found.members[i]? = some m →
        m.value = m.written.getD (((found.members.take i).map (·.value + 1)).foldl max 0)) ∧
      (∀ m ∈ found.members, Numeral.fitsInt32 m.value = true) ∧
      (found.members.map (·.value)).Nodup) ∧
    (∀ e, (enumDecl start doc).run c = .error e ↔ ∃ i, ∃ m : EnumMemberDecl, ∃ fault,
      plain.members[i]? = some m ∧ clashesAt i fault ∧
      (∀ j < i, ∀ fault, ¬ clashesAt j fault) ∧ e = ⟨m.position, memberFault fault⟩) ∧
    ∀ written n, (Numbering.startingAt 0).assignAll written = .ok n →
      ∀ value, n.assign none ≠ .error (.repeated value) := by
  intro written clashesAt
  have hfits := (yields_plainEnum start doc c).of_ok h
  have hcounts := Numbering.counts_startingAt 0
  have hmax : ∀ m ∈ plain.members, ∀ value ∈ m.written, value ≤ Numeral.maxInt32 :=
    fun m hm value hvalue => Numeral.le_of_fitsInt32 (hfits m hm value hvalue)
  refine ⟨?_, fun i hi => ?_, ?_, fun e => ?_, fun written n hn value => ?_⟩
  · refine Iff.trans ?_ (memberScheme.numberAll_ok_iff hcounts (by decide) hmax)
    constructor
    · rintro ⟨⟨found, e⟩, hout⟩
      obtain ⟨members, hall, -⟩ := (enumDecl_ok_iff h).1 hout
      exact ⟨members, hall⟩
    · rintro ⟨members, hall⟩
      exact ⟨_, (enumDecl_ok_iff h).2 ⟨members, hall, rfl, rfl⟩⟩
  · refine clashesAt_outOfRange_iff ?_ hi
    intro w hw value hvalue
    obtain ⟨m, hm, rfl⟩ := List.mem_map.1 hw
    exact hmax m hm value hvalue
  · intro found e hout
    obtain ⟨members, hall, rfl, rfl⟩ := (enumDecl_ok_iff h).1 hout
    obtain ⟨hfree, rfl⟩ := memberScheme.numberAll_ok hcounts (by decide) hmax hall
    obtain ⟨hvalues, hnodup⟩ := numbered_values hfits hfree
    exact ⟨rfl, rfl, memberScheme.numbered_same (fun _ _ => rfl) plain.members,
      fun i m hi => numbered_value hi, hvalues, hnodup⟩
  · rw [enumDecl_error_iff h]
    exact memberScheme.numberAll_error_iff hcounts (by decide) hmax
  · exact Numbering.assign_none_ne_repeated (by decide) hn value

/-- One member is below zero, one is far above the others, and a small value is written last. -/
def grades : Cursor := .ofText "Grade { POOR = -3, FAIR, GOOD = 5, BEST, SPARE = 2 }"

theorem grades_numbered : ∃ plain d found e,
    (plainEnum .start "").run grades = .ok (plain, d) ∧
    plain.members.map (·.written) = [some (-3), none, some 5, none, some 2] ∧
    (enumDecl .start "").run grades = .ok (found, e) ∧ e = d ∧
    found.members.map (·.value) = [-3, 0, 5, 6, 2] ∧ (found.members.map (·.value)).Nodup := by
  have hwritten : ((plainEnum .start "").run grades).map (·.1.members.map (·.written)) =
      .ok [some (-3), none, some 5, none, some 2] := by cbv
  have hvalues : ((enumDecl .start "").run grades).map (·.1.members.map (·.value)) =
      .ok [-3, 0, 5, 6, 2] := by cbv
  cases hplain : (plainEnum .start "").run grades with
  | error e =>
    rw [hplain] at hwritten
    cases hwritten
  | ok out =>
    obtain ⟨plain, d⟩ := out
    cases hfound : (enumDecl .start "").run grades with
    | error e =>
      rw [hfound] at hvalues
      cases hvalues
    | ok out' =>
      obtain ⟨found, e⟩ := out'
      rw [hplain] at hwritten
      rw [hfound] at hvalues
      obtain ⟨-, -, hall, -⟩ := enumDecl_numbered .start "" grades d plain hplain
      obtain ⟨he, -, -, -, -, hnodup⟩ := hall found e hfound
      exact ⟨plain, d, found, e, rfl, Except.ok.inj hwritten, rfl, he, Except.ok.inj hvalues,
        hnodup⟩

end ThriftIdl.Reader
