import ThriftIdl.Discovery
import ThriftIdl.Proofs.SourceOrder

namespace ThriftIdl

namespace Position

variable {before rest passed text : List Char}

theorem behind_eq_or_before (text passed : List Char) :
    behind (text ++ passed) = behind text ∨ (behind text).Before (behind (text ++ passed)) := by
  by_cases h : passed = []
  · exact .inl (by rw [h, List.append_nil])
  · exact .inr (behind_before h)

/-- There is no further place on a line than the one in front of its line break. -/
theorem behind_ne_past_break {line column : Nat} (hplace : behind before = ⟨line, column⟩)
    (htext : before ++ '\n' :: rest = passed ++ text) :
    behind passed ≠ ⟨line, column + 1⟩ := by
  intro h
  have hnext : behind (before ++ ['\n']) = ⟨line + 1, 1⟩ := by
    rw [behind_snoc, if_pos rfl, hplace]
  rcases List.append_eq_append_iff.1 htext with ⟨more, rfl, hmore⟩ | ⟨more, rfl, -⟩
  · cases more with
    | nil =>
      rw [List.append_nil, hplace] at h
      simp at h
    | cons ch more =>
      obtain ⟨rfl, -⟩ := List.cons.inj hmore
      have hlater := behind_eq_or_before (before ++ ['\n']) more
      rw [List.append_assoc, List.singleton_append, h, hnext] at hlater
      simp [Before] at hlater
  · have hlater := behind_eq_or_before passed more
    rw [hplace, h] at hlater
    simp [Before] at hlater

end Position

/-- Errors of reading are at places of the text, but for an escaped line break. -/
theorem Cursor.Faults.place_iff {text : List Char} {e : SyntaxError}
    (h : (Cursor.ofList text).Faults e) :
    (∃ before rest, text = before ++ rest ∧ e.position = .behind before) ↔
      e.fault ≠ .invalidEscape '\n' := by
  cases h with
  | placed later fault place =>
    obtain ⟨before, hat, -⟩ := (at_start text).onward later
    have hplace := place.trans hat.position_eq
    refine ⟨fun _ hfault => ?_, fun _ => ⟨_, _, hat.text_eq, hplace⟩⟩
    rw [hfault] at fault
    cases fault
  | @escapedBreak d x later rest fault place =>
    obtain ⟨before, hat, -⟩ := (at_start text).onward later
    refine ⟨?_, fun hfault => (hfault fault).elim⟩
    rintro ⟨passed, left, htext, hplace⟩
    have hbreak : ([] ++ before) ++ '\n' :: x = passed ++ left := by
      rw [← rest, ← hat.text_eq, htext]
    have hpast : d.advance.position = ⟨d.position.line, d.position.column + 1⟩ := by
      have hstart := hat.lineStart_le
      simp only [position, advance, Position.mk.injEq, true_and]
      omega
    rw [hpast] at place
    exact (Position.behind_ne_past_break hat.position_eq.symm hbreak (hplace.symm.trans place)).elim

theorem Document.parse_error_place (file text : String) (e : SyntaxError)
    (h : Document.parse file text = .error e) :
    ((∃ before rest, text.toList = before ++ rest ∧ e.position = .behind before) ↔
      e.fault ≠ .invalidEscape '\n') ∧
    ∀ (store : SourceStore) (programs : List Program) (path : Path), path.render = file →
      programs.findIdx? (·.path = path) = none → store.read path.expr = .ok text →
        Discovery.register store programs path = .error (.malformed ⟨file, e.position⟩ e.fault) := by
  refine ⟨((Document.gives_parse_walked file text).of_error h).place_iff, ?_⟩
  rintro store programs path rfl hnew hread
  simp only [Discovery.register, hnew, hread]
  change (Except.mapError _ (parse path.render text) >>= _) = _
  rw [h]
  rfl

def unclosedText : String := "enum E \x7b\n  A = 1,\n  B = 0x // b\n"

theorem unclosedText_place :
    Document.parse "t.thrift" unclosedText = .error ⟨⟨3, 7⟩, .malformedInteger "0x"⟩ ∧
    ∃ before rest, unclosedText.toList = before ++ rest ∧
      (⟨3, 7⟩ : Position) = .behind before := by
  have hparse : Document.parse "t.thrift" unclosedText =
      .error ⟨⟨3, 7⟩, .malformedInteger "0x"⟩ := by cbv
  exact ⟨hparse, (Document.parse_error_place _ _ _ hparse).1.2 (by decide)⟩

/-- A literal with a backslash at the end of a line. -/
def brokenLiteral : String := "include \"a\\\n b\""

/-- The error is one column behind the end of the first line. -/
theorem brokenLiteral_misplaced : ∃ e, Document.parse "t.thrift" brokenLiteral = .error e ∧
    ¬ ∃ before rest, brokenLiteral.toList = before ++ rest ∧ e.position = .behind before := by
  have hparse : Document.parse "t.thrift" brokenLiteral =
      .error ⟨⟨1, 13⟩, .invalidEscape '\n'⟩ := by cbv
  refine ⟨_, hparse, ?_⟩
  rintro ⟨before, rest, htext, hplace⟩
  have hbreak : "include \"a\\".toList ++ '\n' :: " b\"".toList = before ++ rest := htext
  exact Position.behind_ne_past_break (by decide) hbreak hplace.symm

end ThriftIdl
