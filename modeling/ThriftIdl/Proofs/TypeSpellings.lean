import ThriftIdl.Proofs.LexemeMovement
import ThriftIdl.Proofs.SpelledTypes

namespace ThriftIdl

theorem Cursor.Onward.eq_passAll {c d : Cursor} {run : List Char} (h : c.Onward d)
    (hc : c.rest = run ++ d.rest) : d = c.passAll run := by
  obtain ⟨passed, hpassed, rfl⟩ := h
  have hrest := rest_of_isPrefix hpassed
  rw [hc] at hrest
  rw [List.append_cancel_right hrest]

namespace Reader

variable {t : TypeExpr} {written after : List Char} {c : Cursor}

theorem typeExpr_run (ht : t.Readable) (h : Spaced t.tokens written)
    (hafter : (∃ name, t = .named name) → Stops isWordChar after) (hc : c.rest = written ++ after) :
    typeExpr.run c = .ok (t, c.passAll written) := by
  have hreads := reads_spaced ht h hafter c hc
  have hwalks := walks_typeExpr (.refl c)
  cases hrun : typeExpr.run c with
  | error e => exact (hreads.of_error hrun).elim
  | ok out =>
    obtain ⟨t', d⟩ := out
    obtain ⟨hrest, rfl⟩ := hreads.of_ok hrun
    have honward : c.Onward d := (hwalks.of_ok hrun).1
    rw [honward.eq_passAll (hrest.symm ▸ hc)]

/-- A type is read from any of its spellings, whatever blanks and comments stand between its
tokens, and what is read of any text is a type that can be spelled. -/
theorem typeExpr_spellings :
    (∀ (t : TypeExpr) (written after : List Char) (c : Cursor), t.Readable →
      Spaced t.tokens written → ((∃ name, t = .named name) → Stops isWordChar after) →
      c.rest = written ++ after →
      typeExpr.run c = .ok (t, c.passAll written) ∧ (c.passAll written).rest = after ∧
      ∀ text before, Cursor.At text before c →
        Cursor.At text (before ++ written) (c.passAll written) ∧
          (c.passAll written).position = .behind (before ++ written)) ∧
    ∀ (t : TypeExpr) (c d : Cursor), typeExpr.run c = .ok (t, d) → t.Readable := by
  refine ⟨?_, fun t c d h => (yields_typeExpr c).of_ok h⟩
  intro t written after c ht h hafter hc
  refine ⟨typeExpr_run ht h hafter hc, ?_, ?_⟩
  · rw [Cursor.rest_passAll, hc, List.drop_left]
  · intro text before hat
    have hend := hat.passAll (hc ▸ List.prefix_append written after)
    exact ⟨hend, hend.position_eq⟩

/-- A list of words, over two lines and among comments. -/
theorem commentedType_read :
    let written := "\nlist//c\n<i32/***/>".toList
    let type := TypeExpr.list (.named "i32")
    let start := (Cursor.ofText "(\nlist//c\n<i32/***/>i").passAll ['(']
    type.Readable ∧ Spaced type.tokens written ∧ start.rest = written ++ ['i'] ∧
      Cursor.At "(\nlist//c\n<i32/***/>i".toList ['('] start ∧
      typeExpr.run start = .ok (type, start.passAll written) ∧
      (start.passAll written).position = ⟨3, 11⟩ := by
  intro written type start
  have hreadable : type.Readable := by
    refine ⟨by decide, by decide, by decide, by decide⟩
  have hline : Gap ['/', '/', 'c', '\n'] :=
    .comment blank_nil (.line (.inr rfl) (by decide : '\n' ∉ ['c'])) gap_nil
  have hblock : Gap ['/', '*', '*', '*', '/'] :=
    .comment blank_nil (.block (by decide : ¬ ['*', '/'] <:+: ['*'])) gap_nil
  have hbreak : Gap ['\n'] := .blanks (by simp [isBlank])
  have hwritten : written = ['\n'] ++ ("list".toList ++ (['/', '/', 'c', '\n'] ++ ("<".toList ++
      ("i32".toList ++ (['/', '*', '*', '*', '/'] ++ (">".toList ++ [])))))) := by
    simp [written]
  have hspaced : Spaced type.tokens written := by
    rw [hwritten]
    exact .cons hbreak (.cons hline (.token "i32" (.cons hblock .nil)))
  have hstart : start.rest = written ++ ['i'] := by
    rw [Cursor.rest_passAll]
    simp [Cursor.ofText, Cursor.ofList, written]
  have hat : Cursor.At "(\nlist//c\n<i32/***/>i".toList ['('] start := by
    refine ⟨?_, rfl⟩
    rw [hstart]
    simp [written]
  obtain ⟨hrun, -, hplace⟩ := typeExpr_spellings.1 type written ['i'] start hreadable hspaced
    (by simp [type]) hstart
  refine ⟨hreadable, hspaced, hstart, hat, hrun, ?_⟩
  rw [(hplace _ _ hat).2]
  decide

end Reader

end ThriftIdl
