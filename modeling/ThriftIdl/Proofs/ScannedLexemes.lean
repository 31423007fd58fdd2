import ThriftIdl.Proofs.ScannedComments

namespace ThriftIdl.Scan

variable {α β : Type} {text run x : List Char} {p q : Place} {ch quote : Char}

theorem tracks_peek (acrossComments : Bool) (hp : p.InOrder) :
    Tracks text (peek acrossComments) (Reader.peek acrossComments) p := by
  refine (tracks_skip acrossComments hp).bind fun _ q hq _ => tracks_peek? ?_
  cases (q.cursor text).rest.head? with
  | none => exact tracks_refuse hq _
  | some ch => exact tracks_pure hq ch

theorem tracks_next (hp : p.InOrder) : Tracks text next Reader.read p :=
  (tracks_peek true hp).bind fun ch _ hq _ => tracks_move (tracks_pure (hq.move 1) ch)

theorem tracks_expect (expected : Char) (fault : SyntaxFault) (hp : p.InOrder) :
    Tracks text (expect expected fault) (Reader.expect expected fault) p := by
  refine tracks_position hp ((tracks_next hp).bind fun found q hq _ => ?_)
  split
  · exact tracks_pure hq ()
  · exact tracks_refuseAt hq _ _

section Runs

variable {missing : SyntaxFault} {keep : Char → Bool}

/-- A run that is there lies in the text, so that it may be taken from it. -/
theorem outcome_takenRun (hrun : run <+: (p.cursor text).rest) (hne : run ≠ []) (q : Place) :
    (slice p.offset (p.offset + run.length)).outcome text q = (.ok run, q) := by
  obtain ⟨x, hx⟩ := hrun
  obtain ⟨ch, run, rfl⟩ := List.exists_cons_of_ne_nil hne
  exact outcome_slice (Nat.le_of_lt (Place.offset_lt hx.symm)) ⟨x, hx⟩ q

theorem tracks_takeRun {f : List Char → Scan β} {g : List Char → Reader β}
    (hkeep : keep '\n' = false) (hp : p.InOrder)
    (hf : ∀ run q, q.InOrder → Tracks text (f run) (g run) q) :
    Tracks text (takeRun keep missing >>= f)
      (Reader.takeWhile keep >>= fun run => if run = [] then Reader.fail missing else g run) p := by
  unfold takeRun
  simp only [bind_assoc]
  refine .step (outcome_offset text p) (tracks_passWhile hkeep fun run hrun => ?_)
  refine .step (outcome_offset_move _ text _) ?_
  by_cases hempty : run = []
  · rw [if_pos (by rw [hempty]; rfl), if_pos hempty]
    unfold Tracks
    rw [outcome_bind_of_error (outcome_refuse (hp.move _) missing)]
    exact .refused _ (hp.move _)
  · have hpos := List.length_pos_iff.2 hempty
    rw [if_neg (by omega), if_neg hempty]
    have hprefix : run <+: (p.cursor text).rest := hrun ▸ List.takeWhile_prefix keep
    exact .step (outcome_takenRun hprefix hempty _) (hf run _ (hp.move _))

theorem outcome_identifier (hyphens : Bool) (text : List Char) (p : Place) :
    (loop (whileTurn (identifierAt hyphens p.offset)) ()).outcome text p =
      (.ok (), if (p.cursor text).rest.head?.any Reader.isIdentifierStart then
        p.move ((p.cursor text).rest.takeWhile (Reader.isIdentifierChar hyphens)).length
      else p) := by
  -- The first turn allows fewer characters than those behind it.
  refine (loop_rule (P := fun _ q out => (p.offset < q.offset → out = (.ok (), q.move
      ((q.cursor text).rest.takeWhile (Reader.isIdentifierChar hyphens)).length)) ∧
    (q = p → out = _)) (fun again _ q ih => ⟨fun hlt => ?_, ?_⟩) () p).2 rfl
  · refine outcome_whileTurn_run (if_neg (Nat.ne_of_gt hlt)) fun ch x hx => ?_
    have hlater : p.offset < (q.move 1).offset := Nat.lt_succ_of_lt hlt
    exact Place.rest_move_one hx ▸ (ih () _ (Place.length_rest_move_one hx)).1 hlater
  · rintro rfl
    have hfirst : identifierAt hyphens q.offset q.offset = Reader.isIdentifierStart := if_pos rfl
    rw [outcome_whileTurn, hfirst]
    split
    · next hstart =>
      obtain ⟨ch, hhead, hbegins⟩ := (Option.any_eq_true _ _).1 hstart
      obtain ⟨x, hx⟩ := List.head?_eq_some_iff.1 hhead
      have hchar : Reader.isIdentifierChar hyphens ch = true :=
        Reader.isIdentifierChar_of_isIdentifierStart hbegins
      have hlater : q.offset < (q.move 1).offset := Nat.lt_succ_self _
      rw [(ih () _ (Place.length_rest_move_one hx)).1 hlater, Place.rest_move_one hx, hx,
        List.takeWhile_cons_of_pos hchar, Place.move_cons]
    · rfl

theorem tracks_identifier (hyphens : Bool) (hp : p.InOrder) :
    Tracks text (identifier hyphens) (Reader.identifier hyphens) p := by
  refine (tracks_skip true hp).bind fun _ q hq _ => ?_
  refine .step (outcome_offset text q) (.of_outcome (outcome_identifier hyphens text q) ?_)
  rw [Reader.bind_run_of_ok (a := (q.cursor text).rest.head?) (d := q.cursor text) rfl]
  by_cases hstart : (q.cursor text).rest.head?.any Reader.isIdentifierStart = true
  · obtain ⟨ch, hch, hbegins⟩ := (Option.any_eq_true _ _).1 hstart
    obtain ⟨x, hx⟩ := List.head?_eq_some_iff.1 hch
    have hkeep : Reader.isIdentifierChar hyphens '\n' = false := by cases hyphens <;> rfl
    have hprefix : (q.cursor text).rest.takeWhile (Reader.isIdentifierChar hyphens) <+:
        (q.cursor text).rest := List.takeWhile_prefix _
    have hchar : Reader.isIdentifierChar hyphens ch = true :=
      Reader.isIdentifierChar_of_isIdentifierStart hbegins
    have hne : (q.cursor text).rest.takeWhile (Reader.isIdentifierChar hyphens) ≠ [] := by
      rw [hx, List.takeWhile_cons_of_pos hchar]
      exact List.cons_ne_nil _ _
    have hpos := List.length_pos_iff.2 hne
    rw [if_pos hstart, if_pos hstart, Reader.bind_run_of_ok (Reader.takeWhile_run _ _),
      ← cursor_takeWhile hkeep]
    refine Tracks.step (outcome_offset_move _ text _) ?_
    rw [if_neg (by omega)]
    exact .step (outcome_takenRun hprefix hne _) (tracks_pure (hq.move _) _)
  · rw [if_neg hstart, if_neg hstart]
    refine Tracks.step (outcome_offset text q) ?_
    rw [if_pos rfl]
    exact tracks_refuse hq _

theorem tracks_word (hp : p.InOrder) : Tracks text word Reader.word p :=
  (tracks_skip true hp).bind fun _ q hq _ =>
    tracks_takeRun (by decide) hq fun _ _ hq => tracks_pure hq _

theorem tracks_integer (hp : p.InOrder) : Tracks text integer Reader.integer p := by
  have hblanks : Tracks text (skip false) Reader.skipBlanks p := tracks_skip false hp
  refine hblanks.bind fun _ q hq _ => tracks_position hq ?_
  refine tracks_takeRun (by decide) hq fun run q' hq' => ?_
  cases Numeral.int32? run with
  | none => exact tracks_refuseAt hq' _ _
  | some value => exact tracks_pure hq' value

end Runs

section Literals

theorem tracks_escaped (quote : Char) (hp : p.InOrder) :
    Tracks text (escaped quote) (Reader.escaped quote) p := by
  refine tracks_peek? ?_
  cases (p.cursor text).rest.head? with
  | none => exact tracks_refuse hp _
  | some ch =>
    refine tracks_move ?_
    cases Reader.unescape? quote ch with
    | none => exact tracks_refuse (hp.move 1) _
    | some value => exact tracks_pure (hp.move 1) value

theorem tracks_literalTail (start : Position) (hquote : quote ≠ '\n') (hp : p.InOrder) :
    Tracks text (literalTail start quote) (Reader.literalTail start quote []) p := by
  refine tracks_loop (fun again again' found p hp hagain => tracks_peek? ?_) hp
  cases hnext : (p.cursor text).rest.head? with
  | none => exact tracks_refuseAt hp _ _
  | some ch =>
    obtain ⟨x, hx⟩ := List.head?_eq_some_iff.1 hnext
    dsimp only
    split
    · exact tracks_move (tracks_pure (hp.move 1) _)
    split
    · refine tracks_move ((tracks_escaped quote (hp.move 1)).bind fun value q hq hrun => ?_)
      have honward := ((Reader.walks_escaped hquote (.refl _)).of_ok hrun).1.length_le
      exact hagain _ q hq (Nat.lt_of_le_of_lt honward (Place.length_rest_move_one hx))
    · exact tracks_pass (hagain _ _ (hp.pass ch) (Place.length_rest_pass hx))

theorem tracks_literal (hp : p.InOrder) : Tracks text literal Reader.literal p := by
  refine (tracks_skip true hp).bind fun _ q hq _ => tracks_position hq (tracks_peek? ?_)
  cases hopens : (q.cursor text).rest.head?.filter Reader.isQuote with
  | none => exact tracks_refuse hq _
  | some quote =>
    have hquote : quote ≠ '\n' := by
      rintro rfl
      exact absurd (Option.filter_eq_some_iff.1 hopens).2 (by decide)
    exact tracks_move (tracks_literalTail _ hquote (hq.move 1))

end Literals

theorem tracks_scopeName (hp : p.InOrder) : Tracks text scopeName Reader.scopeName p := by
  refine (tracks_skip true hp).bind fun _ q hq _ => tracks_peek? ?_
  cases (q.cursor text).rest.head? with
  | none => exact tracks_refuse hq _
  | some ch =>
    by_cases hstar : ch = '*'
    · subst hstar
      exact tracks_move (tracks_pure (hq.move 1) "*")
    · simp only
      exact tracks_word hq

end ThriftIdl.Scan
