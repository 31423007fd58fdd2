import ThriftIdl.Proofs.HarvestedComments
import ThriftIdl.Proofs.ScanRules
import ThriftIdl.Proofs.TrailingComments

namespace ThriftIdl

namespace Place

variable {text run x : List Char} {p q : Place} {ch : Char}

/-- Going forward does not lead out of the text. -/
theorem offset_le_of_onward (h : (p.cursor text).Onward (q.cursor text))
    (hp : p.offset ≤ text.length) : q.offset ≤ text.length := by
  obtain ⟨run, hrun, hq⟩ := h
  have hoffset : q.offset = p.offset + run.length :=
    (congrArg Cursor.offset hq).trans (Cursor.offset_passAll _ run)
  have hlength := hrun.length_le
  change run.length ≤ (text.drop p.offset).length at hlength
  rw [List.length_drop] at hlength
  omega

theorem offset_move_le (h : (p.cursor text).rest = ch :: x) : (p.move 1).offset ≤ text.length :=
  offset_lt h

theorem rest_eq_nil (h : ¬ p.offset < text.length) : (p.cursor text).rest = [] :=
  List.drop_eq_nil_of_le (Nat.le_of_not_lt h)

end Place

namespace Scan

open CommentText (beforeClose stripMargin)

variable {α β : Type} {text run x : List Char} {p q : Place} {ch next : Char}

theorem tracks_move_pass {f : Unit → Scan β} {g : Unit → Reader β} (hch : ch ≠ '\n')
    (hf : Tracks text (f ()) (g ()) (p.move 1)) :
    Tracks text (move 1 >>= f) (Reader.pass ch >>= g) p := by
  refine (tracks_move hf).congr ?_
  change (g ()).run ((p.cursor text).pass ch) = (g ()).run (p.cursor text).advance
  rw [Cursor.advance_eq_pass hch]

section Lines

theorem tracks_passBlank (hp : p.InOrder) : Tracks text passBlank (Reader.passIf ' ') p := by
  refine tracks_peek? ?_
  split
  · refine (tracks_advance hp).congr ?_
    exact congrArg (fun c => Except.ok ((), c)) (Cursor.advance_eq_pass (by decide)).symm
  · exact tracks_pure hp ()

theorem tracks_endLine (hp : p.InOrder) (hstops : Reader.Stops (· != '\n') (p.cursor text).rest) :
    Tracks text endLine (Reader.passIf '\n') p := by
  refine .step (outcome_offset text p) (.step (outcome_length text p) ?_)
  split
  · next hlt =>
    obtain ⟨ch, x, hx⟩ := List.exists_cons_of_ne_nil (List.drop_eq_nil_iff.not.2 (Nat.not_le.2 hlt))
    obtain rfl : ch = '\n' := by simpa using hstops ch (congrArg List.head? hx)
    unfold Tracks
    rw [outcome_pass, Reader.passIf_run_head hx, ← Place.cursor_pass]
    exact .found () (hp.pass '\n')
  · next hlt =>
    have hx := Place.rest_eq_nil hlt
    refine (tracks_pure hp ()).congr (Reader.passIf_run_other fun x heq => ?_)
    rw [hx] at heq
    cases heq

theorem tracks_restOfLine (hp : p.InOrder) (hin : p.offset ≤ text.length) :
    Tracks text restOfLine Reader.restOfLine p := by
  refine .step (outcome_offset text p) (tracks_passWhile (by decide) fun run hrun => ?_)
  refine .step (outcome_offset_move _ text _) ?_
  have hprefix : run <+: (p.cursor text).rest := hrun ▸ List.takeWhile_prefix _
  have hstops : Reader.Stops (· != '\n') ((p.move run.length).cursor text).rest := by
    have hsplit := List.takeWhile_append_dropWhile (p := (· != '\n')) (l := (p.cursor text).rest)
    rw [← hrun] at hsplit
    rw [Place.rest_move hsplit.symm]
    exact Reader.stops_dropWhile _ _
  refine (tracks_endLine (hp.move _) hstops).bind fun _ q hq _ => ?_
  unfold Tracks
  rw [outcome_slice hin hprefix]
  exact .found run hq

theorem tracks_lineComment (hp : p.InOrder) (hin : p.offset ≤ text.length) :
    Tracks text lineComment Reader.lineComment p := by
  refine (tracks_passBlank hp).bind fun _ q hq hrun => ?_
  have honward := (Reader.walks_passIf (b := p.cursor text) (c := p.cursor text) ' ').of_ok hrun
  refine (tracks_restOfLine hq (Place.offset_le_of_onward honward.1 hin)).bind fun line q hq _ => ?_
  exact tracks_pure hq _

end Lines

section Blocks

theorem beforeClose_pair (h : ¬ (ch = '*' ∧ next = '/')) (x : List Char) :
    beforeClose (ch :: next :: x) = (beforeClose (next :: x)).map (ch :: ·) := by
  apply CommentText.beforeClose_cons
  rintro y rfl hy
  exact h ⟨rfl, (List.cons.inj hy).1⟩

theorem stripMargin_other (hbreak : ch ≠ '\n') (hreturn : ch ≠ '\r') (hstar : ch ≠ '*')
    (body : List Char) : stripMargin true (ch :: body) =
      if Text.isWhiteSpace ch then stripMargin true body else ch :: stripMargin false body := by
  rw [stripMargin]
  · exact hbreak
  · exact hreturn
  · exact fun _ h _ => hstar h
  · exact hstar

/-- What is passed in one turn, and what it says whatever comes behind it. -/
structure MarginTurn (fresh : Bool) (ch next : Char) (x passed left : List Char) : Prop where
  split : ch :: next :: x = passed ++ left
  unbroken : '\n' ∉ passed
  passed_ne : passed ≠ []
  count : (marginStep fresh ch next).2.2 = passed.length
  beforeClose_eq : beforeClose (ch :: next :: x) = (beforeClose left).map (passed ++ ·)
  text_eq : ∀ body, body <+: left → stripMargin fresh (passed ++ body) =
    (marginStep fresh ch next).1 ++ stripMargin (marginStep fresh ch next).2.1 body

theorem MarginTurn.one {fresh : Bool} (hbreak : ch ≠ '\n') (hclose : ¬ (ch = '*' ∧ next = '/'))
    {added : List Char} {fresh' : Bool} (hstep : marginStep fresh ch next = (added, fresh', 1))
    (htext : ∀ body, body <+: next :: x →
      stripMargin fresh (ch :: body) = added ++ stripMargin fresh' body) :
    MarginTurn fresh ch next x [ch] (next :: x) where
  split := rfl
  unbroken := fun h => hbreak (List.mem_singleton.1 h).symm
  passed_ne := List.cons_ne_nil _ _
  count := by rw [hstep]; rfl
  beforeClose_eq := beforeClose_pair hclose x
  text_eq := by rw [hstep]; exact htext

theorem marginTurn_star_blank (x : List Char) : MarginTurn true '*' ' ' x ['*', ' '] x where
  split := rfl
  unbroken := by decide
  passed_ne := List.cons_ne_nil _ _
  count := rfl
  beforeClose_eq := by
    rw [beforeClose_pair (by decide), CommentText.beforeClose_cons fun y h => absurd h (by decide),
      Option.map_map]
    rfl
  text_eq _ _ := rfl

theorem exists_marginTurn (fresh : Bool) (hbreak : ch ≠ '\n') (hclose : ¬ (ch = '*' ∧ next = '/'))
    (x : List Char) : ∃ passed left, MarginTurn fresh ch next x passed left := by
  by_cases hreturn : ch = '\r'
  · subst hreturn
    exact ⟨_, _, .one hbreak hclose rfl fun body _ => CommentText.stripMargin_return fresh body⟩
  cases fresh with
  | false =>
    have hstep : marginStep false ch next = ([ch], false, 1) := by
      rw [marginStep, if_neg hreturn]
      rfl
    refine ⟨_, _, .one hbreak hclose hstep fun body _ => ?_⟩
    rw [stripMargin]
    · rfl
    · exact hbreak
    · exact hreturn
  | true =>
    by_cases hstar : ch = '*'
    · subst hstar
      by_cases hblank : next = ' '
      · subst hblank
        exact ⟨_, _, marginTurn_star_blank x⟩
      · have hstep : marginStep true '*' next = ([], false, 1) := by
          change (([] : List Char), false, if next = ' ' then 2 else 1) = _
          rw [if_neg hblank]
        refine ⟨_, _, .one hbreak hclose hstep fun body hbody => ?_⟩
        rw [stripMargin]
        · rfl
        · rintro y rfl
          exact hblank (List.cons_prefix_cons.1 hbody).1.symm
    · have hstep : marginStep true ch next =
          if Text.isWhiteSpace ch then ([], true, 1) else ([ch], false, 1) := by
        rw [marginStep, if_neg hreturn, if_neg (by decide), if_neg hstar]
      by_cases hspace : Text.isWhiteSpace ch = true
      · rw [if_pos hspace] at hstep
        refine ⟨_, _, .one hbreak hclose hstep fun body _ => ?_⟩
        rw [stripMargin_other hbreak hreturn hstar, if_pos hspace]
        rfl
      · rw [if_neg hspace] at hstep
        refine ⟨_, _, .one hbreak hclose hstep fun body _ => ?_⟩
        rw [stripMargin_other hbreak hreturn hstar, if_neg hspace]
        rfl

section Turns

variable {start : Position} {again : List Char × Bool → Scan String} {found : List Char}
  {fresh : Bool}

theorem outcome_blockTurn (hx : (p.cursor text).rest = ch :: next :: x) :
    (blockTurn start again (found, fresh)).outcome text p =
      (if ch = '*' ∧ next = '/' then do
        move 2
        return String.ofList (Text.trim Text.isWhiteSpace found)
      else if ch = '\n' then do
        pass ch
        again (found ++ [ch], true)
      else do
        move (marginStep fresh ch next).2.2
        again (found ++ (marginStep fresh ch next).1, (marginStep fresh ch next).2.1) :
          Scan String).outcome text p := by
  have hnext := Place.rest_move_one hx
  have hlt : p.offset + 1 < text.length := Place.offset_lt hnext
  refine (outcome_bind_of_ok (outcome_offset text p)).trans ?_
  refine (outcome_bind_of_ok (outcome_length text p)).trans ?_
  rw [if_pos hlt]
  refine (outcome_bind_of_ok (outcome_charAt (Place.getElem?_of_rest hx))).trans ?_
  exact outcome_bind_of_ok (outcome_charAt (Place.getElem?_of_rest hnext))

theorem outcome_blockTurn_end (hx : (p.cursor text).rest.length < 2) :
    (blockTurn start again (found, fresh)).outcome text p =
      (.error (.refused ⟨start, .unterminatedComment⟩), p) := by
  change (text.drop p.offset).length < 2 at hx
  rw [List.length_drop] at hx
  refine (outcome_bind_of_ok (outcome_offset text p)).trans ?_
  refine (outcome_bind_of_ok (outcome_length text p)).trans ?_
  rw [if_neg (by omega)]
  rfl

end Turns

/-- What comes of a block comment, in which some text has been found already. -/
def blockEnd (start : Position) (c : Cursor) (found : List Char) (fresh : Bool) :
    Option (List Char) → Except SyntaxError (String × Cursor)
  | some body => .ok (String.ofList (Text.trim Text.isWhiteSpace (found ++ stripMargin fresh body)),
      c.passAll (body ++ ['*', '/']))
  | none => .error ⟨start, .unterminatedComment⟩

theorem blockEnd_passed {fresh fresh' : Bool} {passed added : List Char} {body : Option (List Char)}
    (htext : ∀ said, body = some said →
      stripMargin fresh (passed ++ said) = added ++ stripMargin fresh' said)
    (start : Position) (c : Cursor) (found : List Char) :
    blockEnd start c found fresh (body.map (passed ++ ·)) =
      blockEnd start (c.passAll passed) (found ++ added) fresh' body := by
  cases body with
  | none => rfl
  | some said =>
    simp only [Option.map_some, blockEnd]
    rw [htext said rfl, List.append_assoc, List.append_assoc, Cursor.passAll_append]

theorem blockEnd_closed (start : Position) (c : Cursor) (found : List Char) (fresh : Bool)
    (x : List Char) : blockEnd start c found fresh (beforeClose ('*' :: '/' :: x)) =
      .ok (String.ofList (Text.trim Text.isWhiteSpace found), c.passAll ['*', '/']) := by
  rw [beforeClose, blockEnd, stripMargin, List.append_nil]
  rfl

/-- Reading character by character comes to the text of the comment, or to the end of the text. -/
theorem agrees_blockTail (start : Position) (hp : p.InOrder) :
    Agrees text ((blockTail start).outcome text p)
      (blockEnd start (p.cursor text) [] true (beforeClose (p.cursor text).rest)) := by
  refine loop_rule (P := fun s p out => p.InOrder → Agrees text out
    (blockEnd start (p.cursor text) s.1 s.2 (beforeClose (p.cursor text).rest)))
    (fun again s p ih hp => ?_) ([], true) p hp
  obtain ⟨found, fresh⟩ := s
  match hx : (p.cursor text).rest with
  | [] =>
    rw [outcome_blockTurn_end (by rw [hx]; decide)]
    exact .refused _ hp
  | [last] =>
    -- Nothing is read of the last character, which cannot close the comment.
    rw [outcome_blockTurn_end (by rw [hx]; exact Nat.one_lt_two),
      CommentText.beforeClose_cons fun _ _ h => by cases h]
    exact .refused _ hp
  | ch :: next :: x =>
    rw [outcome_blockTurn hx]
    by_cases hclose : ch = '*' ∧ next = '/'
    · obtain ⟨rfl, rfl⟩ := hclose
      have hmark : '\n' ∉ ['*', '/'] := by decide
      rw [if_pos ⟨rfl, rfl⟩, blockEnd_closed, ← Place.cursor_move text hmark]
      exact .found _ (hp.move 2)
    rw [if_neg hclose]
    by_cases hbreak : ch = '\n'
    · subst hbreak
      have htext (said : List Char) (_ : beforeClose (next :: x) = some said) :
          stripMargin fresh (['\n'] ++ said) = ['\n'] ++ stripMargin true said :=
        CommentText.stripMargin_break fresh said
      have hrest := ih (found ++ ['\n'], true) _ (Place.length_rest_pass hx) (hp.pass '\n')
      rw [Place.rest_pass hx, Place.cursor_pass] at hrest
      rw [if_pos rfl, outcome_bind_of_ok (outcome_pass '\n' text p), beforeClose_pair hclose]
      exact (blockEnd_passed htext start (p.cursor text) found).symm ▸ hrest
    · obtain ⟨passed, left, hturn⟩ := exists_marginTurn fresh hbreak hclose x
      have hleft := Place.rest_move (hx.trans hturn.split)
      have hshorter : ((p.move passed.length).cursor text).rest.length <
          (p.cursor text).rest.length := by
        have hpos := List.length_pos_iff.2 hturn.passed_ne
        rw [hleft, hx, hturn.split, List.length_append]
        omega
      rw [if_neg hbreak, hturn.count, hturn.beforeClose_eq, blockEnd_passed,
        ← Place.cursor_move text hturn.unbroken, ← hleft]
      · exact ih (_, _) _ hshorter (hp.move passed.length)
      · intro said hsaid
        obtain ⟨behind, hbehind⟩ := CommentText.eq_append_of_beforeClose hsaid
        exact hturn.text_eq said ⟨_, hbehind.symm⟩

end Blocks

section Comments

theorem comment_run_hash {c : Cursor} (hx : c.rest = '#' :: x) :
    Reader.comment.run c = (Reader.pass '#' >>= fun _ => Reader.lineComment).run c := by
  refine (Reader.bind_run_of_ok (a := c.rest) (d := c) rfl).trans ?_
  rw [hx]
  rfl

theorem comment_run_slashes {c : Cursor} (hx : c.rest = '/' :: '/' :: x) :
    Reader.comment.run c =
      (Reader.pass '/' >>= fun _ => Reader.pass '/' >>= fun _ => Reader.lineComment).run c := by
  refine (Reader.bind_run_of_ok (a := c.rest) (d := c) rfl).trans ?_
  rw [hx]
  rfl

theorem comment_run_block {c : Cursor} (hx : c.rest = '/' :: '*' :: x) :
    Reader.comment.run c =
      blockEnd c.position (c.passAll ['/', '*']) [] true (beforeClose x) := by
  cases hbody : beforeClose x with
  | none => exact Reader.comment_run_open hx hbody
  | some body => exact Reader.comment_run_closed hx hbody

theorem tracks_comment_hash (hp : p.InOrder) (hx : (p.cursor text).rest = '#' :: x) :
    Tracks text comment Reader.comment p := by
  refine .step (outcome_position hp) (.step (outcome_peek? text p) ?_)
  rw [hx]
  refine (tracks_move_pass (by decide) ?_).congr (comment_run_hash hx)
  exact tracks_lineComment (hp.move 1) (Place.offset_move_le hx)

theorem tracks_comment_slash (hp : p.InOrder) (hx : (p.cursor text).rest = '/' :: x) :
    Tracks text comment Reader.comment p := by
  have hrest := Place.rest_move_one hx
  have hnext := outcome_peek? text (p.move 1)
  refine .step (outcome_position hp) (.step (outcome_peek? text p) ?_)
  rw [hx]
  rw [hrest] at hnext
  by_cases hline : x.head? = some '/'
  · obtain ⟨y, rfl⟩ := List.head?_eq_some_iff.1 hline
    refine (tracks_move_pass (by decide) (.step hnext ?_)).congr (comment_run_slashes hx)
    refine tracks_move_pass (by decide) ?_
    exact tracks_lineComment ((hp.move 1).move 1) (Place.offset_move_le hrest)
  refine .of_outcome (outcome_move 1 text p) ?_
  rw [outcome_bind_of_ok hnext]
  by_cases hblock : x.head? = some '*'
  · obtain ⟨y, rfl⟩ := List.head?_eq_some_iff.1 hblock
    have hmark : '\n' ∉ ['/', '*'] := by decide
    have hcursor := Place.cursor_move text hmark p
    have hbehind : ((p.move 2).cursor text).rest = y := Place.rest_move_one hrest
    rw [comment_run_block hx, ← hcursor, ← hbehind]
    exact agrees_blockTail p.position (hp.move 2)
  · have hstops : Reader.Stops (fun ch => ch == '/' || ch == '*') x := by
      intro ch hch
      rw [Bool.eq_false_iff]
      intro hor
      simp only [Bool.or_eq_true, beq_iff_eq] at hor
      obtain rfl | rfl := hor
      · exact hline hch
      · exact hblock hch
    have hmalformed : Reader.Malformed (p.cursor text).rest .strayCommentStart :=
      hx ▸ .stray hstops
    rw [Reader.comment_run_malformed hmalformed]
    simp only
    exact .refused _ (hp.move 1)

theorem tracks_comment (hp : p.InOrder) (hopens : (p.cursor text).rest.head? = some '/' ∨
    (p.cursor text).rest.head? = some '#') : Tracks text comment Reader.comment p := by
  obtain hslash | hhash := hopens
  · obtain ⟨x, hx⟩ := List.head?_eq_some_iff.1 hslash
    exact tracks_comment_slash hp hx
  · obtain ⟨x, hx⟩ := List.head?_eq_some_iff.1 hhash
    exact tracks_comment_hash hp hx

/-- Comments are passed in step, each of them with its beginning at least. -/
theorem comment_shorter {q : Place} {said : String}
    (hrun : Reader.comment.run (p.cursor text) = .ok (said, q.cursor text)) :
    (q.cursor text).rest.length < (p.cursor text).rest.length :=
  ((Reader.walks_comment (.refl (p.cursor text))).of_ok hrun).2.shorter

theorem tracks_skip (acrossComments : Bool) (hp : p.InOrder) :
    Tracks text (skip acrossComments) (Reader.skip acrossComments) p := by
  refine .congr (r := Reader.skipEach acrossComments) ?_ (Reader.skip_run acrossComments _)
  refine tracks_loop (fun again again' _ p hp hagain => tracks_peek? ?_) hp
  cases hnext : (p.cursor text).rest.head? with
  | none => exact tracks_pure hp ()
  | some ch =>
    obtain ⟨x, hx⟩ := List.head?_eq_some_iff.1 hnext
    dsimp only
    split
    · exact tracks_pass (hagain () _ (hp.pass ch) (Place.length_rest_pass hx))
    split
    · next hopens =>
      have hcomment : Tracks text comment Reader.comment p := by
        refine tracks_comment hp ?_
        rw [hnext, Option.some.injEq, Option.some.injEq]
        exact hopens.2
      have hdiscard : (discard Reader.comment >>= fun _ => again' ()) =
          Reader.comment >>= fun _ => again' () := by
        rw [Reader.discard_eq, bind_assoc]
        rfl
      rw [hdiscard]
      exact hcomment.bind fun said q hq hrun => hagain () q hq (comment_shorter hrun)
    · exact tracks_pure hp ()

theorem tracks_comments (hp : p.InOrder) : Tracks text comments Reader.comments p := by
  rw [Reader.comments_eq]
  refine tracks_loop (fun again again' found p hp hagain => ?_) hp
  have hblanks : Tracks text (skip false) Reader.skipBlanks p := tracks_skip false hp
  refine hblanks.bind fun _ q hq hrun => tracks_peek? ?_
  have honward := ((Reader.walks_skip false (.refl (p.cursor text))).of_ok hrun).1
  have hcomment (hopens : (q.cursor text).rest.head? = some '/' ∨
      (q.cursor text).rest.head? = some '#') :
      Tracks text (comment >>= fun said => again (found ++ [said]))
        (Reader.comment >>= fun said => again' (found ++ [said])) q := by
    refine (tracks_comment hq hopens).bind fun said q' hq' hrun' => hagain _ q' hq' ?_
    exact Nat.lt_of_lt_of_le (comment_shorter hrun') honward.length_le
  generalize (q.cursor text).rest.head? = next at hcomment ⊢
  by_cases hslash : next = some '/'
  · subst hslash
    exact hcomment (.inl rfl)
  by_cases hhash : next = some '#'
  · subst hhash
    exact hcomment (.inr rfl)
  · simp only
    exact tracks_pure hq found

theorem tracks_documentation (hp : p.InOrder) :
    Tracks text documentation Reader.documentation p :=
  (tracks_comments hp).bind fun _ _ hq _ => tracks_pure hq _

end Comments

section Trailing

open Reader (lineGap)

theorem outcome_skipSeparator (separator : Bool) (text : List Char) (p : Place) :
    (skipSeparator separator).outcome text p =
      (.ok (), p.move (lineGap separator (p.cursor text).rest).length) := by
  refine loop_rule (P := fun separator p out =>
    out = (.ok (), p.move (lineGap separator (p.cursor text).rest).length))
    (fun again separator p ih => ?_) separator p
  refine (outcome_bind_of_ok (outcome_peek? text p)).trans ?_
  cases hx : (p.cursor text).rest with
  | nil => rfl
  | cons ch x =>
    have hagain (separator : Bool) : (move 1 >>= fun _ => again separator : Scan Unit).outcome
        text p = (.ok (), p.move (ch :: lineGap separator x).length) := by
      rw [Place.move_cons, ← Place.rest_move_one hx]
      refine (outcome_bind_of_ok (outcome_move 1 text p)).trans ?_
      exact ih separator _ (Place.length_rest_move_one hx)
    have hseparator : Layout.isSeparator ch = true ↔ ch = ',' ∨ ch = ';' := by
      simp [Layout.isSeparator]
    rw [List.head?_cons, lineGap]
    dsimp only
    by_cases hgap : Reader.isLineGap ch = true
    · have hother : ¬ (separator = true ∧ (ch = ',' ∨ ch = ';')) := by
        rw [← hseparator, Reader.isSeparator_of_isLineGap hgap]
        exact fun h => Bool.false_ne_true h.2
      rw [if_neg hother, if_pos hgap, if_pos hgap]
      exact hagain separator
    rw [if_neg hgap, if_neg hgap]
    by_cases hsep : separator = true ∧ (ch = ',' ∨ ch = ';')
    · rw [if_pos hsep, if_pos (Bool.and_eq_true .. ▸ ⟨hsep.1, hseparator.2 hsep.2⟩)]
      exact hagain false
    · rw [if_neg hsep, if_neg]
      · rfl
      · rw [Bool.and_eq_true, hseparator]
        exact hsep

theorem tracks_skipSeparator (separator : Bool) (hp : p.InOrder) :
    Tracks text (skipSeparator separator) (Reader.skipSeparator separator) p := by
  have hunbroken : '\n' ∉ lineGap separator (p.cursor text).rest :=
    (Reader.passable_lineGap separator _).unbroken
  unfold Tracks
  rw [outcome_skipSeparator, Reader.skipSeparator_run, ← Place.cursor_move text hunbroken]
  exact .found () (hp.move _)

theorem tracks_trailingLine (hp : p.InOrder) (hin : p.offset ≤ text.length) :
    Tracks text trailingLine Reader.trailingLine p :=
  (tracks_restOfLine hp hin).bind fun _ _ hq _ => tracks_pure hq _

/-- What comes of looking for the close of a comment on its line. -/
def closeEnd (p : Place) (line : List Char) : Option (List Char) → Except ScanStop Nat × Place
  | some body => (.ok (p.offset + body.length), p.move (body.length + 2))
  | none => (.error (.refused ⟨(p.move line.length).position, .trailingCommentLeftOpen⟩),
      p.move line.length)

theorem closeEnd_cons (p : Place) (ch : Char) (line : List Char) (body : Option (List Char)) :
    closeEnd p (ch :: line) (body.map (ch :: ·)) = closeEnd (p.move 1) line body := by
  cases body with
  | none =>
    rw [Option.map_none, closeEnd, closeEnd, Place.move_cons]
  | some body =>
    have hoffset : p.offset + (ch :: body).length = (p.move 1).offset + body.length :=
      congrArg Place.offset (Place.move_cons p ch body)
    rw [Option.map_some, closeEnd, closeEnd, hoffset, ← Place.move_move, Place.move_cons,
      Place.move_move]

theorem outcome_closeOnLine (hp : p.InOrder) : closeOnLine.outcome text p =
    closeEnd p ((p.cursor text).rest.takeWhile (· != '\n'))
      (beforeClose ((p.cursor text).rest.takeWhile (· != '\n'))) := by
  refine loop_rule (P := fun _ p out => p.InOrder → out =
    closeEnd p ((p.cursor text).rest.takeWhile (· != '\n'))
      (beforeClose ((p.cursor text).rest.takeWhile (· != '\n'))))
    (fun again _ p ih hp => ?_) () p hp
  refine (outcome_bind_of_ok (outcome_peek? text p)).trans ?_
  cases hx : (p.cursor text).rest with
  | nil => exact outcome_refuse hp _
  | cons ch x =>
    rw [List.head?_cons, List.takeWhile_cons]
    dsimp only
    by_cases hbreak : ch = '\n'
    · subst hbreak
      exact outcome_refuse hp _
    rw [if_neg hbreak, if_pos (bne_iff_ne.2 hbreak), outcome_bind_of_ok (outcome_peekSecond? hx)]
    by_cases hclose : ch = '*' ∧ x.head? = some '/'
    · obtain ⟨rfl, hslash⟩ := hclose
      obtain ⟨y, rfl⟩ := List.head?_eq_some_iff.1 hslash
      rw [if_pos ⟨rfl, rfl⟩]
      rfl
    · have hopen (y : List Char) (hstar : ch = '*') : x.takeWhile (· != '\n') ≠ '/' :: y := by
        intro heq
        obtain ⟨z, hz⟩ := heq ▸ List.takeWhile_prefix (l := x) (· != '\n')
        exact hclose ⟨hstar, by rw [← hz]; rfl⟩
      rw [if_neg hclose, CommentText.beforeClose_cons hopen, closeEnd_cons,
        ← Place.rest_move_one hx]
      refine (outcome_bind_of_ok (outcome_move 1 text p)).trans ?_
      exact ih () _ (Place.length_rest_move_one hx) (hp.move 1)

theorem endOfLine_run_blank {c : Cursor} (said : String) (hx : c.rest = ch :: x)
    (hch : CommentText.isLineBlank ch = true) :
    (Reader.endOfLine said).run c = (Reader.endOfLine said).run (c.pass ch) := by
  obtain ⟨run, y, rfl, hrun, hstops⟩ := Reader.exists_blank_end x
  have hrest : (c.pass ch).rest = run ++ y := by
    rw [Cursor.rest_pass, hx, List.tail_cons]
  have hall : ∀ c ∈ ch :: run, CommentText.isLineBlank c = true :=
    List.forall_mem_cons.2 ⟨hch, hrun⟩
  rw [Reader.endOfLine_run hall said hx hstops, Reader.endOfLine_run hrun said hrest hstops]
  rfl

theorem outcome_lineEndTurn {again : Unit → Scan Unit} (hx : (p.cursor text).rest = ch :: x) :
    (lineEndTurn again ()).outcome text p =
      (if ch = '\n' then pass ch
      else if CommentText.isLineBlank ch then move 1 >>= fun _ => again ()
      else refuse .textAfterTrailingComment : Scan Unit).outcome text p := by
  refine (outcome_bind_of_ok (outcome_peek? text p)).trans ?_
  rw [hx]
  rfl

theorem outcome_lineEndTurn_last {again : Unit → Scan Unit} (hx : (p.cursor text).rest = []) :
    (lineEndTurn again ()).outcome text p = (.ok (), p) := by
  refine (outcome_bind_of_ok (outcome_peek? text p)).trans ?_
  rw [hx]
  rfl

/-- The rest of the line behind a comment. What the comment says is told at the end of the line. -/
theorem tracks_endOfLine {f : Unit → Scan String} (said : String) (hp : p.InOrder)
    (hf : ∀ q, q.InOrder → Tracks text (f ()) (pure said) q) :
    Tracks text (endOfLine >>= f) (Reader.endOfLine said) p := by
  have hnone : ∀ ch ∈ ([] : List Char), CommentText.isLineBlank ch = true := fun _ h => nomatch h
  -- The loop stands in front of the rest of the scan, so that the rule is about any scan like it.
  refine loop_rule (P := fun _ p out => p.InOrder → ∀ m : Scan Unit, m.outcome text p = out →
    Tracks text (m >>= f) (Reader.endOfLine said) p) (fun again _ p ih hp m hm => ?_) () p hp _ rfl
  unfold Tracks
  cases hx : (p.cursor text).rest with
  | nil =>
    rw [outcome_lineEndTurn_last hx] at hm
    rw [Reader.endOfLine_run_last hnone said hx, outcome_bind_of_ok hm]
    exact hf p hp
  | cons ch x =>
    rw [outcome_lineEndTurn hx] at hm
    by_cases hbreak : ch = '\n'
    · subst hbreak
      rw [if_pos rfl, outcome_pass] at hm
      have hend := hf _ (hp.pass '\n')
      unfold Tracks at hend
      rw [Place.cursor_pass] at hend
      rw [Reader.endOfLine_run_break hnone said hx, outcome_bind_of_ok hm]
      exact hend
    rw [if_neg hbreak] at hm
    by_cases hblank : CommentText.isLineBlank ch = true
    · rw [if_pos hblank, outcome_bind_of_ok (outcome_move 1 text p)] at hm
      have hcursor : (p.move 1).cursor text = (p.cursor text).pass ch :=
        (Place.cursor_move_one text p).trans (Cursor.advance_eq_pass hbreak)
      rw [outcome_bind_congr hm, endOfLine_run_blank said hx hblank, ← hcursor]
      exact ih () _ (Place.length_rest_move_one hx) (hp.move 1) _ rfl
    · rw [if_neg hblank, outcome_refuse hp] at hm
      have hx' : (p.cursor text).rest = [] ++ ch :: x := hx
      rw [outcome_bind_of_error hm, Reader.endOfLine_run_text hnone said hx'
        (Bool.eq_false_iff.2 hblank) hbreak]
      exact .refused _ hp

theorem tracks_trailingBlock (hp : p.InOrder) (hin : p.offset ≤ text.length) :
    Tracks text trailingBlock Reader.trailingBlock p := by
  have hline := List.takeWhile_prefix (l := (p.cursor text).rest) (· != '\n')
  have hclose : closeOnLine.outcome text p = _ := outcome_closeOnLine hp
  obtain ⟨line, ending, after, hrest, hbreak, hend⟩ := Reader.exists_line (p.cursor text).rest
  have htake := Reader.takeWhile_line hbreak hend
  rw [← hrest] at htake
  rw [htake] at hclose hline
  refine .step (outcome_offset text p) ?_
  cases hbody : beforeClose line with
  | none =>
    rw [hbody, closeEnd] at hclose
    unfold Tracks
    rw [outcome_bind_of_error hclose, Reader.trailingBlock_run_open hrest hbreak hend hbody,
      ← Place.cursor_move text hbreak]
    exact .refused _ (hp.move _)
  | some body =>
    obtain ⟨tail, htail⟩ := CommentText.eq_append_of_beforeClose hbody
    have hpassed : body ++ ['*', '/'] <+: line := ⟨tail, by rw [htail]; simp⟩
    have hclosed : '\n' ∉ body ++ ['*', '/'] := fun h => hbreak (hpassed.subset h)
    have hprefix := ((List.prefix_append body _).trans hpassed).trans hline
    rw [hbody, closeEnd] at hclose
    refine .of_outcome hclose ?_
    have hmove := Place.cursor_move text hclosed p
    rw [List.length_append] at hmove
    rw [Reader.trailingBlock_run_closed hrest hbreak hend hbody, ← hmove]
    refine tracks_endOfLine _ (hp.move _) fun q hq => ?_
    refine .step (outcome_slice hin hprefix q) ?_
    exact tracks_pure hq _

theorem tracks_trailing (separator : Bool) (hp : p.InOrder) :
    Tracks text (trailing separator) (Reader.trailing separator) p := by
  refine (tracks_skipSeparator separator hp).bind fun _ q hq _ => ?_
  have hpeek := outcome_peek? text q
  refine .step hpeek (tracks_rest ?_)
  cases hx : (q.cursor text).rest with
  | nil => exact tracks_pure hq ""
  | cons ch x =>
    have hin := Place.offset_move_le hx
    rw [List.head?_cons]
    by_cases hline : ch = '#'
    · subst hline
      exact tracks_move_pass (by decide) (tracks_trailingLine (hq.move 1) hin)
    by_cases hslash : ch = '/'
    · subst hslash
      have hrest := Place.rest_move_one hx
      have hnext := outcome_peek? text (q.move 1)
      rw [hrest] at hnext
      by_cases hlines : x.head? = some '/'
      · obtain ⟨y, rfl⟩ := List.head?_eq_some_iff.1 hlines
        refine (tracks_move_pass (g := fun _ => Reader.pass '/' >>= fun _ => Reader.trailingLine)
          (by decide) (.step hnext ?_)).congr rfl
        refine tracks_move_pass (by decide) ?_
        exact tracks_trailingLine ((hq.move 1).move 1) (Place.offset_move_le hrest)
      by_cases hblock : x.head? = some '*'
      · obtain ⟨y, rfl⟩ := List.head?_eq_some_iff.1 hblock
        refine (tracks_move_pass (g := fun _ => Reader.pass '*' >>= fun _ => Reader.trailingBlock)
          (by decide) (.step hnext ?_)).congr rfl
        refine tracks_move_pass (by decide) ?_
        exact tracks_trailingBlock ((hq.move 1).move 1) (Place.offset_move_le hrest)
      · refine .of_outcome (outcome_move 1 text q) ?_
        rw [outcome_bind_of_ok hnext]
        have hlines' (y : List Char) : x ≠ '/' :: y := fun hy => hlines (hy ▸ rfl)
        have hblock' (y : List Char) : x ≠ '*' :: y := fun hy => hblock (hy ▸ rfl)
        simp only
        rw [outcome_bind_of_ok (outcome_retreat hq), outcome_refuse hq]
        exact .refused _ hq
    · split
      · next heq => exact absurd (Option.some.inj heq) hline
      · next heq => exact absurd (Option.some.inj heq) hslash
      · split
        · next heq => exact absurd (List.cons.inj heq).1 hline
        · next heq => exact absurd (List.cons.inj heq).1 hslash
        · next heq => exact absurd (List.cons.inj heq).1 hslash
        · next heq => exact absurd (List.cons.inj heq).1 hslash
        · exact tracks_pure hq ""

end Trailing

end Scan

end ThriftIdl
