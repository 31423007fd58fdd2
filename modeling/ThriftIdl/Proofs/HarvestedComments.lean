import ThriftIdl.Proofs.CommentRuns

namespace ThriftIdl.Reader

/-- Blanks and comments in front of a text, with what each of the comments says. -/
inductive Commentary : List Char → List (List Char) → List Char → Prop
  | blanks {run : List Char} (hrun : ∀ ch ∈ run, isBlank ch = true) (after : List Char) :
      Commentary run [] after
  | comment {run written text gap after : List Char} {texts : List (List Char)}
      (hrun : ∀ ch ∈ run, isBlank ch = true) (hsaid : Says written text (gap ++ after))
      (rest : Commentary gap texts after) :
      Commentary (run ++ (written ++ gap)) (text :: texts) after

/-- Passes blanks and comments one after another. -/
def skipEach (acrossComments : Bool) : Reader Unit :=
  fix (fun again (_ : Unit) => do
    match ← next? with
    | none => return ()
    | some ch =>
      if isBlank ch then
        pass ch
        again ()
      else if acrossComments ∧ (ch = '/' ∨ ch = '#') then
        discard comment
        again ()
      else
        return ()) ()

/-- The comments from a point on, behind those that have been found already. -/
def commentsAfter (found : List String) : Reader (List String) :=
  fix (fun again found => do
    skipBlanks
    match ← next? with
    | some '/' | some '#' =>
      let text ← comment
      again (found ++ [text])
    | _ => return found) found

theorem comments_eq : comments = commentsAfter [] := rfl

variable {c d : Cursor} {ch : Char} {x run written text gap after : List Char}
  {texts : List (List Char)} {fault : SyntaxFault} {found : List String} {acrossComments : Bool}

theorem Says.opens (h : Says written text after) :
    ∃ ch x, written = ch :: x ∧ (ch = '/' ∨ ch = '#') := by
  obtain hhead | hhead := h.head?
  · obtain ⟨x, rfl⟩ := List.head?_eq_some_iff.1 hhead
    exact ⟨_, x, rfl, .inr rfl⟩
  · obtain ⟨x, rfl⟩ := List.head?_eq_some_iff.1 hhead
    exact ⟨_, x, rfl, .inl rfl⟩

theorem discard_eq {α : Type} (r : Reader α) : discard r = r >>= fun _ => pure () := rfl

theorem isBlank_of_opens (h : ch = '/' ∨ ch = '#') : isBlank ch = false := by
  obtain rfl | rfl := h <;> rfl

section Harvest

variable (hrun : ∀ ch ∈ run, isBlank ch = true)

include hrun

theorem commentsAfter_run_blanks (hx : c.rest = run ++ x) (hstops : Stops isBlank x) :
    (commentsAfter found).run c = (do
      match ← next? with
      | some '/' | some '#' =>
        let text ← comment
        guarded c.rest.length (commentsAfter (found ++ [text]))
      | _ => return found : Reader (List String)).run (c.passAll run) := by
  have hskip := skipWhile_run isBlank c
  rw [hx, takeWhile_run_append hrun hstops] at hskip
  rw [commentsAfter, fix_run]
  exact bind_run_of_ok hskip

theorem commentsAfter_run_stop (hx : c.rest = run ++ x) (hstops : Stops beginsGap x) :
    (commentsAfter found).run c = .ok (found, c.passAll run) := by
  rw [commentsAfter_run_blanks hrun hx hstops.blank]
  refine (bind_run_of_ok (a := (c.passAll run).rest.head?) (d := c.passAll run) rfl).trans ?_
  rw [Cursor.rest_passAll_left hx]
  split
  · next h => exact absurd (hstops _ h) (by decide)
  · next h => exact absurd (hstops _ h) (by decide)
  · rfl

theorem commentsAfter_run_opens (hx : c.rest = run ++ ch :: x) (hch : ch = '/' ∨ ch = '#') :
    (commentsAfter found).run c = (do
      let text ← comment
      guarded c.rest.length (commentsAfter (found ++ [text])) : Reader (List String)).run
        (c.passAll run) := by
  rw [commentsAfter_run_blanks hrun hx (stops_cons (isBlank_of_opens hch))]
  refine (bind_run_of_ok (a := (c.passAll run).rest.head?) (d := c.passAll run) rfl).trans ?_
  rw [Cursor.rest_passAll_left hx, List.head?_cons]
  obtain rfl | rfl := hch <;> rfl

theorem commentsAfter_run_comment (hx : c.rest = run ++ (written ++ after))
    (h : Says written text after) : (commentsAfter found).run c =
      (commentsAfter (found ++ [String.ofList text])).run (c.passAll (run ++ written)) := by
  obtain ⟨ch, y, rfl, hch⟩ := h.opens
  rw [commentsAfter_run_opens hrun hx hch]
  refine (bind_run_of_ok (comment_run h (Cursor.rest_passAll_left hx))).trans ?_
  rw [← Cursor.passAll_append]
  refine guarded_run_of_lt ?_
  rw [← List.append_assoc] at hx
  rw [Cursor.rest_passAll_left hx, hx]
  simp only [List.length_append, List.length_cons]
  omega

theorem commentsAfter_run_malformed (hx : c.rest = run ++ x) (h : Malformed x fault) :
    (commentsAfter found).run c = .error ⟨(c.passAll run).position, fault⟩ := by
  obtain ⟨y, rfl⟩ := List.head?_eq_some_iff.1 h.head?
  rw [commentsAfter_run_opens hrun hx (.inl rfl)]
  refine bind_run_of_error (comment_run_malformed ?_)
  rwa [Cursor.rest_passAll_left hx]

end Harvest

/-- All comments are read, each for what it says. -/
theorem commentsAfter_run (h : Commentary gap texts after) (hx : c.rest = gap ++ after)
    (hstops : Stops beginsGap after) : (commentsAfter found).run c =
      .ok (found ++ texts.map String.ofList, c.passAll gap) := by
  induction h generalizing c found with
  | blanks hrun after => rw [commentsAfter_run_stop hrun hx hstops, List.map_nil, List.append_nil]
  | @comment run written text gap after texts hrun hsaid _ ih =>
    have hx' : c.rest = run ++ (written ++ (gap ++ after)) := by
      rw [hx, List.append_assoc, List.append_assoc]
    rw [commentsAfter_run_comment hrun hx' hsaid, ih _ hstops, ← Cursor.passAll_append,
      List.append_assoc, List.append_assoc]
    · rfl
    · exact Cursor.rest_passAll_left (hx'.trans (List.append_assoc _ _ _).symm)

theorem commentsAfter_run_fault (h : Commentary gap texts after) (hx : c.rest = gap ++ after)
    (hfault : Malformed after fault) : (commentsAfter found).run c =
      .error ⟨(c.passAll gap).position, fault⟩ := by
  induction h generalizing c found with
  | blanks hrun after => exact commentsAfter_run_malformed hrun hx hfault
  | @comment run written text gap after texts hrun hsaid _ ih =>
    have hx' : c.rest = run ++ (written ++ (gap ++ after)) := by
      rw [hx, List.append_assoc, List.append_assoc]
    rw [commentsAfter_run_comment hrun hx' hsaid, ih _ hfault, ← Cursor.passAll_append,
      List.append_assoc]
    exact Cursor.rest_passAll_left (hx'.trans (List.append_assoc _ _ _).symm)

/-- Every text begins with blanks and comments, and goes on in one of two ways. -/
theorem exists_commentary (x : List Char) : ∃ gap texts after, x = gap ++ after ∧
    Commentary gap texts after ∧ (Stops beginsGap after ∨ ∃ fault, Malformed after fault) := by
  induction hn : x.length using Nat.strongRecOn generalizing x with
  | ind n ih =>
    subst hn
    have hrun : ∀ ch ∈ x.takeWhile isBlank, isBlank ch = true := fun ch => List.mem_takeWhile_imp
    have hsplit : x.takeWhile isBlank ++ x.dropWhile isBlank = x := List.takeWhile_append_dropWhile
    generalize x.takeWhile isBlank = run at hrun hsplit
    have hblank := stops_dropWhile isBlank x
    generalize x.dropWhile isBlank = y at hsplit hblank
    subst hsplit
    by_cases hstops : Stops beginsGap y
    · exact ⟨run, [], y, rfl, .blanks hrun y, .inl hstops⟩
    obtain ⟨ch, y, rfl, hgap⟩ := exists_cons_of_not_stops hstops
    have hch : ch = '/' ∨ ch = '#' := by simpa [beginsGap, hblank ch rfl] using hgap
    obtain ⟨written, text, z, hsaid, hy⟩ | ⟨fault, hfault⟩ := says_or_malformed hch y
    · -- A comment is not empty, so that less is left behind it.
      obtain ⟨ch', w, rfl, -⟩ := hsaid.opens
      rw [hy]
      obtain ⟨gap, texts, after, rfl, hgap, hend⟩ := ih z.length (by simp [hy]; omega) z rfl
      exact ⟨_, _, after, by simp, .comment hrun hsaid hgap, hend⟩
    · exact ⟨run, [], _, rfl, .blanks hrun _, .inr ⟨fault, hfault⟩⟩

section Skipping

theorem skipEach_run_blank (hx : c.rest = ch :: x) (hch : isBlank ch = true) :
    (skipEach acrossComments).run c = (skipEach acrossComments).run (c.pass ch) := by
  rw [skipEach, fix_run]
  refine (bind_run_of_ok (a := c.rest.head?) (d := c) rfl).trans ?_
  rw [hx, List.head?_cons]
  dsimp only
  rw [if_pos hch, ← hx]
  refine (bind_run_of_ok (a := ()) (d := c.pass ch) rfl).trans ?_
  exact guarded_run_of_lt (Cursor.Past.pass hx).shorter

theorem skipEach_run_blanks (hrun : ∀ ch ∈ run, isBlank ch = true) (hx : c.rest = run ++ x) :
    (skipEach acrossComments).run c = (skipEach acrossComments).run (c.passAll run) := by
  induction run generalizing c with
  | nil => rfl
  | cons ch run ih =>
    rw [skipEach_run_blank hx (hrun ch List.mem_cons_self), ih]
    · rfl
    · exact fun ch' hch' => hrun ch' (List.mem_cons_of_mem _ hch')
    · rw [Cursor.rest_pass, hx, List.cons_append, List.tail_cons]

theorem skipEach_run_opens (hx : c.rest = ch :: x) (hch : ch = '/' ∨ ch = '#') :
    (skipEach true).run c = (do
      discard comment
      guarded c.rest.length (skipEach true) : Reader Unit).run c := by
  rw [skipEach, fix_run]
  refine (bind_run_of_ok (a := c.rest.head?) (d := c) rfl).trans ?_
  rw [hx, List.head?_cons]
  dsimp only
  rw [if_neg (by rw [isBlank_of_opens hch]; decide), if_pos ⟨rfl, hch⟩]

theorem skipEach_run_stop (hstops : Stops isBlank c.rest)
    (hopen : acrossComments = true → Stops beginsGap c.rest) :
    (skipEach acrossComments).run c = .ok ((), c) := by
  rw [skipEach, fix_run]
  refine (bind_run_of_ok (a := c.rest.head?) (d := c) rfl).trans ?_
  cases hnext : c.rest.head? with
  | none => rfl
  | some ch =>
    dsimp only
    rw [if_neg (by rw [hstops ch hnext]; decide), if_neg]
    · rfl
    · rintro ⟨hacross, hch⟩
      have hgap := hopen hacross ch hnext
      obtain rfl | rfl := hch <;> revert hgap <;> decide

theorem skipEach_run_commentary (h : Commentary gap texts after) (hx : c.rest = gap ++ after) :
    (skipEach true).run c = (skipEach true).run (c.passAll gap) := by
  induction h generalizing c with
  | blanks hrun after => exact skipEach_run_blanks hrun hx
  | @comment run written text gap after texts hrun hsaid _ ih =>
    obtain ⟨ch, y, hy, hch⟩ := hsaid.opens
    rw [List.append_assoc, List.append_assoc] at hx
    have hrest := Cursor.rest_passAll_left hx
    have hhead : (c.passAll run).rest = ch :: (y ++ (gap ++ after)) := by
      rw [hrest, hy]
      rfl
    have hcomment : (discard comment).run (c.passAll run) =
        .ok ((), (c.passAll run).passAll written) := by
      rw [discard_eq]
      exact bind_run_of_ok (comment_run hsaid hrest)
    have hpast : (c.passAll run).Past ((c.passAll run).passAll written) :=
      .passAll ⟨_, hrest.symm⟩ (by rw [hy]; exact List.cons_ne_nil _ _)
    rw [skipEach_run_blanks hrun hx, skipEach_run_opens hhead hch]
    refine (bind_run_of_ok hcomment).trans ?_
    rw [guarded_run_of_lt hpast.shorter, ih (Cursor.rest_passAll_left hrest),
      ← Cursor.passAll_append, ← Cursor.passAll_append]

theorem skipEach_run_fault (h : Commentary gap texts after) (hx : c.rest = gap ++ after)
    (hfault : Malformed after fault) :
    (skipEach true).run c = .error ⟨(c.passAll gap).position, fault⟩ := by
  have hrest := Cursor.rest_passAll_left hx
  obtain ⟨y, hy⟩ := List.head?_eq_some_iff.1 hfault.head?
  rw [skipEach_run_commentary h hx, skipEach_run_opens (hrest.trans hy) (.inl rfl)]
  have hcomment : (discard comment).run (c.passAll gap) =
      .error ⟨(c.passAll gap).position, fault⟩ := by
    rw [discard_eq]
    exact bind_run_of_error (comment_run_malformed (hrest ▸ hfault))
  exact bind_run_of_error hcomment

end Skipping

section Documentation

theorem joinLines_ofList (texts : List (List Char)) :
    Text.joinLines (texts.map String.ofList) = String.ofList (['\n'].intercalate texts) := by
  have hback : String.toList ∘ String.ofList = id := funext fun text => String.toList_ofList
  rw [← String.toList_inj, Text.joinLines, String.toList_intercalate, List.map_map, hback,
    List.map_id, String.toList_ofList (l := ['\n'].intercalate texts)]
  rfl

theorem documentation_run (h : Commentary gap texts after) (hx : c.rest = gap ++ after)
    (hstops : Stops beginsGap after) : documentation.run c =
      .ok (String.ofList (['\n'].intercalate texts), c.passAll gap) := by
  rw [← joinLines_ofList, documentation, comments_eq]
  exact bind_run_of_ok (commentsAfter_run h hx hstops)

theorem documentation_run_fault (h : Commentary gap texts after) (hx : c.rest = gap ++ after)
    (hfault : Malformed after fault) :
    documentation.run c = .error ⟨(c.passAll gap).position, fault⟩ := by
  rw [documentation, comments_eq]
  exact bind_run_of_error (commentsAfter_run_fault h hx hfault)

theorem skipGap_run (h : Commentary gap texts after) (hx : c.rest = gap ++ after)
    (hstops : Stops beginsGap after) : skipGap.run c = .ok ((), c.passAll gap) := by
  rw [skipGap, discard_eq, comments_eq]
  exact bind_run_of_ok (commentsAfter_run h hx hstops)

theorem skipGap_run_fault (h : Commentary gap texts after) (hx : c.rest = gap ++ after)
    (hfault : Malformed after fault) :
    skipGap.run c = .error ⟨(c.passAll gap).position, fault⟩ := by
  rw [skipGap, discard_eq, comments_eq]
  exact bind_run_of_error (commentsAfter_run_fault h hx hfault)

/-- Skipping passes blanks and comments one after another. -/
theorem skip_run (acrossComments : Bool) (c : Cursor) :
    (skip acrossComments).run c = (skipEach acrossComments).run c := by
  cases acrossComments with
  | false =>
    have hsplit : c.rest.takeWhile isBlank ++ c.rest.dropWhile isBlank = c.rest :=
      List.takeWhile_append_dropWhile
    have hrun : ∀ ch ∈ c.rest.takeWhile isBlank, isBlank ch = true :=
      fun ch => List.mem_takeWhile_imp
    rw [skipEach_run_blanks hrun hsplit.symm, skipEach_run_stop]
    · rfl
    · rw [rest_passAll_takeWhile]
      exact stops_dropWhile _ _
    · exact fun h => absurd h (by decide)
  | true =>
    obtain ⟨gap, texts, after, hx, hgap, hstops | ⟨fault, hfault⟩⟩ := exists_commentary c.rest
    · rw [skipEach_run_commentary hgap hx, skipEach_run_stop]
      · exact skipGap_run hgap hx hstops
      · rw [Cursor.rest_passAll_left hx]
        exact hstops.blank
      · rw [Cursor.rest_passAll_left hx]
        exact fun _ => hstops
    · rw [skipEach_run_fault hgap hx hfault]
      exact skipGap_run_fault hgap hx hfault

/-- The documentation in front of a text is what the comments say that stand there, a line break
between any two of them. The reading ends where skipping them ends, and fails where that fails. -/
theorem documentation_commentary (c : Cursor) :
    (∀ doc d, documentation.run c = .ok (doc, d) ↔ ∃ gap texts after, c.rest = gap ++ after ∧
        Commentary gap texts after ∧ Stops beginsGap after ∧
          doc = String.ofList (['\n'].intercalate texts) ∧ d = c.passAll gap) ∧
      (∀ e, documentation.run c = .error e ↔ ∃ gap texts after fault, c.rest = gap ++ after ∧
        Commentary gap texts after ∧ Malformed after fault ∧
          e = ⟨(c.passAll gap).position, fault⟩) ∧
      (skip true).run c = (documentation.run c).map (fun out => ((), out.2)) ∧
      (skip true).run c = (skipEach true).run c := by
  obtain ⟨gap, texts, after, hx, hgap, hend⟩ := exists_commentary c.rest
  refine ⟨fun doc d => ⟨fun hrun => ?_, ?_⟩, fun e => ⟨fun hrun => ?_, ?_⟩, ?_, skip_run true c⟩
  · obtain hstops | ⟨fault, hfault⟩ := hend
    · rw [documentation_run hgap hx hstops] at hrun
      obtain ⟨rfl, rfl⟩ := Prod.mk.inj (Except.ok.inj hrun)
      exact ⟨gap, texts, after, hx, hgap, hstops, rfl, rfl⟩
    · rw [documentation_run_fault hgap hx hfault] at hrun
      cases hrun
  · rintro ⟨gap, texts, after, hx, hgap, hstops, rfl, rfl⟩
    exact documentation_run hgap hx hstops
  · obtain hstops | ⟨fault, hfault⟩ := hend
    · rw [documentation_run hgap hx hstops] at hrun
      cases hrun
    · rw [documentation_run_fault hgap hx hfault] at hrun
      exact ⟨gap, texts, after, fault, hx, hgap, hfault, (Except.error.inj hrun).symm⟩
  · rintro ⟨gap, texts, after, fault, hx, hgap, hfault, rfl⟩
    exact documentation_run_fault hgap hx hfault
  · change skipGap.run c = _
    obtain hstops | ⟨fault, hfault⟩ := hend
    · rw [skipGap_run hgap hx hstops, documentation_run hgap hx hstops]
      rfl
    · rw [skipGap_run_fault hgap hx hfault, documentation_run_fault hgap hx hfault]
      rfl

end Documentation

end ThriftIdl.Reader
