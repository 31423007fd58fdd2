import ThriftIdl.Proofs.CommentRuns
import ThriftIdl.Proofs.LineBreaks
import ThriftIdl.Proofs.ReadingAlike

namespace ThriftIdl

open Text (widen)

namespace CommentText

variable {n : Nat} {ch : Char} {x y body run : List Char} {p : Char → Bool}

theorem beforeClose_returns (n : Nat) (x : List Char) :
    beforeClose (List.replicate n '\r' ++ x) = (beforeClose x).map (List.replicate n '\r' ++ ·) := by
  induction n with
  | zero => simp
  | succ n ih =>
    rw [List.replicate_succ, List.cons_append, beforeClose_cons (by simp), ih, Option.map_map]
    rfl

theorem beforeClose_widen (n : Nat) (x : List Char) :
    beforeClose (widen n x) = (beforeClose x).map (widen n) := by
  fun_induction beforeClose x with
  | case1 x =>
    rw [Text.widen_cons (by decide), Text.widen_cons (by decide)]
    rfl
  | case2 ch x hopen ih =>
    by_cases hch : ch = '\n'
    · subst hch
      rw [Text.widen_break, beforeClose_returns, beforeClose_cons (by simp), ih]
      simp only [Option.map_map]
      congr! 1
      funext body
      simp [Text.widen_break]
    · rw [Text.widen_cons hch, beforeClose_cons, ih]
      · simp only [Option.map_map]
        congr! 1
        funext body
        simp [Text.widen_cons hch]
      · intro y hstar hy
        have hnil : Text.NewLine [] := by simp [Text.NewLine]
        obtain ⟨z, hz, -⟩ := Text.head_of_widen hnil (by decide) (by decide)
          ((List.append_nil _).trans hy)
        exact hopen z hstar hz
  | case3 => rfl

theorem beforeClose_append (h : beforeClose x = some body) (y : List Char) :
    beforeClose (x ++ y) = some body := by
  fun_induction beforeClose x generalizing body with
  | case1 x => exact h
  | case2 ch x hopen ih =>
    obtain ⟨found, hfound, rfl⟩ := Option.map_eq_some_iff.1 h
    rw [List.cons_append, beforeClose_cons, ih hfound]
    · rfl
    · intro z hstar hz
      cases x with
      | nil => cases hfound
      | cons c x =>
        obtain ⟨rfl, -⟩ := List.cons.inj hz
        exact hopen x hstar rfl
  | case3 => cases h

/-- Carriage returns behind a line close no comment. -/
theorem beforeClose_append_returns (n : Nat) (x : List Char) :
    beforeClose (x ++ List.replicate n '\r') = beforeClose x := by
  fun_induction beforeClose x with
  | case1 x => rfl
  | case2 ch x hopen ih =>
    rw [List.cons_append, beforeClose_cons, ih]
    intro z hstar hz
    cases x with
    | nil =>
      cases n with
      | zero => cases hz
      | succ n => cases hz
    | cons c x =>
      obtain ⟨rfl, -⟩ := List.cons.inj hz
      exact hopen x hstar rfl
  | case3 =>
    have h := beforeClose_returns n []
    rwa [List.append_nil] at h

theorem stripMargin_returns (fresh : Bool) (n : Nat) (x : List Char) :
    stripMargin fresh (List.replicate n '\r' ++ x) = stripMargin fresh x := by
  induction n with
  | zero => rfl
  | succ n ih =>
    rw [List.replicate_succ, List.cons_append, ← ih]
    cases fresh <;> rfl

theorem stripMargin_widen (fresh : Bool) (n : Nat) (x : List Char) :
    stripMargin fresh (widen n x) = stripMargin fresh x := by
  fun_induction stripMargin fresh x with
  | case1 => rfl
  | case2 fresh x ih =>
    rw [Text.widen_break, stripMargin_returns, stripMargin, ih]
  | case3 fresh x ih =>
    rw [Text.widen_cons (by decide), stripMargin, ih]
  | case4 ch x hbreak hreturn ih =>
    rw [Text.widen_cons hbreak, stripMargin, ih]
    · exact hbreak
    · exact hreturn
  | case5 x ih =>
    rw [Text.widen_cons (by decide), Text.widen_cons (by decide), stripMargin, ih]
  | case6 x hspace ih =>
    rw [Text.widen_cons (by decide), stripMargin, ih]
    intro y hy
    obtain ⟨z, hz, -⟩ := Text.head_of_widen (by simp [Text.NewLine]) (by decide) (by decide)
      ((List.append_nil _).trans hy)
    exact hspace z hz
  | case7 ch x hbreak hreturn hpair hstar hwhite ih =>
    rw [Text.widen_cons hbreak, stripMargin, if_pos hwhite, ih]
    · exact hbreak
    · exact hreturn
    · exact fun _ h _ => hstar h
    · exact hstar
  | case8 ch x hbreak hreturn hpair hstar hwhite ih =>
    rw [Text.widen_cons hbreak, stripMargin, if_neg hwhite, ih]
    · exact hbreak
    · exact hreturn
    · exact fun _ h _ => hstar h
    · exact hstar

theorem ofBlock_widen (n : Nat) (body : List Char) : ofBlock (widen n body) = ofBlock body := by
  rw [ofBlock, ofBlock, stripMargin_widen]

theorem trimRight_append (hrun : ∀ c ∈ run, p c = true) (x : List Char) :
    Text.trimRight p (x ++ run) = Text.trimRight p x := by
  have hreverse : ∀ c ∈ run.reverse, p c = true := fun c hc => hrun c (List.mem_reverse.1 hc)
  rw [Text.trimRight, Text.trimRight, List.reverse_append, List.dropWhile_append_of_pos hreverse]

theorem ofLine_returns (n : Nat) (line : List Char) :
    ofLine (line ++ List.replicate n '\r') = ofLine line :=
  trimRight_append (fun _ hc => by rw [List.eq_of_mem_replicate hc]; rfl) line

theorem ofTrailing_returns (n : Nat) (text : List Char) :
    ofTrailing (text ++ List.replicate n '\r') = ofTrailing text := by
  have hreturns : ∀ c ∈ List.replicate n '\r', isLineBlank c = true := by
    intro c hc
    rw [List.eq_of_mem_replicate hc]
    rfl
  unfold ofTrailing Text.trim Text.trimLeft
  by_cases hall : ∀ c ∈ text, isLineBlank c = true
  · rw [List.dropWhile_append_of_pos hall, List.dropWhile_eq_nil_iff.2 hreturns,
      List.dropWhile_eq_nil_iff.2 hall]
  · have hdrop : text.dropWhile isLineBlank ≠ [] := fun h => hall (List.dropWhile_eq_nil_iff.1 h)
    rw [List.dropWhile_append, if_neg (by simpa using hdrop), trimRight_append hreturns]

end CommentText

/-- The same point in front of the same character, or at the end of both texts. -/
structure Rewriting.Faces (w : Rewriting) (c c' : Cursor) : Prop extends w.Carries c c' where
  stops : Reader.Stops Reader.isBlank c.rest
  head : c'.rest.head? = c.rest.head?

theorem Rewriting.Carries.faces {w : Rewriting} {c c' : Cursor} (h : w.Carries c c')
    (hstops : Reader.Stops Reader.isBlank c.rest) (hend : c.rest = [] → w.Closed) :
    w.Faces c c' := by
  refine ⟨h, hstops, ?_⟩
  cases hx : c.rest with
  | nil => rw [h.rest_nil (hend hx) hx]
  | cons ch x =>
    have hbreak : ch ≠ '\n' := by
      rintro rfl
      exact absurd (hstops '\n' (by rw [hx]; rfl)) (by decide)
    rw [h.cons hx hbreak]
    rfl

namespace Reader

variable {w : Rewriting} {D : Cursor → Prop} {c c' d d' : Cursor}
  {x y line body : List Char} {quote ch : Char} {p : Char → Bool} {fault : SyntaxFault}

/-- Where the text ends, only blanks may be missing that come first in what follows it. -/
def AtEnd (c : Cursor) : Prop := c.rest = []

section Runs

theorem carries_takeWhile (h : w.Carries c c') (hbreak : p '\n' = false)
    (hreturn : p '\r' = false) :
    w.Carries (c.passAll (c.rest.takeWhile p)) (c'.passAll (c'.rest.takeWhile p)) := by
  have hunbroken : '\n' ∉ c.rest.takeWhile p := by
    intro hmem
    rw [List.mem_takeWhile_imp hmem] at hbreak
    cases hbreak
  have hmoved := h.passAll (List.takeWhile_prefix p)
  rw [Text.widen_unbroken hunbroken] at hmoved
  rwa [h.takeWhile_eq hbreak hreturn]

theorem alike_takeWhile (h : w.Carries c c') (hbreak : p '\n' = false) (hreturn : p '\r' = false) :
    Alike w.Closed D (takeWhile p) (takeWhile p) c c' fun run d run' d' =>
      run' = run ∧ w.Carries d d' :=
  alike_of_ok (takeWhile_run p c) (takeWhile_run p c')
    ⟨h.takeWhile_eq hbreak hreturn, carries_takeWhile h hbreak hreturn⟩

theorem alike_skipWhile (h : w.Carries c c') (hbreak : p '\n' = false) (hreturn : p '\r' = false) :
    Alike w.Closed D (skipWhile p) (skipWhile p) c c' fun _ d _ d' => w.Carries d d' :=
  alike_of_ok (skipWhile_run p c) (skipWhile_run p c') (carries_takeWhile h hbreak hreturn)

theorem alike_skipBlanks (h : w.Carries c c') : Alike w.Closed AtEnd skipBlanks skipBlanks c c'
    fun _ d _ d' => w.Faces d d' := by
  have hrest := rest_passAll_takeWhile isBlank c
  have hstops : Stops isBlank (c.passAll (c.rest.takeWhile isBlank)).rest := by
    rw [hrest]
    exact stops_dropWhile _ _
  -- Blanks at the end of the first text may go on in what follows in the second one.
  by_cases hcut : ¬ w.Closed ∧ c.rest.dropWhile isBlank = []
  · exact alike_of_cut (skipWhile_run isBlank c) hcut.1 (hrest.trans hcut.2)
  · have hstops' : Stops isBlank (widen w.returns (c.rest.dropWhile isBlank) ++ w.tail) := by
      cases hx : c.rest.dropWhile isBlank with
      | nil =>
        rw [Rewriting.tail_of_closed (by simpa [hx] using hcut)]
        exact stops_nil _
      | cons ch x =>
        rw [hrest, hx] at hstops
        have hch := hstops ch rfl
        rw [Text.widen_cons (by rintro rfl; cases hch)]
        exact stops_cons hch
    have hblanks : ∀ ch ∈ widen w.returns (c.rest.takeWhile isBlank), isBlank ch = true := by
      intro ch hch
      obtain hch | rfl := Text.mem_widen hch
      · exact List.mem_takeWhile_imp hch
      · rfl
    have hrun : c'.rest.takeWhile isBlank = widen w.returns (c.rest.takeWhile isBlank) := by
      rw [h.rest]
      conv_lhs => rw [← List.takeWhile_append_dropWhile (p := isBlank) (l := c.rest)]
      rw [Text.widen_append, List.append_assoc, takeWhile_run_append hblanks hstops']
    have hmoved := h.passAll (List.takeWhile_prefix (l := c.rest) isBlank)
    rw [← hrun] at hmoved
    refine alike_of_ok (skipWhile_run isBlank c) (skipWhile_run isBlank c') (hmoved.faces hstops ?_)
    rw [hrest]
    exact fun hx => by_contra fun hopen => hcut ⟨hopen, hx⟩

/-- Carriage returns are read with the line that they end. -/
theorem alike_restOfLine (h : w.Carries c c') : Alike w.Closed AtEnd restOfLine restOfLine c c'
    fun line d line' d' => (∃ n, line' = line ++ List.replicate n '\r') ∧ w.Carries d d' := by
  by_cases hbreak : '\n' ∈ c.rest
  · obtain ⟨line, x, hx, hline⟩ := List.eq_append_cons_of_mem hbreak
    obtain ⟨hx', hmoved⟩ := h.passLine hx hline
    have hline' : '\n' ∉ line ++ List.replicate w.returns '\r' := by
      rw [List.mem_append, not_or]
      exact ⟨hline, fun hmem => absurd (List.eq_of_mem_replicate hmem) (by decide)⟩
    exact alike_of_ok (restOfLine_run_break hx hline) (restOfLine_run_break hx' hline')
      ⟨⟨w.returns, rfl⟩, hmoved⟩
  · -- The last line of the first text may go on in the second one.
    by_cases hclosed : w.Closed
    · obtain ⟨hx', hmoved⟩ := h.passLast hclosed rfl hbreak
      have hrun' := restOfLine_run_last (c := c') (hx' ▸ hbreak)
      rw [hx'] at hrun'
      exact alike_of_ok (restOfLine_run_last hbreak) hrun' ⟨⟨0, by simp⟩, hmoved⟩
    · refine alike_of_cut (restOfLine_run_last hbreak) hclosed ?_
      exact (Cursor.rest_passAll _ _).trans List.drop_length

end Runs

section Comments

theorem ends_next?_atEnd {E : SyntaxError → Prop} (hd : AtEnd d) :
    Ends next? d (fun next e => next = none ∧ AtEnd e) E :=
  ⟨congrArg List.head? hd, hd⟩

theorem ends_skipBlanks_atEnd (hd : AtEnd d) :
    Ends skipBlanks d (fun _ e => AtEnd e) fun _ => True := by
  unfold Ends
  rw [skipBlanks, skipWhile_run]
  exact (rest_passAll_takeWhile _ _).trans (by rw [hd, List.dropWhile_nil])

theorem ends_comments_turn_atEnd (again : List String → Reader (List String))
    (found : List String) (hd : AtEnd d) :
    Ends (do
      skipBlanks
      match ← next? with
      | some '/' | some '#' =>
        let text ← comment
        again (found ++ [text])
      | _ => return found) d (fun _ e => AtEnd e) fun _ => True := by
  refine (ends_skipBlanks_atEnd hd).bind fun _ e he => (ends_next?_atEnd he).bind fun next f hf => ?_
  obtain ⟨rfl, hf⟩ := hf
  exact hf

theorem ends_comments_atEnd (hd : AtEnd d) : Ends comments d (fun _ e => AtEnd e) fun _ => True :=
  Ends.fix_once fun again => ends_comments_turn_atEnd again [] hd

theorem ends_skipGap_atEnd (hd : AtEnd d) : Ends skipGap d (fun _ e => AtEnd e) fun _ => True := by
  change Ends (comments >>= fun _ => pure ()) d _ _
  exact (ends_comments_atEnd hd).bind fun _ _ he => he

theorem alike_pass (h : w.Carries c c') (hx : c.rest = ch :: x) (hbreak : ch ≠ '\n') :
    Alike w.Closed D (pass ch) (pass ch) c c' fun _ d _ d' => w.Carries d d' := by
  have hmoved := h.advance hx hbreak
  rw [Cursor.advance_eq_pass hbreak, Cursor.advance_eq_pass hbreak] at hmoved
  exact alike_of_ok rfl rfl hmoved

theorem alike_passAll (h : w.Carries c c') (hx : line <+: c.rest) :
    Alike w.Closed D (passAll line) (passAll (widen w.returns line)) c c'
      fun _ d _ d' => w.Carries d d' :=
  alike_of_ok rfl rfl (h.passAll hx)

theorem alike_passIf (h : w.Carries c c') (hbreak : ch ≠ '\n') (hreturn : ch ≠ '\r') :
    Alike w.Closed D (passIf ch) (passIf ch) c c' fun _ d _ d' => w.Carries d d' := by
  refine alike_next?.bind fun next d next' d' hnext => ?_
  obtain ⟨⟨rfl, rfl⟩, rfl, rfl⟩ := hnext
  by_cases hhead : d.rest.head? = some ch
  · rw [if_pos hhead, if_pos ((h.head?_iff hbreak hreturn).2 hhead)]
    obtain ⟨x, hx⟩ := List.head?_eq_some_iff.1 hhead
    exact alike_pass h hx hbreak
  · rw [if_neg hhead, if_neg fun hhead' => hhead ((h.head?_iff hbreak hreturn).1 hhead')]
    exact alike_pure h

theorem alike_lineComment (h : w.Carries c c') : Alike w.Closed AtEnd lineComment lineComment c c'
    fun text d text' d' => text' = text ∧ w.Carries d d' := by
  refine (alike_passIf h (by decide) (by decide)).bind fun _ d _ d' hd => ?_
  refine (alike_restOfLine hd).bind_cut (fun line e he => he) fun line e line' e' he => ?_
  obtain ⟨⟨n, rfl⟩, he⟩ := he
  exact alike_pure ⟨by rw [CommentText.ofLine_returns], he⟩

theorem alike_blockComment (h : w.Carries c c') (hx : c.rest = '/' :: '*' :: x) :
    Alike w.Closed AtEnd comment comment c c' fun text d text' d' =>
      text' = text ∧ w.Carries d d' := by
  have hx' : c'.rest = '/' :: '*' :: (widen w.returns x ++ w.tail) := by
    rw [h.cons hx (by decide), Text.widen_cons (by decide), List.cons_append]
  have hwiden := CommentText.beforeClose_widen w.returns x
  cases hbody : CommentText.beforeClose x with
  | some body =>
    rw [hbody] at hwiden
    have hrun' := comment_run_closed hx' (CommentText.beforeClose_append hwiden w.tail)
    refine alike_of_ok (comment_run_closed hx hbody) hrun' ⟨by rw [CommentText.ofBlock_widen], ?_⟩
    have hmoved := h.passAll (hx ▸ isPrefix_block hbody)
    rwa [Text.widen_append, Text.widen_append] at hmoved
  | none =>
    refine alike_of_error (comment_run_open hx hbody) fun hclosed => ?_
    rw [hbody] at hwiden
    rw [Rewriting.tail_of_closed hclosed, List.append_nil] at hx'
    exact ⟨_, comment_run_open hx' hwiden⟩

theorem alike_comment (h : w.Carries c c') : Alike w.Closed AtEnd comment comment c c'
    fun text d text' d' => text' = text ∧ w.Carries d d' := by
  by_cases hblock : ∃ x, c.rest = '/' :: '*' :: x
  · obtain ⟨x, hx⟩ := hblock
    exact alike_blockComment h hx
  refine alike_rest.bind fun text d text' d' hd => ?_
  obtain ⟨⟨htext, rfl⟩, htext', rfl⟩ := hd
  split
  · rw [htext', h.cons htext.symm (by decide)]
    refine (alike_pass h htext.symm (by decide)).bind fun _ e _ e' he => ?_
    exact alike_lineComment he
  · have hmark : ['/', '/'] <+: d.rest := htext ▸ List.prefix_append ['/', '/'] _
    rw [htext', h.cons htext.symm (by decide), Text.widen_cons (by decide)]
    refine (alike_passAll h hmark).bind fun _ e _ e' he => ?_
    exact alike_lineComment he
  · exact absurd ⟨_, htext.symm⟩ hblock
  · next hhash hslash _ =>
    -- What begins no comment here begins none in the other text.
    refine alike_of_error rfl fun _ => ?_
    split
    · obtain ⟨x, hx, -⟩ := h.of_cons htext'.symm (by decide) (by decide)
      exact (hhash x (htext.trans hx)).elim
    · obtain ⟨x, hx⟩ := h.of_slash htext'.symm (by decide) (by decide)
      exact (hslash x (htext.trans hx)).elim
    · obtain ⟨x, hx⟩ := h.of_slash htext'.symm (by decide) (by decide)
      exact absurd ⟨x, hx⟩ hblock
    · exact ⟨_, rfl⟩

theorem alike_comments (h : w.Carries c c') : Alike w.Closed AtEnd comments comments c c'
    fun found d found' d' => found' = found ∧ w.Faces d d' := by
  unfold comments
  refine alike_fix (D := AtEnd)
    (T := fun (found found' : List String) c c' => found' = found ∧ w.Carries c c')
    (Q := fun _ _ _ (found : List String) d found' d' => found' = found ∧ w.Faces d d')
    (fun again found d hd => ends_comments_turn_atEnd again found hd) ?_ ⟨rfl, h⟩
  rintro again again' _ found c c' hcut hagain ⟨rfl, h⟩
  refine ((alike_skipBlanks h).walks (walks_skipWhile (b := c) _)).bind_cut ?_ ?_
  · intro _ d hd
    refine (ends_next?_atEnd hd).bind fun next e he => ?_
    obtain ⟨rfl, he⟩ := he
    exact he
  · rintro _ d _ d' ⟨hd, hcd, -⟩
    refine alike_next?.bind fun next e next' e' hnext => ?_
    obtain ⟨⟨rfl, rfl⟩, rfl, rfl⟩ := hnext
    have hcomment : Alike w.Closed AtEnd (do
          let text ← comment
          again (found ++ [text])) (do
          let text ← comment
          again' (found ++ [text])) e e' fun found d found' d' =>
            found' = found ∧ w.Faces d d' := by
      refine ((alike_comment hd.toCarries).walks (walks_comment (.refl e))).bind_cut
        (fun text f hf => hcut _ f hf) ?_
      rintro text f _ f' ⟨⟨rfl, hf⟩, hef, hpast⟩
      have hcf := Cursor.Past.of_onward hcd hpast
      exact hagain _ _ f f' hcf.shorter (h.shorter hf hcf) ⟨rfl, hf⟩
    rw [hd.head]
    split
    · exact hcomment
    · exact hcomment
    · exact alike_pure ⟨rfl, hd⟩

end Comments

section Gaps

theorem ends_documentation_atEnd (hd : AtEnd d) :
    Ends documentation d (fun _ e => AtEnd e) fun _ => True :=
  (ends_comments_atEnd hd).bind fun _ _ he => he

theorem alike_documentation (h : w.Carries c c') :
    Alike w.Closed AtEnd documentation documentation c c' fun doc d doc' d' =>
      doc' = doc ∧ w.Faces d d' := by
  refine (alike_comments h).bind_cut (fun _ _ hd => hd) fun found d found' d' hd => ?_
  obtain ⟨rfl, hd⟩ := hd
  exact alike_pure ⟨rfl, hd⟩

theorem alike_skipGap (h : w.Carries c c') : Alike w.Closed AtEnd skipGap skipGap c c'
    fun _ d _ d' => w.Faces d d' := by
  change Alike _ _ (comments >>= fun _ => pure ()) (comments >>= fun _ => pure ()) c c' _
  exact (alike_comments h).bind_cut (fun _ _ hd => hd) fun _ _ _ _ hd => alike_pure hd.2

theorem alike_skip (acrossComments : Bool) (h : w.Carries c c') :
    Alike w.Closed AtEnd (skip acrossComments) (skip acrossComments) c c'
      fun _ d _ d' => w.Faces d d' := by
  cases acrossComments with
  | true => exact alike_skipGap h
  | false => exact alike_skipBlanks h

end Gaps

section Trailing

theorem alike_skipSeparator (separator : Bool) (h : w.Carries c c') :
    Alike w.Closed D (skipSeparator separator) (skipSeparator separator) c c'
      fun _ d _ d' => w.Carries d d' := by
  refine (alike_skipWhile h (by decide) (by decide)).bind fun _ d _ d' hd => ?_
  refine alike_next?.bind fun next e next' e' hnext => ?_
  obtain ⟨⟨hnext, rfl⟩, hnext', rfl⟩ := hnext
  have hhead {ch : Char} (hbreak : ch ≠ '\n') (hreturn : ch ≠ '\r') :
      next' = some ch ↔ next = some ch := by
    rw [hnext, hnext']
    exact hd.head?_iff hbreak hreturn
  have hseparator {ch : Char} (hbreak : ch ≠ '\n') (hch : next = some ch) :
      Alike w.Closed D (do
        advance
        skipWhile isLineGap) (do
        advance
        skipWhile isLineGap) e e' fun _ d _ d' => w.Carries d d' := by
    obtain ⟨x, hx⟩ := List.head?_eq_some_iff.1 (hnext.symm.trans hch)
    refine alike_advance.bind fun _ f _ f' hf => ?_
    obtain ⟨rfl, rfl⟩ := hf
    exact alike_skipWhile (hd.advance hx hbreak) (by decide) (by decide)
  split
  · rw [(hhead (by decide) (by decide)).2 rfl]
    exact hseparator (by decide) rfl
  · rw [(hhead (by decide) (by decide)).2 rfl]
    exact hseparator (by decide) rfl
  · next hcomma hsemicolon =>
    split
    · exact (hcomma rfl ((hhead (by decide) (by decide)).1 rfl)).elim
    · exact (hsemicolon rfl ((hhead (by decide) (by decide)).1 rfl)).elim
    · exact alike_pure hd

theorem alike_trailingLine (h : w.Carries c c') :
    Alike w.Closed AtEnd trailingLine trailingLine c c' fun text d text' d' =>
      text' = text ∧ w.Carries d d' := by
  refine (alike_restOfLine h).bind_cut (fun _ _ hd => hd) fun line d line' d' hd => ?_
  obtain ⟨⟨n, rfl⟩, hd⟩ := hd
  exact alike_pure ⟨by rw [CommentText.ofTrailing_returns], hd⟩

/-- Carriage returns at the end of the line are blanks like others. -/
theorem alike_endOfLine (text : String) (h : w.Carries c c') :
    Alike w.Closed AtEnd (endOfLine text) (endOfLine text) c c' fun text d text' d' =>
      text' = text ∧ w.Carries d d' := by
  have hblank : ∀ ch ∈ c.rest.takeWhile CommentText.isLineBlank,
      CommentText.isLineBlank ch = true := fun ch hch => List.mem_takeWhile_imp hch
  have hunbroken : '\n' ∉ c.rest.takeWhile CommentText.isLineBlank :=
    fun hmem => absurd (hblank _ hmem) (by decide)
  have hsplit := List.takeWhile_append_dropWhile (p := CommentText.isLineBlank) (l := c.rest)
  have hstops := stops_dropWhile CommentText.isLineBlank c.rest
  generalize c.rest.takeWhile CommentText.isLineBlank = run at *
  cases hx : c.rest.dropWhile CommentText.isLineBlank with
  | nil =>
    rw [hx, List.append_nil] at hsplit
    have hlast := endOfLine_run_last hblank text hsplit.symm
    by_cases hclosed : w.Closed
    · obtain ⟨hrest, hmoved⟩ := h.passLast hclosed hsplit.symm hunbroken
      exact alike_of_ok hlast (endOfLine_run_last hblank text hrest) ⟨rfl, hmoved⟩
    · refine alike_of_cut hlast hclosed ?_
      rw [AtEnd, Cursor.rest_passAll, ← hsplit, List.drop_length]
  | cons ch x =>
    rw [hx] at hsplit hstops
    by_cases hbreak : ch = '\n'
    · subst hbreak
      have hblank' : ∀ ch ∈ run ++ List.replicate w.returns '\r',
          CommentText.isLineBlank ch = true := by
        intro ch hch
        rcases List.mem_append.1 hch with hch | hch
        · exact hblank ch hch
        · rw [List.eq_of_mem_replicate hch]
          rfl
      obtain ⟨hrest, hmoved⟩ := h.passLine hsplit.symm hunbroken
      exact alike_of_ok (endOfLine_run_break hblank text hsplit.symm)
        (endOfLine_run_break hblank' text hrest) ⟨rfl, hmoved⟩
    · have hch := hstops ch rfl
      have hrest : c'.rest = run ++ ch :: (widen w.returns x ++ w.tail) := by
        rw [h.rest, ← hsplit, Text.widen_append, Text.widen_unbroken hunbroken,
          Text.widen_cons hbreak, List.append_assoc, List.cons_append]
      exact alike_of_error (endOfLine_run_text hblank text hsplit.symm hch hbreak) fun _ =>
        ⟨_, endOfLine_run_text hblank text hrest hch hbreak⟩

theorem alike_trailingBlock (h : w.Carries c c') :
    Alike w.Closed AtEnd trailingBlock trailingBlock c c' fun text d text' d' =>
      text' = text ∧ w.Carries d d' := by
  refine alike_rest.bind fun text d text' d' hd => ?_
  obtain ⟨⟨rfl, rfl⟩, rfl, rfl⟩ := hd
  obtain ⟨n, hline'⟩ := Text.takeLine_widen w.returns w.newLine_tail d.rest
  rw [← h.rest] at hline'
  dsimp only
  rw [hline', CommentText.beforeClose_append_returns]
  have hline := List.takeWhile_prefix (l := d.rest) (· != '\n')
  split
  · next body hbody =>
    obtain ⟨x, hx⟩ := CommentText.eq_append_of_beforeClose hbody
    have hclosed : body ++ ['*', '/'] <+: d.rest.takeWhile (· != '\n') := ⟨x, by simp [hx]⟩
    have hunbroken : '\n' ∉ body ++ ['*', '/'] := by
      intro hmem
      simpa using List.mem_takeWhile_imp (hclosed.subset hmem)
    have hpass := alike_passAll (D := Nowhere) h (hclosed.trans hline)
    rw [Text.widen_unbroken hunbroken] at hpass
    exact hpass.bind fun _ e _ e' he => alike_endOfLine _ he
  · refine alike_of_error rfl fun _ => ⟨_, rfl⟩

theorem alike_trailing (separator : Bool) (h : w.Carries c c') :
    Alike w.Closed AtEnd (trailing separator) (trailing separator) c c' fun text d text' d' =>
      text' = text ∧ w.Carries d d' := by
  refine (alike_skipSeparator separator h).bind fun _ e _ e' he => ?_
  refine alike_rest.bind fun text d text' d' hd => ?_
  obtain ⟨⟨htext, rfl⟩, htext', rfl⟩ := hd
  split
  · rw [htext', he.cons htext.symm (by decide)]
    exact (alike_pass he htext.symm (by decide)).bind fun _ _ _ _ hf => alike_trailingLine hf
  · have hmark : ['/', '/'] <+: d.rest := htext ▸ List.prefix_append ['/', '/'] _
    rw [htext', he.cons htext.symm (by decide), Text.widen_cons (by decide)]
    exact (alike_passAll he hmark).bind fun _ _ _ _ hf => alike_trailingLine hf
  · have hmark : ['/', '*'] <+: d.rest := htext ▸ List.prefix_append ['/', '*'] _
    rw [htext', he.cons htext.symm (by decide), Text.widen_cons (by decide)]
    exact (alike_passAll he hmark).bind fun _ _ _ _ hf => alike_trailingBlock hf
  · next hslash hblock =>
    refine alike_of_error rfl fun _ => ?_
    have hhead := he.cons htext.symm (by decide)
    split
    · rw [← htext'] at hhead
      cases hhead
    · obtain ⟨x, hx⟩ := he.of_slash htext'.symm (by decide) (by decide)
      exact (hslash x (List.cons.inj (htext.trans hx)).2).elim
    · obtain ⟨x, hx⟩ := he.of_slash htext'.symm (by decide) (by decide)
      exact (hblock x (List.cons.inj (htext.trans hx)).2).elim
    · exact ⟨_, rfl⟩
    · next hother => exact (hother _ (htext'.trans hhead)).elim
  · next hhash _ _ hslash =>
    split
    · obtain ⟨x, hx, -⟩ := he.of_cons htext'.symm (by decide) (by decide)
      exact (hhash x (htext.trans hx)).elim
    · obtain ⟨x, hx, -⟩ := he.of_cons htext'.symm (by decide) (by decide)
      exact (hslash x (htext.trans hx)).elim
    · obtain ⟨x, hx, -⟩ := he.of_cons htext'.symm (by decide) (by decide)
      exact (hslash x (htext.trans hx)).elim
    · obtain ⟨x, hx, -⟩ := he.of_cons htext'.symm (by decide) (by decide)
      exact (hslash x (htext.trans hx)).elim
    · exact alike_pure ⟨rfl, he⟩

end Trailing

end Reader

end ThriftIdl
