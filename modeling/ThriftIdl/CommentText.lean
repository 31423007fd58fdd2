import ThriftIdl.Text

namespace ThriftIdl.CommentText

def beforeClose : List Char → Option (List Char)
  | '*' :: '/' :: _ => some []
  | c :: cs => (beforeClose cs).map (c :: ·)
  | [] => none

theorem eq_append_of_beforeClose {text body : List Char} (h : beforeClose text = some body) :
    ∃ behind, text = body ++ '*' :: '/' :: behind := by
  fun_induction beforeClose text generalizing body with
  | case1 behind => exact ⟨behind, by simp_all⟩
  | case2 c text _ ih =>
    obtain ⟨found, hfound, rfl⟩ := Option.map_eq_some_iff.1 h
    obtain ⟨behind, rfl⟩ := ih hfound
    exact ⟨behind, rfl⟩
  | case3 => simp at h

theorem beforeClose_cons {ch : Char} {x : List Char} (h : ∀ y, ch = '*' → x ≠ '/' :: y) :
    beforeClose (ch :: x) = (beforeClose x).map (ch :: ·) := by
  rw [beforeClose.eq_def]
  split
  · next y heq =>
    obtain ⟨rfl, rfl⟩ := List.cons.inj heq
    exact absurd rfl (h y rfl)
  · next heq =>
    obtain ⟨rfl, rfl⟩ := List.cons.inj heq
    rfl
  · next heq => cases heq

theorem beforeClose_of_not_infix {body : List Char} (h : ¬ ['*', '/'] <:+: body) (x : List Char) :
    beforeClose (body ++ '*' :: '/' :: x) = some body := by
  induction body with
  | nil => rfl
  | cons ch body ih =>
    have hopen : ∀ y, ch = '*' → body ++ '*' :: '/' :: x ≠ '/' :: y := by
      rintro y rfl hy
      cases body with
      | nil => simp at hy
      | cons next body =>
        obtain rfl : next = '/' := (List.cons.inj hy).1
        exact h ⟨[], body, rfl⟩
    have hrest : ¬ ['*', '/'] <:+: body := fun hbody => h (hbody.trans (List.suffix_cons ch body).isInfix)
    rw [List.cons_append, beforeClose_cons hopen, ih hrest]
    rfl

/-- Drops each line's indentation with the star and the blank that may follow it, and all
carriage returns. The flag says that only indentation has been seen on the current line. -/
def stripMargin : Bool → List Char → List Char
  | _, [] => []
  | _, '\n' :: cs => '\n' :: stripMargin true cs
  | fresh, '\r' :: cs => stripMargin fresh cs
  | false, c :: cs => c :: stripMargin false cs
  | true, '*' :: ' ' :: cs => stripMargin false cs
  | true, '*' :: cs => stripMargin false cs
  | true, c :: cs =>
      if Text.isWhiteSpace c then stripMargin true cs else c :: stripMargin false cs

def ofBlock (body : List Char) : List Char :=
  Text.trim Text.isWhiteSpace (stripMargin true body)

def ofLine (line : List Char) : List Char :=
  Text.trimRight (· == '\r') line

def isLineBlank (c : Char) : Bool :=
  c == ' ' || c == '\t' || c == '\r'

def ofTrailing (text : List Char) : List Char :=
  Text.trim isLineBlank text

end ThriftIdl.CommentText
