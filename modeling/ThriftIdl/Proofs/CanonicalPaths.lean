import Mathlib.Data.List.Induction
import ThriftIdl.Proofs.PathTexts
import ThriftIdl.SourceStore

namespace ThriftIdl

namespace PathExpr

/-- What a part of a path does to the names that lead from the root to a place. There is nothing
above the root. -/
def lexicalStep (names : List String) (part : List Char) : List String :=
  if part = [] ∨ part = ['.'] then names
  else if part = ['.', '.'] then names.dropLast
  else names ++ [String.ofList part]

/-- The names that lead from the root to the place that an absolute path is for. -/
def lexical (text : String) : List String :=
  (text.toList.splitOn '/').foldl lexicalStep []

/-- Going up where there are no names left. -/
def ClimbsFrom (names : List String) (parts : List (List Char)) : Prop :=
  ∃ before after, parts = before ++ ['.', '.'] :: after ∧ before.foldl lexicalStep names = []

/-- A path that at some point goes up from the root. -/
def Climbs (text : String) : Prop := ClimbsFrom [] (text.toList.splitOn '/')

def IsAbsolute (text : String) : Prop := text.toList.head? = some '/'

instance (text : String) : Decidable (IsAbsolute text) :=
  inferInstanceAs (Decidable (_ = _))

variable {names : List String} {part : List Char} {parts : List (List Char)}

theorem not_climbsFrom_nil (names : List String) : ¬ ClimbsFrom names [] := by
  rintro ⟨before, after, h, -⟩
  simp at h

theorem climbsFrom_cons : ClimbsFrom names (part :: parts) ↔
    part = ['.', '.'] ∧ names = [] ∨ ClimbsFrom (lexicalStep names part) parts := by
  constructor
  · rintro ⟨before, after, hparts, hnames⟩
    cases before with
    | nil => exact .inl ⟨(List.cons.inj hparts).1, hnames⟩
    | cons first before =>
      obtain rfl := (List.cons.inj hparts).1
      exact .inr ⟨before, after, (List.cons.inj hparts).2, hnames⟩
  · rintro (⟨rfl, rfl⟩ | ⟨before, after, rfl, hnames⟩)
    · exact ⟨[], parts, rfl, rfl⟩
    · exact ⟨part :: before, after, rfl, hnames⟩

theorem rooted_follow_up (p : Path) :
    (p.follow .up).rooted = true ↔ p.rooted = true ∧ p.names ≠ [] := by
  change (if p.names = [] then Path.here else ⟨p.rooted, p.names.dropLast⟩).rooted = true ↔ _
  split
  · next h => simp [h, Path.here]
  · next h => simp [h]

theorem foldl_follow (p : Path) (parts : List (List Char)) :
    ((parts.filterMap stepOf).foldl Path.follow p).names = parts.foldl lexicalStep p.names ∧
      (((parts.filterMap stepOf).foldl Path.follow p).rooted = true ↔
        p.rooted = true ∧ ¬ ClimbsFrom p.names parts) := by
  induction parts generalizing p with
  | nil => simp [not_climbsFrom_nil]
  | cons part parts ih =>
    rw [climbsFrom_cons, List.foldl_cons]
    by_cases hstay : part = [] ∨ part = ['.']
    · have hother : part ≠ ['.', '.'] := by rcases hstay with rfl | rfl <;> decide
      have hnone : stepOf part = none := if_pos hstay
      rw [lexicalStep, if_pos hstay, List.filterMap_cons_none hnone]
      simpa [hother] using ih p
    by_cases hup : part = ['.', '.']
    · subst hup
      have hstep := ih (p.follow .up)
      rw [Path.names_follow_up, rooted_follow_up] at hstep
      refine ⟨hstep.1, hstep.2.trans ?_⟩
      simp only [true_and, not_or, and_assoc]
      rfl
    · have hdown : stepOf part = some (.down (String.ofList part)) := by
        rw [stepOf, if_neg hstay, if_neg hup]
      rw [lexicalStep, if_neg hstay, if_neg hup, List.filterMap_cons_some hdown]
      simp only [hup, false_and, false_or]
      exact ih (p.follow (.down (String.ofList part)))

theorem names_normalize (text : String) : (ofString text).normalize.names = lexical text := by
  rw [lexical, ← parts_eq_splitOn]
  exact (foldl_follow _ _).1

theorem rooted_normalize_iff (text : String) :
    (ofString text).normalize.rooted = true ↔ IsAbsolute text ∧ ¬ Climbs text := by
  rw [Climbs, ← parts_eq_splitOn]
  refine (foldl_follow _ _).2.trans (and_congr_left fun _ => ?_)
  exact decide_eq_true_iff

theorem normalize_eq_iff {p q : String} (hp : IsAbsolute p) (hq : IsAbsolute q) :
    (ofString p).normalize = (ofString q).normalize ↔
      lexical p = lexical q ∧ (Climbs p ↔ Climbs q) := by
  have hrooted : (ofString p).normalize.rooted = (ofString q).normalize.rooted ↔
      (Climbs p ↔ Climbs q) := by
    rw [Bool.eq_iff_iff, rooted_normalize_iff, rooted_normalize_iff]
    simp only [hp, hq, true_and, not_iff_not]
  rw [← names_normalize, ← names_normalize, ← hrooted]
  cases (ofString p).normalize
  cases (ofString q).normalize
  rw [Path.mk.injEq, and_comm]

theorem isAbsolute_joined {base : String} (h : IsAbsolute base) (path : String) :
    IsAbsolute (joined base path) := by
  unfold joined
  split
  · next hpath =>
    obtain hpath | rfl := hpath
    · exact hpath
    · cases h
  · obtain ⟨rest, hbase⟩ := List.head?_eq_some_iff.1 h
    simp [IsAbsolute, hbase]

/-- A path that has been normalized reads back from its text as it is. -/
theorem normalize_render (text : String) :
    (ofString (ofString text).normalize.render).normalize = (ofString text).normalize := by
  rw [Path.ofString_render fun _ => isName_of_mem_normalize, Path.normalize_expr]

theorem normalize_join_render (base path : String) :
    ((ofString (ofString base).normalize.render).join (ofString path)).normalize =
      ((ofString base).join (ofString path)).normalize := by
  rw [Path.ofString_render fun _ => isName_of_mem_normalize, join, join]
  split
  · rfl
  · have hback := Path.normalize_expr (ofString base).normalize
    unfold normalize at hback ⊢
    rw [List.foldl_append, List.foldl_append, hback]

end PathExpr

namespace SourceStore

open PathExpr (IsAbsolute Climbs lexical joined)

variable {store : SourceStore} {p q : String}

theorem canonicalize_congr {p q : PathExpr} (h : p.normalize = q.normalize)
    (store : SourceStore) : store.canonicalize p = store.canonicalize q ∧ store.read p = store.read q := by
  simp only [canonicalize, read, h, and_self]

theorem canonicalize_ok_iff {p : PathExpr} {path : Path} : store.canonicalize p = .ok path ↔
    path = p.normalize ∧ (store.files.lookup path).isSome = true := by
  simp only [canonicalize]
  split
  · next h =>
    rw [Except.ok.injEq]
    constructor
    · rintro rfl
      exact ⟨rfl, h⟩
    · exact fun h => h.1.symm
  · next h =>
    constructor
    · nofun
    · rintro ⟨rfl, hsome⟩
      exact absurd hsome h

theorem normalize_eq_of_canonicalize {p q : PathExpr}
    (h : ∀ store : SourceStore, store.canonicalize p = store.canonicalize q) :
    p.normalize = q.normalize := by
  have hfound : (⟨[(p.normalize, "")], []⟩ : SourceStore).canonicalize p = .ok p.normalize := by
    rw [canonicalize_ok_iff]
    simp
  rw [h, canonicalize_ok_iff] at hfound
  exact hfound.1

/-- Absolute paths for the same place are the same to every store exactly if both of them go up from
the root or neither does, and a path that goes up from the root is no longer absolute. -/
theorem canonicalize_lexical (hp : IsAbsolute p) (hq : IsAbsolute q) (hsame : lexical p = lexical q) :
    ((∀ store : SourceStore, store.canonicalize (.ofString p) = store.canonicalize (.ofString q) ∧
        store.read (.ofString p) = store.read (.ofString q)) ↔ (Climbs p ↔ Climbs q)) ∧
      (PathExpr.ofString p).normalize.names = lexical p ∧
      ((PathExpr.ofString p).normalize.rooted = true ↔ ¬ Climbs p) ∧
      ∀ included, (resolveInclude (.ofString p) (.ofString included)).rooted = true ↔
        ¬ Climbs (joined p included) := by
  refine ⟨?_, PathExpr.names_normalize p, ?_, fun included => ?_⟩
  · have hiff := PathExpr.normalize_eq_iff hp hq
    constructor
    · intro h
      exact (hiff.1 (normalize_eq_of_canonicalize fun store => (h store).1)).2
    · intro h
      exact canonicalize_congr (hiff.2 ⟨hsame, h⟩)
  · rw [PathExpr.rooted_normalize_iff, and_iff_right hp]
  · rw [resolveInclude, ← PathExpr.ofString_joined, PathExpr.rooted_normalize_iff,
      and_iff_right (PathExpr.isAbsolute_joined hp included)]

def oneFile : SourceStore := ⟨[(⟨true, ["a", "c"]⟩, "struct S \x7b\x7d")], []⟩

theorem detours_canonicalize : lexical "/a//b/../c" = lexical "/./a/c/d/.." ∧
    oneFile.canonicalize (.ofString "/a//b/../c") = .ok ⟨true, ["a", "c"]⟩ ∧
      oneFile.canonicalize (.ofString "/./a/c/d/..") = .ok ⟨true, ["a", "c"]⟩ := by
  have hsame : lexical "/a//b/../c" = lexical "/./a/c/d/.." := by decide
  have hfound : oneFile.canonicalize (.ofString "/a//b/../c") = .ok ⟨true, ["a", "c"]⟩ := by decide
  obtain ⟨halike, -, hp, -⟩ := canonicalize_lexical (p := "/a//b/../c") (q := "/./a/c/d/..")
    (by decide) (by decide) hsame
  obtain ⟨-, -, hq, -⟩ := canonicalize_lexical (p := "/./a/c/d/..") (q := "/a//b/../c")
    (by decide) (by decide) hsame.symm
  have hneither := iff_of_false (hp.1 (by decide)) (hq.1 (by decide))
  exact ⟨hsame, hfound, (halike.2 hneither oneFile).1 ▸ hfound⟩

/-- Going up from the root leaves it. -/
theorem aboveRoot_notFound : lexical "/../a/c" = lexical "/a/c" ∧
    oneFile.canonicalize (.ofString "/a/c") = .ok ⟨true, ["a", "c"]⟩ ∧
      oneFile.canonicalize (.ofString "/../a/c") = .error (.notFound ⟨false, ["a", "c"]⟩) := by
  decide

section Files

variable {path q : Path} {text said : String} {written : PathExpr}
  {files : List (PathExpr × String)}

theorem lookup_filter_ne (files : List (Path × String)) (h : path ≠ q) :
    (files.filter (·.1 ≠ q)).lookup path = files.lookup path := by
  induction files with
  | nil => rfl
  | cons file files ih =>
    by_cases hfile : file.1 = q
    · have hother : (path == file.1) = false := by simpa [hfile] using h
      rw [List.filter_cons_of_neg (by simpa using hfile), ih, List.lookup_cons, hother]
    · rw [List.filter_cons_of_pos (by simpa using hfile), List.lookup_cons, List.lookup_cons, ih]

theorem lookup_insert (store : SourceStore) (written : PathExpr) (text : String) (path : Path) :
    (store.insert written text).files.lookup path =
      if path = written.normalize then some text else store.files.lookup path := by
  rw [insert, List.lookup_append, List.lookup_cons]
  by_cases h : path = written.normalize
  · have hnone : (store.files.filter (·.1 ≠ written.normalize)).lookup path = none := by
      rw [List.lookup_eq_none_iff]
      intro file hfile
      have hother : file.1 ≠ written.normalize := by simpa using (List.mem_filter.1 hfile).2
      rw [h, bne_iff_ne]
      exact hother.symm
    rw [if_pos h, hnone]
    simp [h]
  · rw [if_neg h, lookup_filter_ne _ h, beq_eq_false_iff_ne.2 h]
    exact Option.or_none

/-- The text of the last file that was put at a path. -/
def LastAt (files : List (PathExpr × String)) (path : Path) (text : String) : Prop :=
  ∃ before written after, files = before ++ (written, text) :: after ∧ written.normalize = path ∧
    ∀ later ∈ after, later.1.normalize ≠ path

theorem lastAt_snoc : LastAt (files ++ [(written, said)]) path text ↔
    if path = written.normalize then said = text else LastAt files path text := by
  constructor
  · rintro ⟨before, first, after, heq, hpath, hlater⟩
    obtain rfl | ⟨init, last, rfl⟩ := after.eq_nil_or_concat'
    · obtain ⟨rfl, hlast⟩ := List.append_inj' heq rfl
      obtain ⟨rfl, rfl⟩ := Prod.mk.inj (List.cons.inj hlast).1
      rw [if_pos hpath.symm]
    · rw [← List.cons_append, ← List.append_assoc] at heq
      obtain ⟨rfl, hlast⟩ := List.append_inj' heq rfl
      obtain rfl := (List.cons.inj hlast).1
      have hother := hlater (written, said) (by simp)
      rw [if_neg hother.symm]
      exact ⟨before, first, init, rfl, hpath, fun later hm => hlater later (by simp [hm])⟩
  · split
    · rintro rfl
      next h => exact ⟨files, written, [], rfl, h.symm, by simp⟩
    · rintro ⟨before, first, after, rfl, hpath, hlater⟩
      next h =>
      refine ⟨before, first, after ++ [(written, said)], by simp, hpath, ?_⟩
      rw [List.forall_mem_append]
      exact ⟨hlater, by simpa using Ne.symm h⟩

theorem ofFiles_snoc (files : List (PathExpr × String)) (written : PathExpr) (text : String) :
    ofFiles (files ++ [(written, text)]) = (ofFiles files).insert written text := by
  simp [ofFiles]

theorem locked_ofFiles (files : List (PathExpr × String)) : (ofFiles files).locked = [] := by
  induction files using List.reverseRecOn with
  | nil => rfl
  | append_singleton files file ih => rw [ofFiles_snoc, insert, ih]

theorem lookup_ofFiles (files : List (PathExpr × String)) (path : Path) (text : String) :
    (ofFiles files).files.lookup path = some text ↔ LastAt files path text := by
  induction files using List.reverseRecOn with
  | nil => simp [ofFiles, empty, LastAt]
  | append_singleton files file ih =>
    rw [ofFiles_snoc, lookup_insert, lastAt_snoc]
    split
    · rw [Option.some.injEq]
    · exact ih

theorem canonicalize_ofFiles {p : PathExpr} : (ofFiles files).canonicalize p = .ok path ↔
    path = p.normalize ∧ ∃ text, LastAt files path text := by
  rw [canonicalize_ok_iff, Option.isSome_iff_exists]
  simp only [lookup_ofFiles]

theorem read_ofFiles {p : PathExpr} :
    (ofFiles files).read p = .ok text ↔ LastAt files p.normalize text := by
  rw [← lookup_ofFiles]
  simp only [read, locked_ofFiles, List.not_mem_nil, if_false]
  split
  · next h => rw [h, Except.ok.injEq, Option.some.injEq]
  · next h => simp [h]

theorem ofFiles_fault {p : PathExpr} {fault : SourceFault} :
    (ofFiles files).canonicalize p = .error fault ↔ (ofFiles files).read p = .error fault := by
  simp only [canonicalize, read, locked_ofFiles, List.not_mem_nil, if_false]
  cases (ofFiles files).files.lookup p.normalize <;> simp

/-- Every file is found under one path, whatever spelling it was put or asked for with, and what is
read there is what was put there last. -/
theorem ofFiles_coherent (files : List (PathExpr × String)) (p b i : String) :
    (PathExpr.ofString (PathExpr.ofString p).normalize.render).normalize =
        (PathExpr.ofString p).normalize ∧
      (∀ q, (ofFiles files).canonicalize (.ofString p) = .ok q ↔
        q = (PathExpr.ofString p).normalize ∧ ∃ text, LastAt files q text) ∧
      (∀ q, (ofFiles files).canonicalize (.ofString p) = .ok q →
        (ofFiles files).canonicalize (.ofString q.render) = .ok q ∧ ∃ text, LastAt files q text ∧
          (ofFiles files).read (.ofString p) = .ok text ∧
            (ofFiles files).read (.ofString q.render) = .ok text) ∧
      (∀ fault, (ofFiles files).canonicalize (.ofString p) = .error fault ↔
        (ofFiles files).read (.ofString p) = .error fault) ∧
      resolveInclude (.ofString b) (.ofString i) =
        resolveInclude (.ofString (PathExpr.ofString b).normalize.render) (.ofString i) ∧
      (ofFiles files).canonicalize
          (.ofString (resolveInclude (.ofString b) (.ofString i)).render) =
        (ofFiles files).canonicalize (.ofString (joined b i)) := by
  have hback := PathExpr.normalize_render p
  refine ⟨hback, fun q => canonicalize_ofFiles, fun q hq => ?_, fun _ => ofFiles_fault, ?_, ?_⟩
  · obtain ⟨rfl, text, hlast⟩ := canonicalize_ofFiles.1 hq
    refine ⟨canonicalize_ofFiles.2 ⟨hback.symm, text, hlast⟩, text, hlast, read_ofFiles.2 hlast, ?_⟩
    rw [read_ofFiles, hback]
    exact hlast
  · exact (PathExpr.normalize_join_render b i).symm
  · rw [resolveInclude, ← PathExpr.ofString_joined]
    exact (canonicalize_congr (PathExpr.normalize_render (joined b i)) _).1

/-- One file, put twice under two spellings. -/
def respelled : List (PathExpr × String) :=
  [(.ofString "/a/x", "one"), (.ofString "/a/./b/../x", "two")]

theorem respelled_coherent :
    (ofFiles respelled).canonicalize (.ofString "/a//x") = .ok ⟨true, ["a", "x"]⟩ ∧
      (ofFiles respelled).canonicalize (.ofString (Path.render ⟨true, ["a", "x"]⟩)) =
        .ok ⟨true, ["a", "x"]⟩ ∧ LastAt respelled ⟨true, ["a", "x"]⟩ "two" ∧
      (ofFiles respelled).read (.ofString "/a//x") = .ok "two" ∧
      (ofFiles respelled).read (.ofString (Path.render ⟨true, ["a", "x"]⟩)) = .ok "two" := by
  have hfound : (ofFiles respelled).canonicalize (.ofString "/a//x") = .ok ⟨true, ["a", "x"]⟩ := by
    decide
  have htwo : (ofFiles respelled).read (.ofString "/a//x") = .ok "two" := by decide
  obtain ⟨hback, text, hlast, hread, hagain⟩ :=
    (ofFiles_coherent respelled "/a//x" "/a" "x").2.2.1 _ hfound
  obtain rfl : text = "two" := Except.ok.inj (hread.symm.trans htwo)
  exact ⟨hfound, hback, hlast, hread, hagain⟩

end Files

end SourceStore

end ThriftIdl
