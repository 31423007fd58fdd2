import Mathlib.Data.List.Basic
import ThriftIdl.Path

namespace ThriftIdl

namespace PathExpr

variable {part : List Char} {name : String}

theorem parts_eq_splitOn (text : List Char) : parts text = text.splitOn '/' := by
  fun_induction parts text with
  | case1 => rfl
  | case2 text ih => simp [List.splitOn_cons_eq_if_modifyHead, ih]
  | case3 ch text hch hnone ih => exact absurd (ih.symm.trans hnone) (List.splitOn_ne_nil _ _)
  | case4 ch text hch first others hparts ih =>
    have hne : ch ≠ '/' := fun heq => hch heq
    simp [List.splitOn_cons_eq_if_modifyHead, hne, ← ih, hparts]

theorem parts_append (s t : List Char) : parts (s ++ '/' :: t) = parts s ++ parts t := by
  simp only [parts_eq_splitOn]
  exact List.splitOn_append_cons_self s t

theorem slash_not_mem {text : List Char} (h : part ∈ parts text) : '/' ∉ part := by
  fun_induction parts text generalizing part with
  | case1 => simp_all
  | case2 text ih =>
    obtain rfl | h := List.mem_cons.1 h
    · exact List.not_mem_nil
    · exact ih h
  | case3 ch text hch _ _ =>
    rw [List.mem_singleton.1 h, List.mem_singleton]
    exact fun heq => hch heq.symm
  | case4 ch text hch first others hparts ih =>
    rw [hparts] at ih
    obtain rfl | h := List.mem_cons.1 h
    · rw [List.mem_cons, not_or]
      exact ⟨fun heq => hch heq.symm, ih List.mem_cons_self⟩
    · exact ih (List.mem_cons_of_mem _ h)

/-- A name that a path can be written with. -/
structure IsName (name : String) : Prop where
  unslashed : '/' ∉ name.toList
  step : stepOf name.toList = some (.down name)

theorem IsName.ne_nil (h : IsName name) : name.toList ≠ [] := by
  intro hnil
  have hstep := h.step
  rw [hnil] at hstep
  cases hstep

theorem eq_toList_of_stepOf (h : stepOf part = some (.down name)) : part = name.toList := by
  unfold stepOf at h
  split at h
  · cases h
  split at h
  · cases h
  · obtain rfl := PathStep.down.inj (Option.some.inj h)
    rw [String.toList_ofList]

theorem isName_of_mem_steps {text : String} (h : .down name ∈ (ofString text).steps) :
    IsName name := by
  obtain ⟨part, hpart, hstep⟩ := List.mem_filterMap.1 h
  have hname := eq_toList_of_stepOf hstep
  rw [hname] at hpart hstep
  exact ⟨slash_not_mem hpart, hstep⟩

/-- The text of a path that is followed from another place than the root. -/
def joined (base path : String) : String :=
  if path.toList.head? = some '/' ∨ base = "" then path else base ++ "/" ++ path

theorem ofString_joined (base path : String) :
    ofString (joined base path) = (ofString base).join (ofString path) := by
  unfold joined join
  by_cases hrooted : path.toList.head? = some '/'
  · have hroot : (ofString path).rooted = true := decide_eq_true hrooted
    rw [if_pos (.inl hrooted), if_pos hroot]
  have hroot : ¬ (ofString path).rooted = true := by simpa [ofString] using hrooted
  rw [if_neg hroot]
  by_cases hbase : base = ""
  · subst hbase
    rw [if_pos (.inr rfl)]
    simp [ofString, hrooted, parts, stepOf]
  · obtain ⟨ch, rest, hcons⟩ := List.exists_cons_of_ne_nil (mt String.toList_eq_nil_iff.1 hbase)
    have htext : (base ++ "/" ++ path).toList = base.toList ++ '/' :: path.toList := by simp
    rw [if_neg (by simp [hrooted, hbase]), ofString, htext, parts_append, List.filterMap_append,
      hcons, List.cons_append]
    simp [ofString, hcons]

end PathExpr

namespace Path

open PathExpr (IsName)

variable {p : Path} {name : String}

theorem names_follow_up (p : Path) : (p.follow .up).names = p.names.dropLast := by
  change (if p.names = [] then here else ⟨p.rooted, p.names.dropLast⟩).names = _
  split
  · next h => simp [h, here]
  · rfl

theorem mem_of_foldl_follow {steps : List PathStep}
    (h : name ∈ (steps.foldl follow p).names) : name ∈ p.names ∨ .down name ∈ steps := by
  induction steps generalizing p with
  | nil => exact .inl h
  | cons step steps ih =>
    obtain hstep | hsteps := ih h
    · cases step with
      | up =>
        rw [names_follow_up] at hstep
        exact .inl ((List.dropLast_sublist _).subset hstep)
      | down last =>
        obtain hp | hlast := List.mem_append.1 hstep
        · exact .inl hp
        · rw [List.mem_singleton.1 hlast]
          exact .inr List.mem_cons_self
    · exact .inr (List.mem_cons_of_mem _ hsteps)

theorem toList_render (p : Path) : p.render.toList =
    (if p.rooted then ['/'] else []) ++ ['/'].intercalate (p.names.map String.toList) := by
  rw [render, String.toList_append, String.toList_intercalate]
  split <;> rfl

section Rendering

variable (h : ∀ name ∈ p.names, IsName name)

include h

theorem steps_of_names : (PathExpr.parts (['/'].intercalate (p.names.map String.toList))).filterMap
    PathExpr.stepOf = p.names.map .down := by
  by_cases hnames : p.names = []
  · simp [hnames, PathExpr.parts, PathExpr.stepOf]
  · rw [PathExpr.parts_eq_splitOn, List.splitOn_intercalate _ ?_ (by simpa using hnames),
      List.filterMap_map, List.filterMap_eq_map_iff_forall_eq_some]
    · exact fun name hname => (h name hname).step
    · intro part hpart
      obtain ⟨name, hname, rfl⟩ := List.mem_map.1 hpart
      exact (h name hname).unslashed

theorem head?_names_ne :
    (['/'].intercalate (p.names.map String.toList)).head? ≠ some '/' := by
  cases hnames : p.names with
  | nil => simp
  | cons name names =>
    have hname := h name (by simp [hnames])
    obtain ⟨ch, rest, hcons⟩ := List.exists_cons_of_ne_nil hname.ne_nil
    have hch : ch ≠ '/' := by
      rintro rfl
      exact hname.unslashed (by simp [hcons])
    cases names with
    | nil => simp [hcons, hch]
    | cons next names => simp [hcons, hch]

/-- A path whose names can be written reads back from its text. -/
theorem ofString_render : PathExpr.ofString p.render = p.expr := by
  have hsteps := steps_of_names h
  have hhead := head?_names_ne h
  unfold PathExpr.ofString expr
  rw [toList_render]
  cases hroot : p.rooted with
  | true => simp [PathExpr.parts, PathExpr.stepOf, hsteps]
  | false => simp [hsteps, hhead]

end Rendering

end Path

theorem PathExpr.isName_of_mem_normalize {text name : String}
    (h : name ∈ (ofString text).normalize.names) : IsName name := by
  obtain h | h := Path.mem_of_foldl_follow h
  · cases h
  · exact isName_of_mem_steps h

end ThriftIdl
