import ThriftIdl.Proofs.SourcePositions

namespace ThriftIdl

namespace Reader

/-- One turn of reading declarations, behind those found so far. -/
def declarationsTurn (again : List Declaration → Reader (List Declaration))
    (found : List Declaration) : Reader (List Declaration) := do
  let doc ← documentation
  if (← rest) = [] then
    return found
  else
    let decl ← declaration doc
    if decl.isHeader && found.any (!·.isHeader) then
      failAt decl.position .lateHeader
    else
      again (found ++ [decl])

/-- Declarations up to the end of the text, behind others. -/
def declarationsAfter (found : List Declaration) : Reader (List Declaration) :=
  fix declarationsTurn found

theorem declarations_eq : declarations = declarationsAfter [] := rfl

end Reader

/-- On the way from one point to another, declarations are read one after another, each with its
documentation. -/
inductive Cursor.Declares : Cursor → List Declaration → Cursor → Prop
  | nil (c : Cursor) : Declares c [] c
  | cons {c d e f : Cursor} {doc : String} {decl : Declaration} {more : List Declaration}
      (hdoc : Reader.documentation.run c = .ok (doc, d))
      (hdecl : (Reader.declaration doc).run d = .ok (decl, e)) (rest : Declares e more f) :
      Declares c (decl :: more) f

namespace Reader

variable {c d e f : Cursor} {doc : String} {decl : Declaration} {found more : List Declaration}

theorem documentation_run_onward (hdoc : documentation.run c = .ok (doc, d)) :
    c.Onward d ∧ Stops beginsGap d.rest := by
  obtain ⟨hcd, -, hstops⟩ := Ends.of_ok (walks_documentation (.refl c)) hdoc
  exact ⟨hcd, hstops⟩

theorem declaration_run_past (hdoc : documentation.run c = .ok (doc, d))
    (hdecl : (declaration doc).run d = .ok (decl, e)) : c.Past e := by
  obtain ⟨hcd, hstops⟩ := documentation_run_onward hdoc
  exact .of_onward hcd (Ends.of_ok (walks_declaration doc (.refl d) hstops) hdecl).2.1

theorem declaration_run_begins (hdecl : (declaration doc).run d = .ok (decl, e))
    (hdoc : documentation.run c = .ok (doc, d)) : d.rest ≠ [] := by
  intro hnil
  have hlt := (Ends.of_ok (walks_declaration doc (.refl d)
    (documentation_run_onward hdoc).2) hdecl).2.1.shorter
  rw [hnil] at hlt
  exact Nat.not_lt_zero _ hlt

theorem declarationsAfter_run (hdoc : documentation.run c = .ok (doc, d)) :
    (declarationsAfter found).run c = (if d.rest = [] then return found else do
      let decl ← declaration doc
      if decl.isHeader && found.any (!·.isHeader) then
        failAt decl.position .lateHeader
      else
        guarded c.rest.length (declarationsAfter (found ++ [decl]))).run d := by
  rw [declarationsAfter, fix_run]
  exact bind_run_of_ok hdoc

theorem declarationsAfter_run_end (hdoc : documentation.run c = .ok (doc, d))
    (hend : d.rest = []) : (declarationsAfter found).run c = .ok (found, d) := by
  rw [declarationsAfter_run hdoc, if_pos hend]
  rfl

theorem declarationsAfter_run_late (hdoc : documentation.run c = .ok (doc, d))
    (hdecl : (declaration doc).run d = .ok (decl, e)) (hheader : decl.isHeader = true)
    (hlate : found.any (!·.isHeader) = true) :
    (declarationsAfter found).run c = .error ⟨decl.position, .lateHeader⟩ := by
  rw [declarationsAfter_run hdoc, if_neg (declaration_run_begins hdecl hdoc),
    bind_run_of_ok hdecl, if_pos (by rw [hheader, hlate]; rfl)]
  rfl

theorem declarationsAfter_run_next (hdoc : documentation.run c = .ok (doc, d))
    (hdecl : (declaration doc).run d = .ok (decl, e))
    (hplaced : (decl.isHeader && found.any (!·.isHeader)) = false) :
    (declarationsAfter found).run c = (declarationsAfter (found ++ [decl])).run e := by
  rw [declarationsAfter_run hdoc, if_neg (declaration_run_begins hdecl hdoc),
    bind_run_of_ok hdecl, if_neg (by rw [hplaced]; exact Bool.false_ne_true)]
  exact guarded_run_of_lt (declaration_run_past hdoc hdecl).shorter

theorem placed_of_falling
    (h : Falling ((found ++ decl :: more).map (·.isHeader))) :
    (decl.isHeader && found.any (!·.isHeader)) = false := by
  cases hheader : decl.isHeader with
  | false => rfl
  | true =>
    rw [List.map_append, List.map_cons, hheader] at h
    have hfound : ∀ x ∈ found, x.isHeader = true := fun x hx =>
      h.before _ (List.mem_map_of_mem hx)
    simpa using hfound

/-- Past declarations in order, reading goes on behind them. -/
theorem run_of_declares (h : c.Declares more d) (found : List Declaration)
    (hfalling : Falling ((found ++ more).map (·.isHeader))) :
    (declarationsAfter found).run c = (declarationsAfter (found ++ more)).run d := by
  induction h generalizing found with
  | nil => rw [List.append_nil]
  | cons hdoc hdecl _ ih =>
    rw [declarationsAfter_run_next hdoc hdecl (placed_of_falling hfalling), ih, List.append_assoc]
    · rfl
    · rwa [List.append_assoc]

/-- What is read to the end are declarations with nothing but a gap behind them. -/
theorem declares_of_run (found : List Declaration) (c : Cursor) :
    Ends (declarationsAfter found) c (fun all f => ∃ more e doc, all = found ++ more ∧
      c.Declares more e ∧ documentation.run e = .ok (doc, f) ∧ f.rest = []) fun _ => True := by
  refine ends_fix (Q := fun found c all f => ∃ more e doc, all = found ++ more ∧
    c.Declares more e ∧ documentation.run e = .ok (doc, f) ∧ f.rest = []) ?_ found c
  intro again hagain found c
  cases hdoc : documentation.run c with
  | error e =>
    unfold Ends declarationsTurn
    rw [bind_run_of_error hdoc]
    trivial
  | ok out =>
    obtain ⟨doc, d⟩ := out
    unfold Ends declarationsTurn
    rw [bind_run_of_ok hdoc, bind_run_of_ok (a := d.rest) (d := d) rfl]
    split
    · next hend => exact ⟨[], c, doc, (List.append_nil _).symm, .nil c, hdoc, hend⟩
    · cases hdecl : (declaration doc).run d with
      | error e =>
        rw [bind_run_of_error hdecl]
        trivial
      | ok out =>
        obtain ⟨decl, e⟩ := out
        rw [bind_run_of_ok hdecl]
        split
        · trivial
        · refine Gives.imp (hagain (found ++ [decl]) e) ?_ fun _ he => he
          rintro ⟨all, f⟩ ⟨more, g, doc', rfl, hmore, hlast⟩
          exact ⟨decl :: more, g, doc', by simp, .cons hdoc hdecl hmore, hlast⟩

end Reader

theorem Cursor.Declares.onward {c d : Cursor} {found : List Declaration}
    (h : c.Declares found d) : c.Onward d := by
  induction h with
  | nil c => exact .refl c
  | cons hdoc hdecl _ ih => exact (Reader.declaration_run_past hdoc hdecl).onward.trans ih

end ThriftIdl
