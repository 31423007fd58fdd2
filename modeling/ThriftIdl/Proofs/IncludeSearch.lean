import ThriftIdl.Proofs.CanonicalPaths
import ThriftIdl.Proofs.SymbolTables
import ThriftIdl.SearchSpace

namespace ThriftIdl.SearchSpace

/-- Taken from a directory, an include leads to a path under which there is a file. -/
def LeadsTo (space : SearchSpace) (included : String) (base : PathExpr) (path : Path) : Prop :=
  (base.join (.ofString included)).normalize = path ∧ path ∈ space.store.files.map Prod.fst

/-- The file that an include finds: the one next to the including file, or else the one in the first
directory where there is one. -/
inductive Finds (space : SearchSpace) (directory : Path) (included : String) (path : Path) : Prop
  | beside (here : space.LeadsTo included directory.expr path)
  | searched {before after : List PathExpr} {base : PathExpr}
      (directories : space.directories = before ++ base :: after)
      (there : space.LeadsTo included base path)
      (nowhere : ∀ earlier ∈ directory.expr :: before, ∀ path',
        ¬ space.LeadsTo included earlier path')

section Find

variable {space : SearchSpace} {directory path : Path} {included : String} {base : PathExpr}

theorem canonicalize_iff_leadsTo :
    (space.store.canonicalize (SourceStore.resolveInclude base (.ofString included)).expr).toOption =
      some path ↔ space.LeadsTo included base path := by
  have hok (found : Except SourceFault Path) : found.toOption = some path ↔ found = .ok path := by
    cases found <;> simp [Except.toOption]
  rw [hok, SourceStore.canonicalize_ok_iff, Path.normalize_expr, lookup_isSome]
  unfold LeadsTo SourceStore.resolveInclude
  rw [eq_comm]

theorem canonicalize_eq_none_iff :
    (space.store.canonicalize (SourceStore.resolveInclude base (.ofString included)).expr).toOption =
      none ↔ ∀ path, ¬ space.LeadsTo included base path := by
  simp only [Option.eq_none_iff_forall_ne_some, ne_eq, canonicalize_iff_leadsTo]

theorem find?_eq_some_iff :
    space.find? directory included = some path ↔ space.Finds directory included path := by
  unfold find?
  rw [List.findSome?_eq_some_iff]
  simp only [canonicalize_iff_leadsTo, canonicalize_eq_none_iff]
  constructor
  · rintro ⟨passed, base, after, he, hbase, hnone⟩
    cases passed with
    | nil =>
      obtain ⟨rfl, -⟩ := List.cons.inj he
      exact .beside hbase
    | cons first before =>
      obtain ⟨rfl, hdirectories⟩ := List.cons.inj he
      exact .searched hdirectories hbase hnone
  · rintro (hhere | @⟨before, after, base, he, hbase, hnone⟩)
    · exact ⟨[], directory.expr, space.directories, rfl, hhere, nofun⟩
    · exact ⟨directory.expr :: before, base, after, by rw [he, List.cons_append], hbase, hnone⟩

/-- An include that finds nothing leads to no file from anywhere. -/
theorem find?_eq_none_iff : space.find? directory included = none ↔
    ∀ base ∈ directory.expr :: space.directories, ∀ path, ¬ space.LeadsTo included base path := by
  unfold find?
  rw [List.findSome?_eq_none_iff]
  simp only [canonicalize_eq_none_iff]

end Find

end ThriftIdl.SearchSpace
