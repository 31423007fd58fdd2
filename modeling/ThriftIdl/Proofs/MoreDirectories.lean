import Mathlib
import ThriftIdl.Load

namespace ThriftIdl

section Kept

variable {ε α β ι : Type} {r r' : Except ε α}

/-- What one result gives, another gives as well. -/
def Kept (r r' : Except ε α) : Prop := ∀ a, r = .ok a → r' = .ok a

theorem Kept.refl (r : Except ε α) : Kept r r := fun _ h => h

theorem Kept.bind {f f' : α → Except ε β} (h : Kept r r') (hf : ∀ a, Kept (f a) (f' a)) :
    Kept (r >>= f) (r' >>= f') := by
  intro b hb
  cases r with
  | error e => cases hb
  | ok a =>
    rw [h a rfl]
    exact hf a b hb

theorem Kept.foldlM {f f' : α → ι → Except ε α} (hf : ∀ a i, Kept (f a i) (f' a i)) (is : List ι)
    (a : α) : Kept (is.foldlM f a) (is.foldlM f' a) := by
  induction is generalizing a with
  | nil => exact .refl _
  | cons i is ih =>
    rw [List.foldlM_cons, List.foldlM_cons]
    exact (hf a i).bind ih

end Kept

namespace SearchSpace

/-- The same files, with further directories to search after the others. -/
def alsoIn (space : SearchSpace) (more : List PathExpr) : SearchSpace :=
  { space with directories := space.directories ++ more }

/-- The first directory that has a file stays the first one. -/
theorem find?_alsoIn {space : SearchSpace} {directory path : Path} {included : String}
    (more : List PathExpr) (h : space.find? directory included = some path) :
    (space.alsoIn more).find? directory included = some path := by
  have happend : directory.expr :: (space.directories ++ more) =
      (directory.expr :: space.directories) ++ more := rfl
  unfold find? at h ⊢
  rw [alsoIn, happend, List.findSome?_append, h, Option.some_or]

end SearchSpace

namespace Discovery

variable {space : SearchSpace} {programs : List Program} (more : List PathExpr)

theorem followInclude_kept (id : ProgramId) (p : Program) (decl : IncludeDecl) :
    Kept (followInclude space id p programs decl)
      (followInclude (space.alsoIn more) id p programs decl) := by
  unfold followInclude
  cases hfind : space.find? p.path.directory decl.path with
  | none => exact fun _ h => by cases h
  | some path =>
    rw [SearchSpace.find?_alsoIn more hfind]
    exact .refl _

theorem followIncludes_kept (id : ProgramId) :
    Kept (followIncludes space programs id) (followIncludes (space.alsoIn more) programs id) := by
  unfold followIncludes
  split
  · exact .refl _
  · exact .foldlM (fun _ decl => followInclude_kept more id _ decl) _ _

theorem discover_kept (roots : List String) :
    Kept (discover space roots) (discover (space.alsoIn more) roots) :=
  (Kept.refl _).bind fun out =>
    (Kept.foldlM (fun _ id => followIncludes_kept more id) _ out.2).bind fun _ => .refl _

end Discovery

theorem loadPrograms_kept (space : SearchSpace) (more : List PathExpr) (roots : List String) :
    Kept (loadPrograms space roots) (loadPrograms (space.alsoIn more) roots) :=
  (Discovery.discover_kept more roots).bind fun _ => .refl _

/-- Further directories, searched behind the others, change nothing in a load that succeeds: the
programs, their order and the schema with all its handles are the same. -/
theorem load_alsoIn (space : SearchSpace) (more : List PathExpr) (roots : List String)
    (schema : Schema) (h : load space roots = .ok schema) :
    load (space.alsoIn more) roots = .ok schema ∧
      ∃ loaded, loadPrograms space roots = .ok loaded ∧
        loadPrograms (space.alsoIn more) roots = .ok loaded := by
  have hprograms := loadPrograms_kept space more roots
  refine ⟨Kept.bind hprograms (fun _ => .refl _) schema h, ?_⟩
  cases hl : loadPrograms space roots with
  | error e =>
    unfold load at h
    rw [hl] at h
    cases h
  | ok loaded => exact ⟨loaded, rfl, hprograms loaded hl⟩

/-- Two directories have a file of one name, and only the first of them is searched at first. -/
def stocked : SearchSpace :=
  ⟨⟨[(⟨true, ["main.thrift"]⟩, "include \"base.thrift\" struct Item \x7b 1: base.Id id \x7d"),
    (⟨true, ["lib", "base.thrift"]⟩, "typedef i32 Id"),
    (⟨true, ["more", "base.thrift"]⟩, "struct Id \x7b\x7d")], []⟩, [⟨true, [.down "lib"]⟩]⟩

theorem stocked_alsoIn : ∃ schema, load stocked ["/main.thrift"] = .ok schema ∧
    schema.typedefs.map (·.target) = [4] ∧
    load (stocked.alsoIn [⟨true, [.down "more"]⟩]) ["/main.thrift"] = .ok schema ∧
    ∃ loaded, loadPrograms stocked ["/main.thrift"] = .ok loaded ∧
      loadPrograms (stocked.alsoIn [⟨true, [.down "more"]⟩]) ["/main.thrift"] = .ok loaded := by
  have htargets : (load stocked ["/main.thrift"]).map (·.typedefs.map (·.target)) =
      .ok [4] := by cbv
  cases h : load stocked ["/main.thrift"] with
  | error e =>
    rw [h] at htargets
    cases htargets
  | ok schema =>
    rw [h] at htargets
    exact ⟨schema, rfl, Except.ok.inj htargets, load_alsoIn stocked _ _ schema h⟩

end ThriftIdl
