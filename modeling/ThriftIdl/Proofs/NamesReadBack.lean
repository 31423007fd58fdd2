import ThriftIdl.Proofs.CanonicalNames
import ThriftIdl.Proofs.CanonicalReading
import ThriftIdl.Proofs.TypeResolution
import ThriftIdl.Proofs.TypeSpellings

namespace ThriftIdl

def TypeExpr.mapNames (f : String → String) : TypeExpr → TypeExpr
  | named name => .named (f name)
  | list element => .list (element.mapNames f)
  | set element => .set (element.mapNames f)
  | map key value => .map (key.mapNames f) (value.mapNames f)

/-- The name under which a program has the symbol that another one sees by a name, which may be
qualified. -/
def Program.declaredAs? (p : Program) (name : String) : Option String :=
  if (p.typeSymbol name).isSome then some name
  else (p.unqualified? name).filter fun bare => (p.typeSymbol bare).isSome

/-- A name as it was declared: without the stem of the included file through which it was found. -/
def declaredName (programs : List Program) (program : ProgramId) (name : String) : String :=
  match programs[program]? with
  | none => name
  | some p =>
    if (p.typeSymbol name).isSome then name
    else (p.includes.findSome? fun inc => programs[inc.target]?.bind (·.declaredAs? name)).getD name

/-- A name that a program uses is that of a declared type, as it was declared or behind the stem of
the declaring file. -/
def FoundAs (programs : List Program) (program : ProgramId) (name declared : String) : Prop :=
  ∃ (i : ProgramId) (q : Program) (id : TypeId), programs[i]? = some q ∧
    lookupType programs program name = some id ∧ q.typeSymbol declared = some id ∧
    (declared = name ∨ name = q.name ++ "." ++ declared)

/-- How a name in a written type stands in the name of the type. -/
def canonicalName (programs : List Program) (program : ProgramId) (name : String) : String :=
  match Builtin.ofName? name with
  | some _ => if name = "i8" then "byte" else name
  | none => declaredName programs program name

section Names

variable {programs : List Program} {program : ProgramId} {p : Program} {name : String}
  {id : TypeId}

theorem Program.eq_of_unqualified? {bare : String} (h : p.unqualified? name = some bare) :
    name = p.name ++ "." ++ bare := by
  unfold unqualified? at h
  dsimp only at h
  split at h
  · next hp =>
    obtain ⟨rest, hrest⟩ := List.isPrefixOf_iff_prefix.1 hp
    rw [← hrest, List.drop_left] at h
    rw [← String.toList_inj, ← hrest, ← Option.some.inj h]
    simp
  · cases h

theorem Program.declaredAs?_bind (p : Program) (name : String) :
    (p.declaredAs? name).bind p.typeSymbol =
      (p.typeSymbol name).or ((p.unqualified? name).bind p.typeSymbol) := by
  unfold declaredAs?
  cases hs : p.typeSymbol name with
  | some id => simp [hs]
  | none =>
    cases p.unqualified? name with
    | none => simp
    | some bare => cases hb : p.typeSymbol bare <;> simp [Option.filter, hb]

theorem Program.declaredAs?_cases {name' : String} (h : p.declaredAs? name = some name') :
    (p.typeSymbol name').isSome ∧ (name' = name ∨ name = p.name ++ "." ++ name') := by
  unfold declaredAs? at h
  split at h
  · next hs =>
    obtain rfl := Option.some.inj h
    exact ⟨hs, .inl rfl⟩
  · obtain ⟨hbare, hs⟩ := Option.filter_eq_some_iff.1 h
    exact ⟨hs, .inr (eq_of_unqualified? hbare)⟩

theorem Program.declaredAs?_eq_none_iff : p.declaredAs? name = none ↔
    (p.typeSymbol name).or ((p.unqualified? name).bind p.typeSymbol) = none := by
  rw [← declaredAs?_bind]
  cases h : p.declaredAs? name with
  | none => simp
  | some name' => simp [Option.isSome_iff_ne_none.1 (declaredAs?_cases h).1]

theorem declaredName_found (h : lookupType programs program name = some id) :
    FoundAs programs program name (declaredName programs program name) := by
  cases hp : programs[program]? with
  | none => simp [lookupType_none hp] at h
  | some p =>
    have hseen := h
    rw [lookupType_eq hp] at h
    unfold declaredName
    rw [hp]
    dsimp only
    cases hs : p.typeSymbol name with
    | some found =>
      rw [hs] at h
      exact ⟨program, p, id, hp, hseen, hs.trans h, .inl rfl⟩
    | none =>
      rw [hs, Option.none_or] at h
      obtain ⟨before, inc, after, hsplit, hfound, hbefore⟩ := List.findSome?_eq_some_iff.1 h
      obtain ⟨q, hq, hsymbol⟩ := Option.bind_eq_some_iff.1 hfound
      rw [Option.orElse_eq_orElse, Option.orElse_eq_or, ← q.declaredAs?_bind] at hsymbol
      obtain ⟨name', hname, hsymbol⟩ := Option.bind_eq_some_iff.1 hsymbol
      have hfirst : (p.includes.findSome? fun inc =>
          programs[inc.target]?.bind (·.declaredAs? name)) = some name' := by
        refine List.findSome?_eq_some_iff.2 ⟨before, inc, after, hsplit, ?_, ?_⟩
        · rw [hq]
          exact hname
        · intro other hother
          have hnone := hbefore other hother
          cases hq' : programs[other.target]? with
          | none => rfl
          | some q' =>
            rw [hq', Option.bind_some, Option.orElse_eq_orElse, Option.orElse_eq_or] at hnone
            exact Program.declaredAs?_eq_none_iff.2 hnone
      rw [hfirst]
      exact ⟨inc.target, q, id, hq, hseen, hsymbol, (Program.declaredAs?_cases hname).2⟩

theorem Builtin.name_of_ofName? {type : Builtin} (h : ofName? name = some type) :
    type.name = if name = "i8" then "byte" else name := by
  unfold ofName? at h
  split at h <;> cases h <;> rfl

theorem canonicalName_builtin {type : Builtin} (h : Builtin.ofName? name = some type) :
    canonicalName programs program name = type.name := by
  unfold canonicalName
  rw [h, Builtin.name_of_ofName? h]

theorem canonicalName_symbol (h : Builtin.ofName? name = none) :
    canonicalName programs program name = declaredName programs program name := by
  unfold canonicalName
  rw [h]

theorem canonicalName_cases
    (h : Builtin.ofName? name = none → declaredName programs program name = name) :
    canonicalName programs program name = name ∨ canonicalName programs program name = "byte" := by
  cases hb : Builtin.ofName? name with
  | none => exact .inl ((canonicalName_symbol hb).trans (h hb))
  | some type =>
    rw [canonicalName_builtin hb, Builtin.name_of_ofName? hb]
    split
    · exact .inr rfl
    · exact .inl rfl

end Names

namespace TypeExpr

variable {g : TypeGraph} {lookup : String → Option TypeId} {type : TypeExpr} {id : TypeId}
  {f : String → String}

theorem Denotes.name_eq (h : type.Denotes g lookup id) (hg : g.Interned)
    (hbuiltin : ∀ name type, Builtin.ofName? name = some type → f name = type.name)
    (hsymbol : ∀ name i, Builtin.ofName? name = none → lookup name = some i → f name = g.name i) :
    g.name id = (type.mapNames f).render := by
  have hname {id : TypeId} {node : TypeNode} (hn : g.node id = node) (hp : node ≠ .placeholder) :
      g.name id = g.nameOf node := by
    rw [← hn]
    exact hg.named id (TypeGraph.lt_size_of_node (hn ▸ hp))
  induction h with
  | @builtin name type hb hv =>
    rw [hname (hg.node_builtin type) (by simp), mapNames, render, hbuiltin name type hb]
    rfl
  | @symbol name id hb hs => rw [mapNames, render, hsymbol name id hb hs]
  | list he hn ih => rw [hname hn (by simp), TypeGraph.nameOf, ih, mapNames, render]
  | set he hn ih => rw [hname hn (by simp), TypeGraph.nameOf, ih, mapNames, render]
  | map hk hv hn ihk ihv =>
    rw [hname hn (by simp), TypeGraph.nameOf, ihk, ihv, mapNames, render]

/-- Other names for built-in types do not change what a type stands for. -/
theorem Denotes.mapNames (h : type.Denotes g lookup id)
    (hbuiltin : ∀ name type, Builtin.ofName? name = some type → f name = type.name)
    (hplain : ∀ name ∈ type.names, Builtin.ofName? name = none → f name = name) :
    (type.mapNames f).Denotes g lookup id := by
  induction h with
  | @builtin name type hb hv =>
    rw [TypeExpr.mapNames, hbuiltin name type hb]
    exact .builtin (Builtin.ofName?_name type) hv
  | @symbol name id hb hs =>
    rw [TypeExpr.mapNames, hplain name (List.mem_singleton_self name) hb]
    exact .symbol hb hs
  | list he hn ih => exact .list (ih hplain) hn
  | set he hn ih => exact .set (ih hplain) hn
  | map hk hv hn ihk ihv =>
    refine .map (ihk fun name hm => ?_) (ihv fun name hm => ?_) hn
    · exact hplain name (List.mem_append_left _ hm)
    · exact hplain name (List.mem_append_right _ hm)

theorem Readable.mapNames (h : type.Readable)
    (hf : ∀ name ∈ type.names, f name = name ∨ f name = "byte") : (type.mapNames f).Readable := by
  induction type with
  | named name =>
    rw [TypeExpr.mapNames]
    rcases hf name (List.mem_singleton_self name) with he | he <;> rw [he]
    · exact h
    · exact ⟨by decide, by decide, by decide, by decide⟩
  | list element ih => exact ih h hf
  | set element ih => exact ih h hf
  | map key value ihk ihv =>
    refine ⟨ihk h.1 fun name hm => ?_, ihv h.2 fun name hm => ?_⟩
    · exact hf name (List.mem_append_left _ hm)
    · exact hf name (List.mem_append_right _ hm)

end TypeExpr

section Linked

variable {st : LinkState} {program : ProgramId} {type : TypeExpr} {id : TypeId} {g : TypeGraph}
  {name : String}

theorem TypeGraph.Declares.name_eq (h : g.Declares id name program) (hg : g.Interned) :
    g.name id = name := by
  rw [hg.named id h.usable.lt_size]
  rcases h with ⟨kind, hn⟩ | ⟨target, hn⟩ <;> rw [hn] <;> rfl

theorem LinkState.WellFormed.name_of_lookup (hst : st.WellFormed) (hgrow : st.types.Grows g)
    (hg : g.Interned) (h : st.lookupType program name = some id) :
    declaredName st.programs program name = g.name id := by
  obtain ⟨i, q, id', hq, hid, hs, -⟩ := declaredName_found h
  obtain rfl : id = id' := Option.some.inj (h.symm.trans hid)
  exact (((hst.symbols i q hq _ id hs).grows hgrow).name_eq hg).symm

theorem LinkState.WellFormed.symbolsHeld (hst : st.WellFormed) (hg : st.types.Interned) :
    st.SymbolsHeld := by
  intro i p hp name id hs
  exact hg.holds_of_node (hst.symbols i p hp name id hs).usable.1

/-- The name of a type is its written form with other words for some names, and may be read back
unless some name was qualified. -/
theorem Linking.name_of_resolved (hst : st.WellFormed) (hi : st.types.Interned)
    (h : exec (type.resolve (st.lookupType program)) st.types = (.ok (some id), g)) :
    let written := type.mapNames (canonicalName st.programs program)
    g.name id = written.render ∧
      (∀ name ∈ type.names, Builtin.ofName? name = none → FoundAs st.programs program name
        (declaredName st.programs program name)) ∧
      (type.Readable →
        (∀ name ∈ type.names, Builtin.ofName? name = none →
          declaredName st.programs program name = name) →
        written.Readable ∧ exec (written.resolve (st.lookupType program)) g = (.ok (some id), g)) := by
  intro written
  obtain ⟨hadds, hout⟩ : TypeExpr.Adds (st.lookupType program) st.types _ ∧
      TypeExpr.Outcome _ (st.lookupType program) type _ := type.resolve_adds st.types
  rw [h] at hadds hout
  have hg : g.Interned := hadds.interned hi (lookup_holds (hst.symbolsHeld hi) program)
  have hw : g.WellFormed := hadds.wellFormed hst.types fun _ _ hs => hst.usable hs
  have hbuiltin name type (hb : Builtin.ofName? name = some type) :
      canonicalName st.programs program name = type.name := canonicalName_builtin hb
  cases hout with
  | known hd =>
    refine ⟨hd.name_eq hg hbuiltin fun name i hb hs => ?_, fun name hm hb => ?_,
      fun hr hplain => ⟨?_, ?_⟩⟩
    · rw [canonicalName_symbol hb]
      exact hst.name_of_lookup hadds.grows hg hs
    · rcases hd.known hm with hbuiltin | hsymbol
      · simp [hb] at hbuiltin
      · obtain ⟨i, hs⟩ := Option.isSome_iff_exists.1 hsymbol
        exact declaredName_found hs
    · exact hr.mapNames fun name hm => canonicalName_cases (hplain name hm)
    · refine TypeExpr.exec_resolve_of_denotes (hd.mapNames hbuiltin fun name hm hb => ?_) hw
      rw [canonicalName_symbol hb, hplain name hm hb]

end Linked

section Load

variable {space : SearchSpace} {roots : List String} {loaded : LoadedPrograms}
  {order : List ProgramId} {parts : List SchemaPart} {final : LinkState} {program : ProgramId}
  {type : TypeExpr} {c d : Cursor} {id : TypeId} {g : TypeGraph}

/-- The canonical name of a type, seen from a linked program, is the text of what was read, with
`byte` for `i8` and declared names for qualified ones. Unless some name was qualified, that text is
read as a type again, which resolves to the same. -/
theorem resolvedType_name_reads_back (hload : loadPrograms space roots = .ok loaded)
    (hp : order <+: loaded.order)
    (hrun : exec (Linking.linkParts 0 order) (.ofPrograms loaded.programs) = (.ok parts, final))
    (hread : Reader.typeExpr.run c = .ok (type, d))
    (h : exec (type.resolve (final.lookupType program)) final.types = (.ok (some id), g)) :
    let written := type.mapNames (canonicalName final.programs program)
    g.name id = written.render ∧
      (∀ name ∈ type.names, Builtin.ofName? name = none → FoundAs final.programs program name
        (declaredName final.programs program name)) ∧
      ((∀ name ∈ type.names, Builtin.ofName? name = none →
          declaredName final.programs program name = name) →
        ∃ e, Reader.typeExpr.run (.ofText (g.name id)) = .ok (written, e) ∧ e.rest = [] ∧
          exec (written.resolve (final.lookupType program)) g = (.ok (some id), g)) := by
  intro written
  have hst := (loadPrograms_loaded hload).consistent_linked hp hrun
  have hreadable : type.Readable := (Reader.yields_typeExpr c).of_ok hread
  obtain ⟨hname, hfound, hback⟩ := Linking.name_of_resolved hst.wellFormed (.of_built hst.built) h
  refine ⟨hname, hfound, fun hplain => ?_⟩
  obtain ⟨hw, hagain⟩ := hback hreadable hplain
  have hspaced : Spaced written.tokens written.render.toList :=
    written.spaced_render Reader.blank_nil
  have hrest : (Cursor.ofText (g.name id)).rest = written.render.toList ++ [] := by
    rw [List.append_nil, ← hname]
    rfl
  refine ⟨_, Reader.typeExpr_run hw hspaced (fun _ => Reader.stops_nil _) hrest, ?_, hagain⟩
  rw [Cursor.rest_passAll, hrest, List.drop_left]

end Load

def hall : SearchSpace :=
  ⟨⟨[(⟨true, ["hall.thrift"]⟩, "include \"lib.thrift\""),
    (⟨true, ["lib.thrift"]⟩, "typedef i32 Row")], []⟩, []⟩

/-- A qualified name is shortened, and the short one is read back. -/
theorem hall_reads_back : ∃ loaded parts final d d' g g',
    let qualified := TypeExpr.map (.named "i8") (.named "lib.Row")
    let plain := TypeExpr.map (.named "i8") (.named "Row")
    let written := TypeExpr.map (.named "byte") (.named "Row")
    loadPrograms hall ["/hall.thrift"] = .ok loaded ∧
    exec (Linking.linkParts 0 loaded.order) (.ofPrograms loaded.programs) = (.ok parts, final) ∧
    Reader.typeExpr.run (.ofText "map<i8,lib.Row>") = .ok (qualified, d) ∧
    exec (qualified.resolve (final.lookupType 0)) final.types = (.ok (some 11), g) ∧
    g.name 11 = "map<byte, Row>" ∧
    Reader.typeExpr.run (.ofText "map<i8,Row>") = .ok (plain, d') ∧
    exec (plain.resolve (final.lookupType 0)) final.types = (.ok (some 11), g') ∧
    ∃ e, Reader.typeExpr.run (.ofText (g'.name 11)) = .ok (written, e) ∧
      exec (written.resolve (final.lookupType 0)) g' = (.ok (some 11), g') := by
  have hfacts : (loadPrograms hall ["/hall.thrift"]).map (fun loaded =>
      let (result, final) := exec (Linking.linkParts 0 loaded.order) (.ofPrograms loaded.programs)
      let id type := (exec (TypeExpr.resolve (final.lookupType 0) type) final.types).1
      (result.isOk, id (.map (.named "i8") (.named "lib.Row")),
        id (.map (.named "i8") (.named "Row")), declaredName final.programs 0 "lib.Row",
        declaredName final.programs 0 "Row")) =
      .ok (true, .ok (some 11), .ok (some 11), "Row", "Row") := by cbv
  have hqualified : (Reader.typeExpr.run (.ofText "map<i8,lib.Row>")).map Prod.fst =
      .ok (.map (.named "i8") (.named "lib.Row")) := by cbv
  have hplain : (Reader.typeExpr.run (.ofText "map<i8,Row>")).map Prod.fst =
      .ok (.map (.named "i8") (.named "Row")) := by cbv
  have read {text type} (h : (Reader.typeExpr.run (.ofText text)).map Prod.fst = .ok type) :
      ∃ d, Reader.typeExpr.run (.ofText text) = .ok (type, d) := by
    cases hrun : Reader.typeExpr.run (.ofText text) with
    | error e =>
      rw [hrun] at h
      cases h
    | ok out =>
      rw [hrun] at h
      exact ⟨out.2, congrArg _ (Prod.ext (Except.ok.inj h) rfl)⟩
  obtain ⟨d, hd⟩ := read hqualified
  obtain ⟨d', hd'⟩ := read hplain
  cases hload : loadPrograms hall ["/hall.thrift"] with
  | error e =>
    rw [hload] at hfacts
    cases hfacts
  | ok loaded =>
    rw [hload] at hfacts
    rcases hrun : exec (Linking.linkParts 0 loaded.order) (.ofPrograms loaded.programs) with
      ⟨e | parts, final⟩
    · simp [Except.map, hrun, Except.isOk, Except.toBool] at hfacts
    · simp only [Except.map, hrun, Except.ok.injEq, Prod.mk.injEq] at hfacts
      obtain ⟨-, hid, hid', hshort, hsame⟩ := hfacts
      have hbyte : canonicalName final.programs 0 "i8" = "byte" := by
        simp [canonicalName, Builtin.ofName?]
      have hrow : canonicalName final.programs 0 "lib.Row" = "Row" :=
        (canonicalName_symbol rfl).trans hshort
      have hrow' : canonicalName final.programs 0 "Row" = "Row" :=
        (canonicalName_symbol rfl).trans hsame
      obtain ⟨hname, -, -⟩ := resolvedType_name_reads_back hload (List.prefix_refl _) hrun hd
        (Prod.ext hid rfl)
      obtain ⟨-, -, hback⟩ := resolvedType_name_reads_back hload (List.prefix_refl _) hrun hd'
        (Prod.ext hid' rfl)
      simp only [TypeExpr.mapNames, hbyte, hrow] at hname
      simp only [TypeExpr.mapNames, hbyte, hrow'] at hback
      obtain ⟨e, he, -, hagain⟩ := hback (by simp [TypeExpr.names, Builtin.ofName?, hsame])
      exact ⟨loaded, parts, final, d, d', _, _, rfl, hrun, hd, Prod.ext hid rfl, hname.trans rfl,
        hd', Prod.ext hid' rfl, e, he, hagain⟩

end ThriftIdl
