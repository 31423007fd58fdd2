import ThriftIdl.Proofs.GraphConstruction
import ThriftIdl.Proofs.LinkStates
import ThriftIdl.Schema.Json

namespace ThriftIdl

/-- The number of open brackets behind a text that starts with some open. Commas stand in brackets
only, and what is not open is not closed. -/
def bracketsAfter : Nat → List Char → Option Nat
  | depth, [] => some depth
  | depth, '<' :: rest => bracketsAfter (depth + 1) rest
  | 0, '>' :: _ => none
  | depth + 1, '>' :: rest => bracketsAfter depth rest
  | 0, ',' :: _ => none
  | depth, _ :: rest => bracketsAfter depth rest

/-- A text whose brackets match, and whose commas all stand in brackets. -/
def Enclosed (text : List Char) : Prop := bracketsAfter 0 text = some 0

def Unbracketed (text : List Char) : Prop := ∀ c ∈ text, c ≠ '<' ∧ c ≠ '>' ∧ c ≠ ','

instance (text : List Char) : Decidable (Unbracketed text) := List.decidableBAll _ text

section Brackets

variable {depth depth' : Nat} {c : Char} {text text' rest rest' word word' : List Char}

theorem bracketsAfter_other (h : c ≠ '<') (h' : c ≠ '>') (h'' : c ≠ ',' ∨ depth ≠ 0) :
    bracketsAfter depth (c :: rest) = bracketsAfter depth rest := by
  rcases h'' with h'' | h'' <;> cases depth <;> simp_all [bracketsAfter]

theorem bracketsAfter_append (text rest : List Char) (depth : Nat) :
    bracketsAfter depth (text ++ rest) = (bracketsAfter depth text).bind (bracketsAfter · rest) := by
  fun_induction bracketsAfter depth text <;> simp_all [bracketsAfter]

theorem bracketsAfter_deeper (h : bracketsAfter depth text = some depth') :
    bracketsAfter (depth + 1) text = some (depth' + 1) := by
  fun_induction bracketsAfter depth text with
  | case6 depth c rest hopen hclose hclose' hcomma ih =>
    have hc : c ≠ '>' := by
      cases depth with
      | zero => exact hclose rfl
      | succ depth => exact hclose' depth rfl
    rw [bracketsAfter_other hopen hc (.inr (Nat.succ_ne_zero depth))]
    exact ih h
  | _ => simp_all [bracketsAfter]

theorem bracketsAfter_unbracketed (h : Unbracketed word) :
    bracketsAfter depth word = some depth := by
  induction word with
  | nil => rfl
  | cons c word ih =>
    obtain ⟨⟨hopen, hclose, hcomma⟩, hword⟩ := List.forall_mem_cons.1 h
    rw [bracketsAfter_other hopen hclose (.inl hcomma)]
    exact ih hword

namespace Enclosed

theorem of_unbracketed (h : Unbracketed word) : Enclosed word := bracketsAfter_unbracketed h

theorem bracketed (hword : Unbracketed word) (h : bracketsAfter 1 text = some 1) :
    Enclosed (word ++ '<' :: (text ++ ['>'])) := by
  unfold Enclosed
  rw [bracketsAfter_append, bracketsAfter_unbracketed hword, Option.bind_some, bracketsAfter,
    bracketsAfter_append, h]
  rfl

theorem inside (h : Enclosed text) : bracketsAfter 1 text = some 1 := bracketsAfter_deeper h

theorem pair (h : Enclosed text) (h' : Enclosed text') :
    bracketsAfter 1 (text ++ ',' :: ' ' :: text') = some 1 := by
  rw [bracketsAfter_append, h.inside, Option.bind_some,
    bracketsAfter_other (by decide) (by decide) (.inr (by decide)),
    bracketsAfter_other (by decide) (by decide) (.inl (by decide))]
  exact h'.inside

/-- The first comma outside brackets is the one behind an enclosed text. -/
theorem eq_of_comma (h : Enclosed text) (h' : Enclosed text')
    (he : text ++ ',' :: rest = text' ++ ',' :: rest') : text = text' ∧ rest = rest' := by
  have hstop {text text' more : List Char} (h : Enclosed text) (h' : Enclosed text') :
      text' ≠ text ++ ',' :: more := by
    rintro rfl
    unfold Enclosed at h'
    rw [bracketsAfter_append, h] at h'
    cases h'
  rcases List.append_eq_append_iff.1 he with ⟨more, ht, hr⟩ | ⟨more, ht, hr⟩ <;>
    cases more with
    | nil => simp_all
    | cons c more =>
      obtain rfl : ',' = c := (List.cons.inj hr).1
      first | exact absurd ht (hstop h h') | exact absurd ht (hstop h' h)

end Enclosed

theorem eq_of_bracket (h : Unbracketed word) (h' : Unbracketed word')
    (he : word ++ '<' :: rest = word' ++ '<' :: rest') : word = word' ∧ rest = rest' := by
  have hstop {word more : List Char} (h : Unbracketed (word ++ '<' :: more)) : False :=
    (h '<' (by simp)).1 rfl
  rcases List.append_eq_append_iff.1 he with ⟨more, rfl, hr⟩ | ⟨more, rfl, hr⟩ <;>
    cases more with
    | nil => simp_all
    | cons c more =>
      obtain rfl : '<' = c := (List.cons.inj hr).1
      first | exact (hstop h).elim | exact (hstop h').elim

end Brackets

theorem Builtin.ofName?_name (type : Builtin) : ofName? type.name = some type := by
  cases type <;> rfl

theorem Builtin.unbracketed (type : Builtin) : Unbracketed type.name.toList := by
  cases type <;> decide

namespace TypeGraph

/-- Declared types have names of their own, which are words and not those of built-in types. -/
structure NamesApart (g : TypeGraph) : Prop where
  words : ∀ id name program, g.Declares id name program →
    Unbracketed name.toList ∧ Builtin.ofName? name = none
  unique : ∀ i j name program program', g.Declares i name program → g.Declares j name program' →
    i = j

inductive Container : TypeNode → Prop
  | list (element : TypeId) : Container (.list element)
  | set (element : TypeId) : Container (.set element)
  | map (key value : TypeId) : Container (.map key value)

/-- How the name of a container begins. -/
def containerWord : TypeNode → List Char
  | .list _ => ['l', 'i', 's', 't']
  | .set _ => ['s', 'e', 't']
  | _ => ['m', 'a', 'p']

/-- What the name of a container has between its brackets. -/
def contents (g : TypeGraph) : TypeNode → List Char
  | .list element | .set element => (g.name element).toList
  | .map key value => (g.name key).toList ++ ',' :: ' ' :: (g.name value).toList
  | _ => []

inductive Spelling (g : TypeGraph) (id : TypeId) : Prop
  | builtin (type : Builtin) (hn : g.node id = .builtin type) (ht : g.name id = type.name)
  | declared (program : ProgramId) (hd : g.Declares id (g.name id) program)
  | container (hc : Container (g.node id)) (ht : (g.name id).toList =
      containerWord (g.node id) ++ '<' :: (g.contents (g.node id) ++ ['>']))

section Names

variable {g : TypeGraph} {i j id : TypeId} {node node' : TypeNode}

theorem Interned.spelling (hg : g.Interned) (h : g.node id ≠ .placeholder) : g.Spelling id := by
  have hname := hg.named id (lt_size_of_node h)
  cases hn : g.node id with
  | placeholder => exact absurd hn h
  | builtin type =>
    rw [hn] at hname
    exact .builtin type hn hname
  | user name kind program =>
    rw [hn] at hname
    exact .declared program (.inl ⟨kind, hname ▸ hn⟩)
  | typedef name target program =>
    rw [hn] at hname
    exact .declared program (.inr ⟨target, hname ▸ hn⟩)
  | list element =>
    rw [hn] at hname
    refine .container (hn ▸ .list element) ?_
    rw [hname, hn]
    simp [nameOf, containerWord, contents]
  | set element =>
    rw [hn] at hname
    refine .container (hn ▸ .set element) ?_
    rw [hname, hn]
    simp [nameOf, containerWord, contents]
  | map key value =>
    rw [hn] at hname
    refine .container (hn ▸ .map key value) ?_
    rw [hname, hn]
    simp [nameOf, containerWord, contents]

theorem Interned.child_known (hg : g.Interned) (h : g.MadeOf id i) : g.node i ≠ .placeholder := by
  obtain ⟨hlt, hne⟩ := hg.parts id i h
  have hzero : g.node 0 = .placeholder := hg.node_initial (by decide)
  have hi : i < g.size := Nat.lt_trans hlt h.lt_size
  intro he
  exact hne (hg.distinct i hi 0 (Nat.zero_lt_of_lt hi) (he.trans hzero.symm))

theorem containerWord_unbracketed (node : TypeNode) : Unbracketed (containerWord node) := by
  unfold containerWord
  split <;> decide

theorem contents_inside (hc : Container node)
    (h : ∀ child ∈ node.children, Enclosed (g.name child).toList) :
    bracketsAfter 1 (g.contents node) = some 1 := by
  cases hc with
  | list element => exact (h element (by simp [TypeNode.children])).inside
  | set element => exact (h element (by simp [TypeNode.children])).inside
  | map key value =>
    exact (h key (by simp [TypeNode.children])).pair (h value (by simp [TypeNode.children]))

theorem Interned.enclosed (hg : g.Interned) (ha : g.NamesApart) (h : g.node id ≠ .placeholder) :
    Enclosed (g.name id).toList := by
  induction id using hg.wellFounded.induction with
  | _ id ih =>
    cases hg.spelling h with
    | builtin type hn ht =>
      rw [ht]
      exact .of_unbracketed type.unbracketed
    | declared program hd => exact .of_unbracketed (ha.words _ _ _ hd).1
    | container hc ht =>
      rw [ht]
      apply Enclosed.bracketed (containerWord_unbracketed _)
      apply contents_inside hc
      intro child hm
      exact ih child hm (hg.child_known hm)

theorem container_eq (hc : Container node) (hc' : Container node')
    (hword : containerWord node = containerWord node') (he : g.contents node = g.contents node')
    (henclosed : ∀ child ∈ node.children, Enclosed (g.name child).toList)
    (henclosed' : ∀ child ∈ node'.children, Enclosed (g.name child).toList)
    (hone : ∀ child ∈ node.children, ∀ child' ∈ node'.children, g.name child = g.name child' →
      child = child') : node = node' := by
  cases hc with
  | list element =>
    cases hc' with
    | list element' =>
      rw [hone element (by simp [TypeNode.children]) element' (by simp [TypeNode.children])
        (String.toList_injective he)]
    | set => simp [containerWord] at hword
    | map => simp [containerWord] at hword
  | set element =>
    cases hc' with
    | set element' =>
      rw [hone element (by simp [TypeNode.children]) element' (by simp [TypeNode.children])
        (String.toList_injective he)]
    | list => simp [containerWord] at hword
    | map => simp [containerWord] at hword
  | map key value =>
    cases hc' with
    | map key' value' =>
      obtain ⟨hk, hv⟩ := Enclosed.eq_of_comma (henclosed key (by simp [TypeNode.children]))
        (henclosed' key' (by simp [TypeNode.children])) he
      rw [hone key (by simp [TypeNode.children]) key' (by simp [TypeNode.children])
          (String.toList_injective hk),
        hone value (by simp [TypeNode.children]) value' (by simp [TypeNode.children])
          (String.toList_injective (List.cons.inj hv).2)]
    | list => simp [containerWord] at hword
    | set => simp [containerWord] at hword

theorem NamesApart.ne_builtin (ha : g.NamesApart) {program : ProgramId}
    (hd : g.Declares i (g.name i) program) {type : Builtin} (ht : g.name j = type.name) :
    g.name i ≠ g.name j := by
  intro h
  have hnone := (ha.words _ _ _ hd).2
  rw [h, ht, type.ofName?_name] at hnone
  cases hnone

theorem ne_of_bracket {word more : List Char} (ht : (g.name i).toList = word ++ '<' :: more)
    (hu : Unbracketed (g.name j).toList) : g.name i ≠ g.name j := by
  intro h
  rw [← h, ht] at hu
  exact (hu '<' (by simp)).1 rfl

/-- Different types have different names. -/
theorem Interned.name_injective (hg : g.Interned) (ha : g.NamesApart)
    (hi : g.node i ≠ .placeholder) (hj : g.node j ≠ .placeholder) (h : g.name i = g.name j) :
    i = j := by
  induction i using hg.wellFounded.induction generalizing j with
  | _ i ih =>
    have hdistinct := hg.distinct i (lt_size_of_node hi) j (lt_size_of_node hj)
    cases hg.spelling hi with
    | builtin type hn ht =>
      cases hg.spelling hj with
      | builtin type' hn' ht' =>
        apply hdistinct
        have hname := type.ofName?_name
        rw [← ht, h, ht', type'.ofName?_name] at hname
        rw [hn, hn', Option.some.inj hname]
      | declared program hd => exact absurd h.symm (ha.ne_builtin hd ht)
      | container hc ht' =>
        have hu : Unbracketed (g.name i).toList := ht ▸ type.unbracketed
        exact absurd h.symm (ne_of_bracket ht' hu)
    | declared program hd =>
      cases hg.spelling hj with
      | builtin type hn ht => exact absurd h (ha.ne_builtin hd ht)
      | declared program' hd' => exact ha.unique i j _ _ _ hd (h ▸ hd')
      | container hc ht => exact absurd h.symm (ne_of_bracket ht (ha.words _ _ _ hd).1)
    | container hc ht =>
      cases hg.spelling hj with
      | builtin type hn ht' =>
        have hu : Unbracketed (g.name j).toList := ht' ▸ type.unbracketed
        exact absurd h (ne_of_bracket ht hu)
      | declared program hd => exact absurd h (ne_of_bracket ht (ha.words _ _ _ hd).1)
      | container hc' ht' =>
        have he := congrArg String.toList h
        rw [ht, ht'] at he
        obtain ⟨hword, hrest⟩ := eq_of_bracket (containerWord_unbracketed _)
          (containerWord_unbracketed _) he
        apply hdistinct
        apply container_eq hc hc' hword (List.append_inj_left' hrest rfl)
        · exact fun child hm => hg.enclosed ha (hg.child_known hm)
        · exact fun child hm => hg.enclosed ha (hg.child_known hm)
        · intro child hm child' hm' hname
          exact ih child hm (hg.child_known hm) (hg.child_known hm') hname

end Names

end TypeGraph

namespace TypeTree

def name : TypeTree → String
  | placeholder => "<placeholder>"
  | builtin type => type.name
  | list element => "list<" ++ element.name ++ ">"
  | set element => "set<" ++ element.name ++ ">"
  | map key value => "map<" ++ key.name ++ ", " ++ value.name ++ ">"
  | user name _ _ => name
  | typedef name _ _ => name

/-- The name of a type can be read off its JSON form. -/
theorem name_eq_of_toJson {t t' : TypeTree} (h : t.toJson = t'.toJson) : t.name = t'.name := by
  induction t generalizing t' with
  | placeholder | builtin | user => cases t' <;> simp_all [toJson, name]
  | list element ih =>
    cases t' with
    | list element' =>
      have he : element.toJson = element'.toJson := by simpa [toJson] using h
      rw [name, name, ih he]
    | _ => simp [toJson] at h
  | set element ih =>
    cases t' with
    | set element' =>
      have he : element.toJson = element'.toJson := by simpa [toJson] using h
      rw [name, name, ih he]
    | _ => simp [toJson] at h
  | map key value ihk ihv =>
    cases t' with
    | map key' value' =>
      obtain ⟨hk, hv⟩ : key.toJson = key'.toJson ∧ value.toJson = value'.toJson := by
        simpa [toJson] using h
      rw [name, name, ihk hk, ihv hv]
    | _ => simp [toJson] at h
  | typedef name target program ih => cases t' <;> simp_all [toJson, TypeTree.name]

end TypeTree

namespace TypeGraph.Interned

variable {g : TypeGraph} {i j id : TypeId}

theorem name_eq_tree (hg : g.Interned) (h : id < g.size) : g.name id = (g.tree id).name := by
  induction id using Nat.strongRecOn with
  | ind id ih =>
    have hchild {child : TypeId} (hm : g.MadeOf id child) : g.name child = (g.tree child).name := by
      have hlt := (hg.parts id child hm).1
      exact ih child hlt (Nat.lt_trans hlt h)
    rw [hg.named id h, hg.tree_eq]
    cases hn : g.node id <;>
      simp_all [nameOf, TypeNode.spell, TypeTree.name, MadeOf, TypeNode.children]

theorem json_injective (hg : g.Interned) (ha : g.NamesApart) (hi : g.node i ≠ .placeholder)
    (hj : g.node j ≠ .placeholder) (h : g.typeJson i = g.typeJson j) : i = j := by
  apply hg.name_injective ha hi hj
  rw [hg.name_eq_tree (lt_size_of_node hi), hg.name_eq_tree (lt_size_of_node hj)]
  exact TypeTree.name_eq_of_toJson h

end TypeGraph.Interned

end ThriftIdl
