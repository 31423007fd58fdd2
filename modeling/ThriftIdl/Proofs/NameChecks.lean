import ThriftIdl.Proofs.DeclaredNames
import ThriftIdl.Proofs.SourceOrder
import ThriftIdl.Proofs.SymbolTables

namespace ThriftIdl

theorem Position.Before.asymm {p q : Position} (h : p.Before q) : ¬ q.Before p := by
  unfold Before at *
  omega

/-- What is wrong with a name at its place, among names with theirs. -/
inductive Misnamed (names : List (String × Position)) : String × Position → LinkFault → Prop
  | builtin {name : String} {position : Position} (h : (Builtin.ofName? name).isSome) :
      Misnamed names (name, position) (.redefinedBuiltin name)
  | repeated {name : String} {first position : Position} (declared : (name, first) ∈ names)
      (before : first.Before position)
      (least : ∀ other, (name, other) ∈ names → other = first ∨ first.Before other) :
      Misnamed names (name, position) (.repeatedDeclaration name first.line)

/-- One of the names is taken, by a built-in type or by another of them. -/
def HasTaken (names : List String) : Prop :=
  ∃ name ∈ names, (Builtin.ofName? name).isSome ∨ 2 ≤ names.count name

section Names

variable {names names' : List (String × Position)} {x : String × Position} {fault : LinkFault}
  {position : Position}

theorem Misnamed.perm (h : Misnamed names x fault) (hp : names.Perm names') :
    Misnamed names' x fault := by
  cases h with
  | builtin hb => exact .builtin hb
  | repeated declared before least =>
    apply repeated (hp.mem_iff.1 declared) before
    intro other hother
    exact least other (hp.mem_iff.2 hother)

theorem HasTaken.perm {names names' : List String} (h : HasTaken names) (hp : names.Perm names') :
    HasTaken names' := by
  obtain ⟨name, hm, ht⟩ := h
  refine ⟨name, hp.mem_iff.1 hm, ?_⟩
  rwa [← hp.count_eq]

namespace Linking

theorem nameFault?_ne_none_iff : nameFault? [] names ≠ none ↔ HasTaken (names.map Prod.fst) := by
  rw [Ne, nameFault?_eq_none_iff, List.nodup_iff_count_le_one]
  constructor
  · intro h
    by_contra hno
    apply h
    constructor
    · intro d hd
      have hb : ¬ (Builtin.ofName? d.1).isSome := fun hb =>
        hno ⟨d.1, List.mem_map_of_mem hd, .inl hb⟩
      exact ⟨by simpa using hb, rfl⟩
    · intro name
      by_contra hc
      have hm : name ∈ names.map Prod.fst := List.count_pos_iff.1 (by omega)
      exact hno ⟨name, hm, .inr (by omega)⟩
  · rintro ⟨name, hm, hb | hc⟩ ⟨hnone, hle⟩
    · obtain ⟨d, hd, rfl⟩ := List.mem_map.1 hm
      simp [(hnone d hd).1] at hb
    · have h := hle name
      omega

theorem nameFault?_split {seen later : List (String × Position)}
    (h : nameFault? seen later = some (position, fault)) :
    ∃ before name behind, later = before ++ (name, position) :: behind ∧
      nameFault? seen before = none ∧
      (((Builtin.ofName? name).isSome ∧ fault = .redefinedBuiltin name) ∨
        ∃ first, (name, first) ∈ before ++ seen ∧ fault = .repeatedDeclaration name first.line) := by
  induction later generalizing seen with
  | nil => simp [nameFault?] at h
  | cons d later ih =>
    obtain ⟨name, place⟩ := d
    rw [nameFault?] at h
    split at h
    · next hb =>
      obtain ⟨rfl, rfl⟩ := Prod.mk.inj (Option.some.inj h)
      exact ⟨[], name, later, rfl, rfl, .inl ⟨hb, rfl⟩⟩
    · next hb =>
      cases hl : seen.lookup name with
      | some first =>
        rw [hl] at h
        obtain ⟨rfl, rfl⟩ := Prod.mk.inj (Option.some.inj h)
        obtain ⟨front, back, rfl, -⟩ := List.lookup_eq_some_iff.1 hl
        exact ⟨[], name, later, rfl, rfl, .inr ⟨first, by simp, rfl⟩⟩
      | none =>
        rw [hl] at h
        obtain ⟨before, name', behind, rfl, hnone, hfault⟩ := ih h
        refine ⟨(name, place) :: before, name', behind, rfl, ?_, hfault.imp_right ?_⟩
        · rw [nameFault?, if_neg hb, hl]
          exact hnone
        · rintro ⟨first, hm, hf⟩
          refine ⟨first, ?_, hf⟩
          simp only [List.mem_append, List.mem_cons] at hm ⊢
          tauto

/-- Of names in the order of their places, the first that is misnamed is reported. -/
theorem nameFault?_earliest (hs : names.Pairwise fun x y => x.2.Before y.2)
    (h : nameFault? [] names = some (position, fault)) :
    ∃ name, (name, position) ∈ names ∧ Misnamed names (name, position) fault ∧
      ∀ x ∈ names, ∀ fault', Misnamed names x fault' →
        x = (name, position) ∨ position.Before x.2 := by
  obtain ⟨before, name, behind, rfl, hnone, hfault⟩ := nameFault?_split h
  obtain ⟨hplain, hnd⟩ := nameFault?_eq_none_iff.1 hnone
  obtain ⟨-, hafter, hcross⟩ := List.pairwise_append.1 hs
  have hbehind := (List.pairwise_cons.1 hafter).1
  have hbefore : ∀ y ∈ before, y.2.Before position :=
    fun y hy => hcross y hy _ List.mem_cons_self
  have hmem : (name, position) ∈ before ++ (name, position) :: behind := by simp
  -- What is declared no later than a name of the part before is in that part.
  have hearly : ∀ y ∈ before, ∀ z ∈ before ++ (name, position) :: behind, z.2.Before y.2 →
      z ∈ before := by
    intro y hy z hz hzy
    rcases List.mem_append.1 hz with hz | hz
    · exact hz
    · exact absurd hzy (hcross y hy z hz).asymm
  refine ⟨name, hmem, ?_, ?_⟩
  · rcases hfault with ⟨hb, rfl⟩ | ⟨first, hfirst, rfl⟩
    · exact .builtin hb
    · rw [List.append_nil] at hfirst
      apply Misnamed.repeated (List.mem_append_left _ hfirst) (hbefore _ hfirst)
      intro other hother
      rcases List.mem_append.1 hother with hother | hother
      · have he : (name, other) = (name, first) :=
          List.inj_on_of_nodup_map hnd hother hfirst rfl
        exact .inl (Prod.mk.inj he).2
      · exact .inr (hcross _ hfirst _ hother)
  · intro x hx fault' hbad
    rcases List.mem_append.1 hx with hx | hx
    · exfalso
      cases hbad with
      | builtin hb => simp [(hplain _ hx).1] at hb
      | @repeated n first place declared hfirst _ =>
        have hin : (n, first) ∈ before := hearly _ hx _ declared hfirst
        have he : (n, first) = (n, place) := List.inj_on_of_nodup_map hnd hin hx rfl
        obtain rfl : first = place := (Prod.mk.inj he).2
        exact hfirst.asymm hfirst
    · rcases List.mem_cons.1 hx with rfl | hx
      · exact .inl rfl
      · exact .inr (hbehind x hx)

/-- The definitions of a file that was read stand in the order of their places. -/
theorem definitions_ordered {file text : String} {d : Document}
    (h : Document.parse file text = .ok d) :
    (definitions d).Pairwise fun x y => x.2.Before y.2 := by
  obtain ⟨-, ⟨c, hmeets⟩, -⟩ := (Document.gives_parse_walked file text).of_ok h
  obtain ⟨-, hordered⟩ := hmeets.placed (Cursor.at_start text.toList)
  have hplaces : ((definitions d).map Prod.snd).Sublist (d.constructs.map Construct.position) := by
    apply Document.places_filterMap
    intro decl b hb
    obtain ⟨name, -, rfl⟩ := Option.map_eq_some_iff.1 hb
    rfl
  exact List.pairwise_map.1 ((List.pairwise_map.2 hordered).sublist hplaces)

theorem sortedNames_ordered (d : Document) :
    d.sortedNames.Pairwise fun x y => x.2.upTo y.2 = true := by
  apply List.pairwise_mergeSort
  · intro x y z hxy hyz
    simp only [Position.upTo, Bool.or_eq_true, Bool.and_eq_true, decide_eq_true_eq] at *
    omega
  · intro x y
    simp only [Position.upTo, Bool.or_eq_true, Bool.and_eq_true, decide_eq_true_eq]
    omega

/-- No two definitions of a file that was read stand at one place, so that there is only one way to
sort them. -/
theorem sortedNames_eq {file text : String} {d : Document}
    (h : Document.parse file text = .ok d) : d.sortedNames = definitions d := by
  have hordered := definitions_ordered h
  have hplaces : ((definitions d).map Prod.snd).Nodup := by
    refine List.pairwise_map.2 (hordered.imp fun {x y} hxy he => ?_)
    rw [he] at hxy
    exact hxy.asymm hxy
  have hperm : d.sortedNames.Perm (definitions d) :=
    (List.mergeSort_perm _ _).trans (definitions_perm_declared d).symm
  have hle : (definitions d).Pairwise fun x y => x.2.upTo y.2 = true := by
    refine hordered.imp fun {x y} hxy => ?_
    simp only [Position.upTo, Bool.or_eq_true, Bool.and_eq_true, decide_eq_true_eq]
    exact hxy.imp id fun hline => ⟨hline.1, Nat.le_of_lt hline.2⟩
  refine hperm.eq_of_pairwise ?_ (sortedNames_ordered d) hle
  rintro ⟨name, line, column⟩ ⟨name', line', column'⟩ hx hy hxy hyx
  refine List.inj_on_of_nodup_map hplaces (hperm.mem_iff.1 hx) hy ?_
  simp only [Position.upTo, Bool.or_eq_true, Bool.and_eq_true, decide_eq_true_eq] at hxy hyx
  rw [Position.mk.injEq]
  omega

end Linking

end Names

namespace LinkState

/-- The symbols of types with the handles from `first` on, the newest first. -/
def userSymbols (first : TypeId) (users : List (String × UserKind)) : List (String × TypeId) :=
  ((users.map Prod.fst).zipIdx first).reverse

/-- A state in which some types of a program have the handles behind those there were. -/
def withUsers (st : LinkState) (program : ProgramId) (users : List (String × UserKind)) :
    LinkState where
  programs := st.programs.modify program (·.withTypes (userSymbols st.types.size users))
  types := ⟨st.types.entries ++ users.map fun user => ⟨.user user.1 user.2 program, user.1⟩⟩

section Users

variable {st : LinkState} {program : ProgramId} {user : String × UserKind}
  {users : List (String × UserKind)}

theorem userSymbols_names (first : TypeId) (users : List (String × UserKind)) :
    (userSymbols first users).map Prod.fst = (users.map Prod.fst).reverse := by
  simp [userSymbols, List.map_reverse]

theorem withUsers_nil (st : LinkState) (program : ProgramId) : st.withUsers program [] = st := by
  have hf : (fun p : Program => p.withTypes []) = id := rfl
  simp [withUsers, userSymbols, hf, List.modify_id]

theorem withUsers_cons (st : LinkState) (program : ProgramId) (user : String × UserKind)
    (users : List (String × UserKind)) :
    (st.withUsers program [user]).withUsers program users = st.withUsers program (user :: users) := by
  have hf : (fun p : Program => p.withTypes (userSymbols (st.types.size + 1) users)) ∘
      (fun p : Program => p.withTypes (userSymbols st.types.size [user])) =
        fun p : Program => p.withTypes (userSymbols st.types.size (user :: users)) := by
    funext p
    simp [Program.withTypes, userSymbols, List.zipIdx_cons]
  have hsize : (st.withUsers program [user]).types.size = st.types.size + 1 := by
    simp [withUsers, TypeGraph.size]
  unfold withUsers at hsize ⊢
  rw [hsize, List.modify_modify_eq, hf]
  simp

theorem withUsers_node {k : Nat} (h : users[k]? = some user) :
    (st.withUsers program users).types.node (st.types.size + k) =
      .user user.1 user.2 program := by
  simp only [withUsers, TypeGraph.node, TypeGraph.size]
  rw [List.getElem?_append_right (Nat.le_add_right _ _), Nat.add_sub_cancel_left, List.getElem?_map,
    h]
  rfl

theorem withUsers_node_cases (st : LinkState) (program : ProgramId) (user : String × UserKind)
    (id : TypeId) :
    (st.withUsers program [user]).types.node id = st.types.node id ∨
      (st.withUsers program [user]).types.node id = .user user.1 user.2 program := by
  by_cases hid : id < st.types.size
  · left
    simp only [withUsers, TypeGraph.node, List.getElem?_append_left hid]
  · obtain ⟨k, rfl⟩ := Nat.exists_eq_add_of_le (Nat.le_of_not_lt hid)
    cases k with
    | zero => exact .inr (withUsers_node rfl)
    | succ k =>
      left
      rw [TypeGraph.node_of_size_le (Nat.le_add_right _ _), TypeGraph.node_of_size_le]
      simp [withUsers, TypeGraph.size]

theorem defineUser_new (h : ∀ id, st.types.node id ≠ .user user.1 user.2 program) :
    st.defineUser program user = st.withUsers program [user] := by
  rcases st.types.intern_cases (.user user.1 user.2 program) with ⟨id, -, hn, -⟩ | ⟨-, he⟩
  · exact absurd hn (h id)
  · unfold defineUser
    rw [he]
    rfl

theorem defineUsers_new (hnd : (users.map Prod.fst).Nodup)
    (h : ∀ user ∈ users, ∀ id, st.types.node id ≠ .user user.1 user.2 program) :
    users.foldl (.defineUser program) st = st.withUsers program users := by
  induction users generalizing st with
  | nil => rw [withUsers_nil, List.foldl_nil]
  | cons user users ih =>
    obtain ⟨hnew, hnd⟩ := List.nodup_cons.1 hnd
    rw [List.foldl_cons, defineUser_new (h user List.mem_cons_self), ih hnd, withUsers_cons]
    intro other hother id
    rcases withUsers_node_cases st program user id with hn | hn
    · rw [hn]
      exact h other (List.mem_cons_of_mem _ hother) id
    · rw [hn, Ne, TypeNode.user.injEq]
      rintro ⟨hname, -⟩
      apply hnew
      rw [hname]
      exact List.mem_map_of_mem hother

theorem withUsers_symbol {p : Program} {k : Nat} (hp : st.programs[program]? = some p)
    (hnd : (users.map Prod.fst).Nodup) (h : users[k]? = some user) :
    (st.withUsers program users).programs[program]?.bind (·.typeSymbol user.1) =
      some (st.types.size + k) := by
  have hkeys : ((userSymbols st.types.size users).map Prod.fst).Nodup := by
    rw [userSymbols_names, List.nodup_reverse]
    exact hnd
  have hm : (user.1, st.types.size + k) ∈ userSymbols st.types.size users := by
    rw [userSymbols, List.mem_reverse, List.mk_mem_zipIdx_iff_le_and_getElem?_sub]
    simp [h]
  unfold withUsers
  rw [List.getElem?_modify_eq, hp]
  change (userSymbols st.types.size users ++ p.types).lookup user.1 = _
  rw [List.lookup_append, (lookup_eq_some_iff_mem hkeys).2 hm, Option.some_or]

end Users

end LinkState

namespace Linking

/-- The types of a document are declared exactly if none of its names is taken. A fault lies at the
first declaration of the text that has one, and leaves everything as it was. To go through the
definitions of the text is to gather its names kind by kind and to sort them. -/
theorem defineUserTypes_checked (file text : String) (p : Program) (st : LinkState)
    (program : ProgramId) (hparse : Document.parse file text = .ok p.document)
    (hp : st.programs[program]? = some p) :
    ((exec (defineUserTypes program) st).1.isOk = false ↔
      HasTaken (p.document.declaredNames.map Prod.fst)) ∧
    (∀ e st', exec (defineUserTypes program) st = (.error e, st') →
      st' = st ∧ ∃ x ∈ p.document.declaredNames, ∃ fault,
        Misnamed p.document.declaredNames x fault ∧
        e = .unlinkable ⟨file, x.2⟩ fault ∧
        ∀ y ∈ p.document.declaredNames, ∀ fault', Misnamed p.document.declaredNames y fault' →
          y = x ∨ x.2.Before y.2) ∧
    (∀ u st', exec (defineUserTypes program) st = (.ok u, st') →
      (∀ id name kind, st.types.node id ≠ .user name kind program) →
      st' = st.withUsers program (userTypes p.document) ∧
      ∀ k user, (userTypes p.document)[k]? = some user →
        st'.types.node (st.types.size + k) = .user user.1 user.2 program ∧
        st'.programs[program]?.bind (·.typeSymbol user.1) = some (st.types.size + k)) ∧
    definitions p.document = p.document.sortedNames := by
  have hperm := definitions_perm_declared p.document
  have hfile : p.document.file = file :=
    ((Document.gives_parse_walked file text).of_ok hparse).1
  refine ⟨?_, ?_, ?_, (sortedNames_eq hparse).symm⟩
  · have hnames := hperm.map Prod.fst
    have htaken : HasTaken ((definitions p.document).map Prod.fst) ↔
        HasTaken (p.document.declaredNames.map Prod.fst) :=
      ⟨fun h => h.perm hnames, fun h => h.perm hnames.symm⟩
    rw [← htaken, ← nameFault?_ne_none_iff]
    cases hf : nameFault? [] (definitions p.document) with
    | some found => simp [exec_defineUserTypes_of_fault hp hf, Except.isOk, Except.toBool]
    | none => simp [exec_defineUserTypes_of_none hp hf, Except.isOk, Except.toBool]
  · intro e st' h
    cases hf : nameFault? [] (definitions p.document) with
    | none =>
      rw [exec_defineUserTypes_of_none hp hf] at h
      cases h
    | some found =>
      obtain ⟨position, fault⟩ := found
      rw [exec_defineUserTypes_of_fault hp hf] at h
      obtain ⟨he, rfl⟩ := Prod.mk.inj h
      obtain ⟨name, hm, hbad, hfirst⟩ := nameFault?_earliest (definitions_ordered hparse) hf
      refine ⟨rfl, (name, position), hperm.mem_iff.1 hm, fault, hbad.perm hperm, ?_, ?_⟩
      · rw [← hfile]
        exact (Except.error.inj he).symm
      · intro y hy fault' hbad'
        exact hfirst y (hperm.mem_iff.2 hy) fault' (hbad'.perm hperm.symm)
  · intro u st' h hnew
    obtain ⟨hf, rfl⟩ := exec_defineUserTypes hp h
    have hnd : ((userTypes p.document).map Prod.fst).Nodup :=
      (List.nodup_append.1 (List.nodup_append.1 (declared_nodup hf)).2.1).1
    rw [LinkState.defineUsers_new hnd fun user _ id => hnew id user.1 user.2]
    refine ⟨rfl, ?_⟩
    intro k user hk
    exact ⟨LinkState.withUsers_node hk, LinkState.withUsers_symbol hp hnd hk⟩

/-- Names that clash across the kinds, a typedef last. -/
def clashingText : String :=
  "enum A \x7b X \x7d\nunion S \x7b \x7d\nstruct A \x7b \x7d\nservice i8 \x7b \x7d\ntypedef i32 S"

/-- A name of each kind. -/
def distinctText : String :=
  "service V \x7b \x7d exception X \x7b \x7d struct S \x7b \x7d typedef S T enum E \x7b A \x7d"

/-- The program of a text, before anything else is known. -/
def loneProgram (d : Document) : Program := .ofDocument ⟨true, ["names.thrift"]⟩ d

theorem clashing_and_distinct_checked :
    (∃ d, Document.parse "names.thrift" clashingText = .ok (loneProgram d).document ∧
      (LinkState.ofPrograms [loneProgram d]).programs[0]? = some (loneProgram d) ∧
      (exec (defineUserTypes 0) (.ofPrograms [loneProgram d])).1 =
        .error (.unlinkable ⟨"names.thrift", ⟨3, 1⟩⟩ (.repeatedDeclaration "A" 1)) ∧
      HasTaken (d.declaredNames.map Prod.fst)) ∧
    ∃ d, Document.parse "names.thrift" distinctText = .ok (loneProgram d).document ∧
      (LinkState.ofPrograms [loneProgram d]).programs[0]? = some (loneProgram d) ∧
      userTypes d = [("E", .enum), ("S", .record .struct), ("X", .record .exception)] ∧
      (∀ id name kind, (LinkState.ofPrograms [loneProgram d]).types.node id ≠ .user name kind 0) ∧
      exec (defineUserTypes 0) (.ofPrograms [loneProgram d]) =
        (.ok ⟨⟩, (LinkState.ofPrograms [loneProgram d]).withUsers 0 (userTypes d)) := by
  constructor
  · have hrun : (Document.parse "names.thrift" clashingText).map
        (fun d => (exec (defineUserTypes 0) (.ofPrograms [loneProgram d])).1) =
          .ok (.error (.unlinkable ⟨"names.thrift", ⟨3, 1⟩⟩ (.repeatedDeclaration "A" 1))) := by cbv
    cases h : Document.parse "names.thrift" clashingText with
    | error e =>
      rw [h] at hrun
      cases hrun
    | ok d =>
      rw [h] at hrun
      have hrun : (exec (defineUserTypes 0) (.ofPrograms [loneProgram d])).1 = .error _ :=
        Except.ok.inj hrun
      have hall := defineUserTypes_checked _ _ (loneProgram d) (.ofPrograms [loneProgram d]) 0 h rfl
      refine ⟨d, rfl, rfl, hrun, hall.1.1 ?_⟩
      rw [hrun]
      rfl
  · have hrun : (Document.parse "names.thrift" distinctText).map
        (fun d => (userTypes d, (exec (defineUserTypes 0) (.ofPrograms [loneProgram d])).1)) =
          .ok ([("E", .enum), ("S", .record .struct), ("X", .record .exception)], .ok ⟨⟩) := by cbv
    cases h : Document.parse "names.thrift" distinctText with
    | error e =>
      rw [h] at hrun
      cases hrun
    | ok d =>
      rw [h] at hrun
      obtain ⟨husers, hok⟩ := Prod.mk.inj (Except.ok.inj hrun)
      have hnew : ∀ id name kind,
          (LinkState.ofPrograms [loneProgram d]).types.node id ≠ .user name kind 0 :=
        fun id name kind hn => TypeGraph.not_declares_initial (.inl ⟨kind, hn⟩)
      have hall := defineUserTypes_checked _ _ (loneProgram d) (.ofPrograms [loneProgram d]) 0 h rfl
      have hsplit : exec (defineUserTypes 0) (.ofPrograms [loneProgram d]) =
          (.ok ⟨⟩, (exec (defineUserTypes 0) (.ofPrograms [loneProgram d])).2) := Prod.ext hok rfl
      refine ⟨d, rfl, rfl, husers, hnew, hsplit.trans ?_⟩
      rw [(hall.2.2.1 _ _ hsplit hnew).1]
      rfl

end Linking

end ThriftIdl
