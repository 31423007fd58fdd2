import ThriftIdl.Proofs.Runs
import ThriftIdl.Proofs.Unfolding
import ThriftIdl.Schema.Json
import ThriftIdl.Schema.JsonSchema

namespace ThriftIdl

namespace Json

variable {key : String} {value : Json} {members : List (String × Json)}

theorem depth_le_of_mem (h : (key, value) ∈ members) : value.depth ≤ membersDepth members := by
  induction members with
  | nil => simp at h
  | cons member members ih =>
    rw [membersDepth]
    rcases List.mem_cons.1 h with rfl | h
    · exact Nat.le_max_left _ _
    · exact Nat.le_trans (ih h) (Nat.le_max_right _ _)

theorem depth_lt_of_mem (h : (key, value) ∈ members) : value.depth < (obj members).depth := by
  rw [depth]
  exact Nat.lt_succ_of_le (depth_le_of_mem h)

end Json

namespace JsonSchema

/-- Two schemas judge the values alike that are less deep. -/
def AgreeBelow (bound : Nat) (schema schema' : JsonSchema) : Prop :=
  ∀ part : Json, part.depth < bound → schema part = schema' part

variable {schema schema' : JsonSchema} {value : Json} {key : String} {bound : Nat}
  {required required' optional : List (String × JsonSchema)} {members : List (String × Json)}

theorem object_obj : object required optional (.obj members) = true ↔
    (members.map Prod.fst).Nodup ∧ (∀ key ∈ required.map Prod.fst, key ∈ members.map Prod.fst) ∧
      ∀ member ∈ members, ((required ++ optional).lookup member.1).any (· member.2) = true := by
  simp [object]

theorem lookup_congr
    (h : List.Forall₂ (fun r r' => r.1 = r'.1 ∧ AgreeBelow bound r.2 r'.2) required required')
    {part : Json} (hlt : part.depth < bound) :
    (required.lookup key).any (· part) = (required'.lookup key).any (· part) := by
  induction h with
  | nil => rfl
  | @cons r r' required required' hr _ ih =>
    obtain ⟨hkey, hr⟩ := hr
    rw [List.lookup_cons, List.lookup_cons, hkey]
    cases key == r'.1 with
    | true => exact hr part hlt
    | false => exact ih

/-- An object is judged by its members, which are all less deep. -/
theorem object_congr
    (h : List.Forall₂ (fun r r' => r.1 = r'.1 ∧ AgreeBelow value.depth r.2 r'.2)
      required required') : object required [] value = object required' [] value := by
  have hkeys : required.map Prod.fst = required'.map Prod.fst :=
    map_eq_map_of_forall₂ (h.imp fun _ _ hr => hr.1)
  cases value with
  | obj members =>
    rw [Bool.eq_iff_iff, object_obj, object_obj, hkeys, List.append_nil, List.append_nil]
    refine and_congr_right fun _ => and_congr_right fun _ => forall₂_congr fun member hm => ?_
    rw [lookup_congr h (Json.depth_lt_of_mem hm)]
  | _ => rfl

theorem typeAlternatives_congr (h : AgreeBelow value.depth schema schema') :
    oneOf (typeAlternatives schema) value = oneOf (typeAlternatives schema') value := by
  have hkind {kinds : List String} : AgreeBelow value.depth (words kinds) (words kinds) :=
    fun _ _ => rfl
  have hcontainer : object [("element", schema), ("kind", words ["list", "set"])] [] value =
      object [("element", schema'), ("kind", words ["list", "set"])] [] value :=
    object_congr (.cons ⟨rfl, h⟩ (.cons ⟨rfl, hkind⟩ .nil))
  have hmap : object [("key", schema), ("kind", words ["map"]), ("value", schema)] [] value =
      object [("key", schema'), ("kind", words ["map"]), ("value", schema')] [] value :=
    object_congr (.cons ⟨rfl, h⟩ (.cons ⟨rfl, hkind⟩ (.cons ⟨rfl, h⟩ .nil)))
  have htypedef : object [("kind", words ["typedef"]), ("name", identifier), ("target", schema)] []
      value = object [("kind", words ["typedef"]), ("name", identifier), ("target", schema')] []
        value :=
    object_congr (.cons ⟨rfl, hkind⟩ (.cons ⟨rfl, fun _ _ => rfl⟩ (.cons ⟨rfl, h⟩ .nil)))
  unfold oneOf typeAlternatives
  simp only [List.countP_cons, hcontainer, hmap, htypedef]

/-- What a type has to be like: the guard against endless descent never stops it. -/
theorem type_eq (value : Json) : type value = oneOf (typeAlternatives type) value := by
  have hrec : type value = oneOf (typeAlternatives fun part =>
      if part.depth < value.depth then type part else false) value := by
    unfold type
    rw [recursive]
  rw [hrec]
  apply typeAlternatives_congr
  intro part hlt
  exact if_pos hlt

example : type (.obj [("element", .null), ("kind", .str "list")]) = false := by
  rw [type_eq]
  simp [oneOf, typeAlternatives, object, words, List.lookup_cons, type_eq .null]

end JsonSchema

namespace TypeTree

/-- Declared types have names. -/
def Named : TypeTree → Prop
  | placeholder | builtin _ => True
  | list element => element.Named
  | set element => element.Named
  | map key value => key.Named ∧ value.Named
  | user name _ _ => name ≠ ""
  | typedef name target _ => name ≠ "" ∧ target.Named

open JsonSchema in
/-- A type fits the alternative for its kind. The other alternatives want another kind. -/
theorem accepted {t : TypeTree} (hc : t.Complete) (hn : t.Named) : type t.toJson = true := by
  have hlength {name : String} (h : name ≠ "") : 1 ≤ name.length := by
    rw [Nat.one_le_iff_ne_zero]
    exact fun h0 => h (String.length_eq_zero_iff.1 h0)
  induction t with
  | placeholder => exact hc.elim
  | builtin type =>
    rw [type_eq]
    cases type <;>
      simp [oneOf, typeAlternatives, toJson, object, words, List.lookup_cons, Builtin.name]
  | list element ih =>
    have h := ih hc hn
    rw [type_eq]
    simp [oneOf, typeAlternatives, toJson, object, words, List.lookup_cons, h]
  | set element ih =>
    have h := ih hc hn
    rw [type_eq]
    simp [oneOf, typeAlternatives, toJson, object, words, List.lookup_cons, h]
  | map key value ihk ihv =>
    have hk := ihk hc.1 hn.1
    have hv := ihv hc.2 hn.2
    rw [type_eq]
    simp [oneOf, typeAlternatives, toJson, object, words, List.lookup_cons, hk, hv]
  | user name kind program =>
    have hname := hlength hn
    rw [type_eq]
    rcases kind with ⟨_ | _ | _⟩ | _ <;>
      simp [oneOf, typeAlternatives, toJson, object, words, identifier, text, List.lookup_cons,
        UserKind.keyword, RecordKind.keyword, hname]
  | typedef name target program ih =>
    have hname := hlength hn.1
    have h := ih hc hn.2
    rw [type_eq]
    simp [oneOf, typeAlternatives, toJson, object, words, identifier, text, List.lookup_cons, h,
      hname]

end TypeTree

end ThriftIdl
