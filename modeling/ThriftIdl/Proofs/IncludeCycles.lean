import Mathlib.Data.List.Chain
import ThriftIdl.Load
import ThriftIdl.Proofs.IncludeDiscovery

namespace ThriftIdl

namespace LinkOrder

inductive Ordered (programs : List Program) : List ProgramId → Prop
  | nil : Ordered programs []
  | snoc {done : List ProgramId} {id : ProgramId} (earlier : Ordered programs done)
      (valid : id < programs.length) (new : id ∉ done)
      (after : ∀ j, Includes programs id j → j ∈ done) : Ordered programs (done ++ [id])

/-- Different programs, each of which includes the next, and the last of which, `p`, includes the
first. -/
structure Circle (programs : List Program) (cycle : List ProgramId) (p : Program)
    (inc : Include) : Prop where
  nodup : cycle.Nodup
  chain : cycle.IsChain (Includes programs)
  first : cycle.head? = some inc.target
  last : (cycle.getLast?.bind fun id => programs[id]?) = some p
  closes : inc ∈ p.includes

def fileNameOf (programs : List Program) (id : ProgramId) : String :=
  (programs[id]?.map fun p => p.path.fileName).getD ""

def ReportsCircle (programs : List Program) (e : LoadError) : Prop :=
  ∃ cycle p inc, Circle programs cycle p inc ∧
    e = .unlinkable (p.locate inc.position)
      (.circularInclude ((cycle ++ [inc.target]).map (fileNameOf programs)))

section Ordered

variable {programs : List Program} {order : List ProgramId} {i j : ProgramId}

namespace Ordered

theorem nodup (h : Ordered programs order) : order.Nodup := by
  induction h with
  | nil => exact List.nodup_nil
  | snoc earlier valid new after ih =>
    rw [List.nodup_append]
    refine ⟨ih, List.nodup_singleton _, ?_⟩
    rintro i hi j hj rfl
    exact new (List.mem_singleton.1 hj ▸ hi)

theorem lt_length (h : Ordered programs order) (hi : i ∈ order) : i < programs.length := by
  induction h with
  | nil => simp at hi
  | snoc earlier valid new after ih =>
    rcases List.mem_append.1 hi with hi | hi
    · exact ih hi
    · obtain rfl := List.mem_singleton.1 hi
      exact valid

theorem includes_before (h : Ordered programs order) {before after : List ProgramId}
    (he : order = before ++ i :: after) (hij : Includes programs i j) : j ∈ before := by
  induction h generalizing after with
  | nil => simp at he
  | @snoc done id earlier valid new hafter ih =>
    rcases List.eq_nil_or_concat after with rfl | ⟨after', last, rfl⟩
    · obtain ⟨rfl, hid⟩ := List.append_inj' he rfl
      obtain rfl : id = i := by simpa using hid
      exact hafter j hij
    · have he' : done ++ [id] = (before ++ i :: after') ++ [last] := by
        rw [he]
        simp
      exact ih (List.append_inj' he' rfl).1

theorem closed (h : Ordered programs order) (hi : i ∈ order)
    (hij : Relation.ReflTransGen (Includes programs) i j) : j ∈ order := by
  induction hij with
  | refl => exact hi
  | tail _ hstep ih =>
    obtain ⟨before, after, he⟩ := List.append_of_mem ih
    rw [he]
    exact List.mem_append_left _ (h.includes_before he hstep)

theorem acyclic (h : Ordered programs order) (hi : i ∈ order) :
    ¬ Relation.TransGen (Includes programs) i i := by
  induction h with
  | nil => simp at hi
  | @snoc done id earlier valid new after ih =>
    rcases List.mem_append.1 hi with hi | hi
    · exact ih hi
    · obtain rfl := List.mem_singleton.1 hi
      intro hcycle
      obtain ⟨j, hj, hback⟩ := Relation.TransGen.head'_iff.1 hcycle
      exact new (earlier.closed (after j hj) hback)

end Ordered

end Ordered

section Circle

variable {programs : List Program} {stack : List ProgramId} {id : ProgramId} {p : Program}
  {inc : Include} {cycle : List ProgramId}

theorem circular_reports (hnd : (stack ++ [id]).Nodup)
    (hchain : (stack ++ [id]).IsChain (Includes programs)) (hp : programs[id]? = some p)
    (hinc : inc ∈ p.includes) (hm : inc.target ∈ stack ++ [id]) :
    ReportsCircle programs (circular programs (stack ++ [id]) p inc) := by
  obtain ⟨before, after, he, hnot⟩ := List.eq_append_cons_of_mem hm
  have hdrop : (stack ++ [id]).dropWhile (· ≠ inc.target) = inc.target :: after := by
    rw [he, List.dropWhile_append_of_pos]
    · simp
    · intro i hi
      simp only [decide_eq_true_eq]
      rintro rfl
      exact hnot hi
  refine ⟨inc.target :: after, p, inc, ?_, ?_⟩
  · refine ⟨?_, ?_, rfl, ?_, hinc⟩
    · rw [he] at hnd
      exact (List.nodup_append.1 hnd).2.1
    · rw [he] at hchain
      exact hchain.right_of_append
    · have hlast : (inc.target :: after).getLast? = some id := by
        have hs := congrArg List.getLast? he
        rw [List.getLast?_append_cons, List.getLast?_append_cons] at hs
        exact hs.symm
      rw [hlast]
      exact hp
  · unfold circular
    rw [hdrop]
    rfl

theorem Circle.transGen (h : Circle programs cycle p inc) :
    Relation.TransGen (Includes programs) inc.target inc.target := by
  obtain ⟨-, hchain, hfirst, hlast, hinc⟩ := h
  obtain ⟨last, hl, hp⟩ := Option.bind_eq_some_iff.1 hlast
  have hclose : Includes programs last inc.target := ⟨p, hp, inc, hinc, rfl⟩
  have hreach : ∀ first, cycle.head? = some first →
      Relation.ReflTransGen (Includes programs) first last := by
    clear hlast hfirst
    induction cycle with
    | nil => simp at hl
    | cons i cycle ih =>
      intro first hf
      obtain rfl : i = first := by simpa using hf
      cases cycle with
      | nil =>
        obtain rfl : i = last := by simpa using hl
        exact .refl
      | cons j cycle =>
        rw [List.isChain_cons_cons] at hchain
        rw [List.getLast?_cons_cons] at hl
        exact .head hchain.1 (ih hchain.2 hl j rfl)
  exact .tail' (hreach _ hfirst) hclose

end Circle

structure Visiting (programs : List Program) (stack done : List ProgramId) (id : ProgramId) :
    Prop where
  nodup : (stack ++ [id]).Nodup
  chain : (stack ++ [id]).IsChain (Includes programs)
  valid : ∀ i ∈ stack ++ [id], i < programs.length
  ordered : Ordered programs done
  undone : ∀ i ∈ stack, i ∉ done

structure Visited (programs : List Program) (stack done : List ProgramId)
    (targets : List ProgramId) (done' : List ProgramId) : Prop where
  ordered : Ordered programs done'
  keeps : ∀ i ∈ done, i ∈ done'
  undone : ∀ i ∈ stack, i ∉ done'
  reaches : ∀ i ∈ targets, i ∈ done'

section Visit

variable {programs : List Program} {stack done done' : List ProgramId} {id : ProgramId}
  {p : Program} {inc : Include} {depth : Nat}

theorem Visiting.next (h : Visiting programs stack done id) (hp : programs[id]? = some p)
    (hinc : inc ∈ p.includes) (hlt : inc.target < programs.length)
    (hnot : inc.target ∉ stack ++ [id]) (ho : Ordered programs done')
    (hu : ∀ i ∈ stack ++ [id], i ∉ done') :
    Visiting programs (stack ++ [id]) done' inc.target := by
  refine ⟨?_, ?_, ?_, ho, hu⟩
  · rw [List.nodup_append]
    refine ⟨h.nodup, List.nodup_singleton _, ?_⟩
    rintro i hi j hj rfl
    exact hnot (List.mem_singleton.1 hj ▸ hi)
  · rw [List.isChain_append]
    refine ⟨h.chain, List.isChain_singleton _, ?_⟩
    intro i hi j hj
    obtain rfl : id = i := by simpa using hi
    obtain rfl : inc.target = j := by simpa using hj
    exact ⟨p, hp, inc, hinc, rfl⟩
  · intro i hi
    rcases List.mem_append.1 hi with hi | hi
    · exact h.valid i hi
    · obtain rfl := List.mem_singleton.1 hi
      exact hlt

theorem Visiting.finish (h : Visiting programs stack done id) (hp : programs[id]? = some p)
    (hv : Visited programs (stack ++ [id]) done (p.includes.map Include.target) done') :
    Visited programs stack done [id] (done' ++ [id]) := by
  refine ⟨?_, ?_, ?_, ?_⟩
  · refine .snoc hv.ordered (h.valid id (by simp)) (hv.undone id (by simp)) ?_
    rintro j ⟨q, hq, inc, hinc, rfl⟩
    obtain rfl : p = q := Option.some.inj (hp.symm.trans hq)
    exact hv.reaches _ (List.mem_map_of_mem hinc)
  · intro i hi
    exact List.mem_append_left _ (hv.keeps i hi)
  · intro i hi hm
    rcases List.mem_append.1 hm with hm | hm
    · exact hv.undone i (List.mem_append_left _ hi) hm
    · obtain rfl := List.mem_singleton.1 hm
      exact (List.nodup_append.1 h.nodup).2.2 i hi i (List.mem_singleton_self i) rfl
  · intro i hi
    exact List.mem_append_right _ hi

theorem visit_step (hclosed : ∀ i j, Includes programs i j → j < programs.length)
    (h : Visiting programs stack done id) (hp : programs[id]? = some p)
    (hdepth : programs.length ≤ depth + 1 + stack.length)
    (ih : ∀ {stack done : List ProgramId} {id : ProgramId}, Visiting programs stack done id →
      programs.length ≤ depth + stack.length →
      Gives (visit programs depth stack done id) (Visited programs stack done [id])
        (ReportsCircle programs))
    (seen : List Include) (inc : Include) (done' : List ProgramId) (hinc : inc ∈ p.includes)
    (hv : Visited programs (stack ++ [id]) done (seen.map Include.target) done') :
    Gives (if inc.target ∈ stack ++ [id] then throw (circular programs (stack ++ [id]) p inc)
        else visit programs depth (stack ++ [id]) done' inc.target)
      (Visited programs (stack ++ [id]) done ((seen ++ [inc]).map Include.target))
      (ReportsCircle programs) := by
  split
  · next hm => exact circular_reports h.nodup h.chain hp hinc hm
  · next hm =>
    have hlt : inc.target < programs.length := hclosed id _ ⟨p, hp, inc, hinc, rfl⟩
    have hnext := h.next hp hinc hlt hm hv.ordered hv.undone
    have hroom : programs.length ≤ depth + (stack ++ [id]).length := by
      rw [List.length_append, List.length_singleton]
      omega
    refine (ih hnext hroom).imp (fun done'' hv' => ⟨hv'.ordered, ?_, hv'.undone, ?_⟩) fun _ he => he
    · intro i hi
      exact hv'.keeps i (hv.keeps i hi)
    · intro i hi
      rw [List.map_append] at hi
      rcases List.mem_append.1 hi with hi | hi
      · exact hv'.keeps i (hv.reaches i hi)
      · exact hv'.reaches i hi

theorem visit_gives (hclosed : ∀ i j, Includes programs i j → j < programs.length)
    (h : Visiting programs stack done id) (hdepth : programs.length ≤ depth + stack.length) :
    Gives (visit programs depth stack done id) (Visited programs stack done [id])
      (ReportsCircle programs) := by
  induction depth generalizing stack done id with
  | zero =>
    -- The depth is never used up, because the programs on the stack differ.
    have hle := length_le_of_valid h.nodup h.valid
    rw [List.length_append, List.length_singleton] at hle
    omega
  | succ depth ih =>
    have hid : id < programs.length := h.valid id (by simp)
    have hp : programs[id]? = some programs[id] := List.getElem?_eq_getElem hid
    rw [visit, hp]
    dsimp only
    split
    · next hm =>
      refine ⟨h.ordered, fun _ hi => hi, h.undone, ?_⟩
      intro i hi
      obtain rfl := List.mem_singleton.1 hi
      exact hm
    · next hm =>
      have hstart : Visited programs (stack ++ [id]) done (([] : List Include).map Include.target)
          done := by
        refine ⟨h.ordered, fun _ hi => hi, ?_, by simp⟩
        intro i hi
        rcases List.mem_append.1 hi with hi | hi
        · exact h.undone i hi
        · obtain rfl := List.mem_singleton.1 hi
          exact hm
      have hrun := Gives.foldlM (fun seen => Visited programs (stack ++ [id]) done
        (seen.map Include.target)) hstart (visit_step hclosed h hp hdepth ih)
      apply hrun.bind
      intro done' hv
      exact h.finish hp hv

end Visit

end LinkOrder

end ThriftIdl
