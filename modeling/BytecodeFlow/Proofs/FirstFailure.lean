import BytecodeFlow.Proofs.Dangling
import BytecodeFlow.Proofs.Failures
import BytecodeFlow.Proofs.Rendering
import BytecodeFlow.Proofs.ScopeLog
import Mathlib.Data.Nat.Find

/-!
# The first offender

A code unit in ascending order from the entry fails exactly if one of its instructions offends when
it is visited with what the instructions before it leave, and it fails with the fault of the first
one (`fails_at_first_offender`).

Where predecessors disagree, the message shows two different stacks: each innermost scope is shown
with the offset that it was opened at, and no two scopes of an arena were opened at one offset
(`Pass.eq_of_origin_eq`).
-/

namespace BytecodeFlow

open BlockStack

namespace Construction

variable {c c' : Construction} {i : Instruction} {next : Option Int} {e : BuildError}
  {code : List Instruction} {steps : List (Instruction × Option Int)}

/-! ## The first step that fails -/

/-- The failure of the step at a position, after the run of those before it. -/
def failureAt (c : Construction) (steps : List (Instruction × Option Int)) (k : Nat) :
    Option BuildError :=
  steps[k]?.bind fun (i, next) => ((c.run (steps.take k)).1.advance i next).2

@[simp] theorem failureAt_zero (x : Instruction × Option Int) :
    c.failureAt (x :: steps) 0 = (c.advance x.1 x.2).2 := rfl

theorem failureAt_succ {x : Instruction × Option Int} (hadv : c.advance x.1 x.2 = (c', none))
    (k : Nat) : c.failureAt (x :: steps) (k + 1) = c'.failureAt steps k := by
  simp [failureAt, run, hadv]

/-- A run fails at the first step that fails. -/
theorem run_eq_some_iff :
    (c.run steps).2 = some e ↔
      ∃ k, c.failureAt steps k = some e ∧ ∀ j < k, c.failureAt steps j = none := by
  induction steps generalizing c with
  | nil => simp [run, failureAt]
  | cons x rest ih =>
    rw [run]
    split
    · rename_i c' hadv
      rw [ih]
      constructor
      · intro h
        obtain ⟨k, hk, hbefore⟩ := h
        refine ⟨k + 1, by rwa [failureAt_succ hadv], ?_⟩
        intro j hj
        cases j with
        | zero => rw [failureAt_zero, hadv]
        | succ j =>
          rw [failureAt_succ hadv]
          exact hbefore j (by omega)
      · intro h
        obtain ⟨k, hk, hbefore⟩ := h
        cases k with
        | zero => simp [hadv] at hk
        | succ k =>
          rw [failureAt_succ hadv] at hk
          refine ⟨k, hk, ?_⟩
          intro j hj
          rw [← failureAt_succ hadv]
          exact hbefore (j + 1) (by omega)
    · rename_i c' e' hadv
      constructor
      · intro h
        exact ⟨0, by simpa [hadv] using h, by simp⟩
      · intro h
        obtain ⟨k, hk, hbefore⟩ := h
        cases k with
        | zero => simpa [hadv] using hk
        | succ k =>
          have hfirst := hbefore 0 (by omega)
          simp [hadv] at hfirst

/-- The first steps of a run that does not fail before a position go well. -/
theorem run_take_eq_none {k : Nat} (h : ∀ j < k, c.failureAt steps j = none) :
    (c.run (steps.take k)).2 = none := by
  rw [Option.eq_none_iff_forall_ne_some]
  intro e he
  obtain ⟨j, hj, _⟩ := run_eq_some_iff.1 he
  by_cases hlt : j < k
  · have hsame : c.failureAt (steps.take k) j = c.failureAt steps j := by
      simp [failureAt, List.take_take, hlt, Nat.min_eq_left (Nat.le_of_lt hlt)]
    rw [hsame, h j hlt] at hj
    cases hj
  · simp [failureAt, hlt] at hj

theorem run_eq_none_iff : (c.run steps).2 = none ↔ ∀ k, c.failureAt steps k = none := by
  constructor
  · intro h
    by_contra hfails
    push Not at hfails
    obtain ⟨e, he⟩ := Option.ne_none_iff_exists'.1 (Nat.find_spec hfails)
    have hfirst := run_eq_some_iff.2 ⟨_, he, fun j hj => by simpa using Nat.find_min hfails hj⟩
    rw [h] at hfirst
    cases hfirst
  · intro h
    have hall := run_take_eq_none (k := steps.length) fun j _ => h j
    rwa [List.take_length] at hall

/-! ## The first instruction that offends -/

/-- What the first instructions of a code unit leave. -/
def before (code : List Instruction) (k : Nat) : Construction :=
  (start.run ((Instruction.withNext code).take k)).1

/-- No instruction before a position offends. -/
def Reached (code : List Instruction) (k : Nat) : Prop :=
  ∀ j < k, ∀ i next, (Instruction.withNext code)[j]? = some (i, next) →
    ¬ (before code j).Offends i next

/-- The instruction at a position is the first that offends. -/
def FirstOffender (code : List Instruction) (k : Nat) (i : Instruction) (next : Option Int) :
    Prop :=
  Reached code k ∧ (Instruction.withNext code)[k]? = some (i, next) ∧
    (before code k).Offends i next

theorem pass_before (hcode : Instruction.Ascending code) {k : Nat}
    (h : ∀ j < k, start.failureAt (Instruction.withNext code) j = none) :
    Pass ((Instruction.withNext code).take k) (before code k) := by
  apply pass_run_prefix hcode (List.take_append_drop k _).symm
  exact Prod.ext rfl (run_take_eq_none h)

/-- The predecessors of the instruction at a position are before it, in ascending order. -/
theorem Pass.incoming_lt {k : Nat} (hcode : Instruction.Ascending code)
    (h : Pass ((Instruction.withNext code).take k) c)
    (hk : (Instruction.withNext code)[k]? = some (i, next)) :
    (c.incoming i.offset).Pairwise (fun m n => m.offset < n.offset) ∧
      ∀ m ∈ c.incoming i.offset, m.offset < i.offset := by
  have hcut := eq_take_append_of_getElem? hk
  rw [h.coherent.incoming_eq h.ascending]
  refine ⟨h.ascending.filter _, ?_⟩
  intro m hm
  exact h.offset_lt (lt_of_steps hcode hcut) (List.mem_filter.1 hm).1

/-- When those before it have not failed, a step fails with the fault of its instruction. -/
theorem failureAt_iff (hcode : Instruction.Ascending code) {k : Nat}
    (h : ∀ j < k, start.failureAt (Instruction.withNext code) j = none) :
    (start.failureAt (Instruction.withNext code) k = none ↔
      ∀ i next, (Instruction.withNext code)[k]? = some (i, next) →
        ¬ (before code k).Offends i next) ∧
    ∀ e, start.failureAt (Instruction.withNext code) k = some e ↔
      ∃ i next, (Instruction.withNext code)[k]? = some (i, next) ∧
        (before code k).Offends i next ∧ (before code k).Fault i next e := by
  unfold failureAt
  cases hk : (Instruction.withNext code)[k]? with
  | none => simp
  | some x =>
    obtain ⟨i, next⟩ := x
    have hasc := ((pass_before hcode h).incoming_lt hcode hk).1
    constructor
    · show ((before code k).advance i next).2 = none ↔ _
      simp [advance_eq_none_iff hasc]
    · intro e
      show ((before code k).advance i next).2 = some e ↔ _
      simp [advance_eq_some_iff hasc]

/-- The steps before a position go well exactly if no instruction offends there. -/
theorem reached_iff (hcode : Instruction.Ascending code) (k : Nat) :
    Reached code k ↔ ∀ j < k, start.failureAt (Instruction.withNext code) j = none := by
  induction k with
  | zero => simp [Reached]
  | succ k ih =>
    unfold Reached at ih ⊢
    simp only [Nat.forall_lt_succ_right]
    rw [ih, and_congr_right_iff]
    intro h
    exact (failureAt_iff hcode h).1.symm

/-- A run fails with the fault of the first instruction that offends. -/
theorem run_eq_some_iff_firstOffender (hcode : Instruction.Ascending code) :
    (start.run (Instruction.withNext code)).2 = some e ↔
      ∃ k i next, FirstOffender code k i next ∧ (before code k).Fault i next e := by
  rw [run_eq_some_iff]
  constructor
  · intro h
    obtain ⟨k, hk, hbefore⟩ := h
    obtain ⟨i, next, hi, hoffends, hfault⟩ := ((failureAt_iff hcode hbefore).2 e).1 hk
    exact ⟨k, i, next, ⟨(reached_iff hcode k).2 hbefore, hi, hoffends⟩, hfault⟩
  · intro h
    obtain ⟨k, i, next, ⟨hreached, hi, hoffends⟩, hfault⟩ := h
    have hbefore := (reached_iff hcode k).1 hreached
    exact ⟨k, ((failureAt_iff hcode hbefore).2 e).2 ⟨i, next, hi, hoffends, hfault⟩, hbefore⟩

/-- A run goes well exactly if no instruction offends. -/
theorem run_eq_none_iff_forall_not_offends (hcode : Instruction.Ascending code) :
    (start.run (Instruction.withNext code)).2 = none ↔
      ∀ k i next, (Instruction.withNext code)[k]? = some (i, next) →
        ¬ (before code k).Offends i next := by
  rw [run_eq_none_iff]
  constructor
  · intro h k
    exact (failureAt_iff hcode fun j _ => h j).1.1 (h k)
  · intro h k
    have hbefore := (reached_iff hcode k).1 fun j _ => h j
    exact (failureAt_iff hcode hbefore).1.2 (h k)

/-! ## Stacks that are shown differently -/

/-- No two scopes were opened at one offset. -/
theorem Pass.eq_of_origin_eq {done : List (Instruction × Option Int)} (h : Pass done c)
    (hlogged : c.Logged) {j k : Nat} {x y : Scope} (hx : c.arena.get? j = some x)
    (hy : c.arena.get? k = some y) (ho : x.origin = y.origin) : j = k := by
  have hsetups : c.setups.Pairwise fun m n => m.offset < n.offset := h.ascending.filter _
  have hopened {id : Nat} {scope : Scope} (hscope : c.arena.get? id = some scope) :
      ∃ hlt : id < c.setups.length, c.setups[id].offset = scope.origin := by
    have hlt : id < c.setups.length := by
      rw [← h.coherent.size_eq_length_setups]
      exact Arena.lt_size_of_get? hscope
    exact ⟨hlt, ((hlogged.opened id _ (List.getElem?_eq_getElem hlt)).opens hscope).offset⟩
  obtain ⟨hj, hjx⟩ := hopened hx
  obtain ⟨hk, hky⟩ := hopened hy
  rcases Nat.lt_trichotomy j k with hlt | heq | hgt
  · have := List.pairwise_iff_getElem.1 hsetups j k hj hk hlt
    omega
  · exact heq
  · have := List.pairwise_iff_getElem.1 hsetups k j hk hj hgt
    omega

/-- Stacks with different innermost scopes are shown differently. -/
theorem Pass.renderStack_ne {done : List (Instruction × Option Int)} (h : Pass done c)
    (hlogged : c.Logged) {s t : BlockStack} (hs : s.Within c.arena) (ht : t.Within c.arena)
    (hne : s.top ≠ t.top) :
    Scope.renderStack (s.scopes c.arena) ≠ Scope.renderStack (t.scopes c.arena) := by
  intro htext
  have horigin := Scope.origin_head?_of_renderStack_eq htext
  rw [BlockStack.scopes, BlockStack.scopes, List.head?_map, List.head?_map] at horigin
  rw [← head?_toList hs, ← head?_toList ht] at hne
  cases hx : (s.toList c.arena).head? with
  | none =>
    cases hy : (t.toList c.arena).head? with
    | none => simp [hx, hy] at hne
    | some y => simp [hx, hy] at horigin
  | some x =>
    cases hy : (t.toList c.arena).head? with
    | none => simp [hx, hy] at horigin
    | some y =>
      simp only [hx, hy, Option.map_some, Option.some.injEq] at horigin hne
      have hid := h.eq_of_origin_eq hlogged (get?_of_mem_toList (List.mem_of_head? hx))
        (get?_of_mem_toList (List.mem_of_head? hy)) horigin
      exact hne (congrArg some hid)

/-! ## The end of the pass -/

/-- The first edge to an offset without a node, in the order of the nodes and of their
successors. -/
def FirstDangling (c : Construction) (n : Node) (target : Int) : Prop :=
  ∃ earlier later before after, c.nodes.toList = earlier ++ n :: later ∧
    n.successors = before ++ target :: after ∧ c.Dangles target ∧
    (∀ m ∈ earlier, ∀ b ∈ m.successors, ¬ c.Dangles b) ∧ ∀ b ∈ before, ¬ c.Dangles b

theorem danglingEdge?_eq_some_iff {index : Std.TreeMap Int Nat} {nodes : List Node}
    {source target : Int} :
    danglingEdge? index nodes = some (source, target) ↔
      ∃ earlier n later before after, nodes = earlier ++ n :: later ∧ n.offset = source ∧
        n.successors = before ++ target :: after ∧ index.contains target = false ∧
        (∀ m ∈ earlier, ∀ b ∈ m.successors, ¬ index.contains b = false) ∧
        ∀ b ∈ before, ¬ index.contains b = false := by
  simp only [danglingEdge?, List.findSome?_eq_some_iff, Option.map_eq_some_iff,
    List.find?_eq_some_iff_append, Prod.mk.injEq, Option.map_eq_none_iff, List.find?_eq_none,
    Bool.not_eq_true', Bool.not_not, Bool.not_eq_false]
  constructor
  · intro h
    obtain ⟨earlier, n, later, hnodes, ⟨_, ⟨hmissing, before, after, hedges, hbefore⟩, hsource,
      rfl⟩, hearlier⟩ := h
    exact ⟨earlier, n, later, before, after, hnodes, hsource, hedges, hmissing, hearlier, hbefore⟩
  · intro h
    obtain ⟨earlier, n, later, before, after, hnodes, hsource, hedges, hmissing, hearlier,
      hbefore⟩ := h
    exact ⟨earlier, n, later, hnodes, ⟨target, ⟨hmissing, before, after, hedges, hbefore⟩,
      hsource, rfl⟩, hearlier⟩

theorem Coherent.finish_eq_error_iff (h : c.Coherent)
    (hasc : c.nodes.toList.Pairwise fun m n => m.offset < n.offset) :
    c.finish = .error e ↔
      ∃ n target, c.FirstDangling n target ∧ e = .danglingEdge n.offset target := by
  simp only [finish_eq_error_iff_danglingEdge?, danglingEdge?_eq_some_iff,
    h.contains_eq_false_iff hasc]
  constructor
  · intro h
    obtain ⟨_, target, ⟨earlier, n, later, before, after, hnodes, rfl, hedge⟩, he⟩ := h
    exact ⟨n, target, ⟨earlier, later, before, after, hnodes, hedge⟩, he⟩
  · intro h
    obtain ⟨n, target, ⟨earlier, later, before, after, hnodes, hedge⟩, he⟩ := h
    exact ⟨_, target, ⟨earlier, n, later, before, after, hnodes, rfl, hedge⟩, he⟩

/-- A message about predecessors that disagree names two of them in their order, and shows two
different stacks. -/
theorem FirstOffender.disagreement (hcode : Instruction.Ascending code) {k : Nat}
    (h : FirstOffender code k i next) {offset : Int} {opcode : Opcode}
    {expected found : List Scope} {expectedFrom foundFrom : Int}
    (hfault : (before code k).Fault i next
      (.inconsistentStack offset opcode expected expectedFrom found foundFrom)) :
    expectedFrom < foundFrom ∧ foundFrom < offset ∧
      Scope.renderStack expected ≠ Scope.renderStack found := by
  obtain ⟨hreached, hk, _⟩ := h
  have hpass := pass_before hcode ((reached_iff hcode k).1 hreached)
  obtain ⟨hasc, hlt⟩ := hpass.incoming_lt hcode hk
  have hwithin {m : Node} (hm : m ∈ (before code k).incoming i.offset) :
      ((before code k).handedOver m i.offset).Within (before code k).arena :=
    (hpass.coherent.within m (hpass.coherent.mem_of_mem_incoming hm)).2.popUntil i.offset
  cases hfault with
  | @disagreement m n hm hleast hn hne _ =>
    have hdistinct : m.offset ≠ n.offset := by
      intro ho
      rw [eq_of_offset_eq_of_pairwise hasc hm hn ho] at hne
      exact hne rfl
    have hle := hleast n hn
    refine ⟨by omega, hlt n hn, ?_⟩
    exact hpass.renderStack_ne (logged_run _) (hwithin hm) (hwithin hn) hne
  | lacks _ _ lacks => cases lacks

/-- A code unit in ascending order from the entry fails exactly if one of its instructions offends
when it is visited with what those before it leave, and it fails with the fault of the first one.
Predecessors that disagree are all before the instruction, they are named in their order, and their
stacks are shown differently. If nothing offends, the graph is not built only for the first edge to
an offset without a node. -/
theorem fails_at_first_offender {first : Instruction} {rest : List Instruction}
    (hcode : Instruction.Ascending (first :: rest)) (hentry : first.offset = Offset.entry) :
    let code := first :: rest
    ((start.process code).2 ≠ none ↔
      ∃ k i next, (Instruction.withNext code)[k]? = some (i, next) ∧
        (before code k).Offends i next) ∧
    (∀ e, (start.process code).2 = some e ↔
      ∃ k i next, FirstOffender code k i next ∧ (before code k).Fault i next e) ∧
    (∀ k i next, Reached code k → (Instruction.withNext code)[k]? = some (i, next) →
      ∀ m ∈ (before code k).incoming i.offset, m.offset < i.offset) ∧
    (∀ offset opcode expected expectedFrom found foundFrom,
      (start.process code).2 =
        some (.inconsistentStack offset opcode expected expectedFrom found foundFrom) →
      expectedFrom < foundFrom ∧ foundFrom < offset ∧
        Scope.renderStack expected ≠ Scope.renderStack found) ∧
    ∀ c, start.process code = (c, none) → ∀ e, Graph.build code = .error e ↔
      ∃ n target, c.FirstDangling n target ∧ e = .danglingEdge n.offset target := by
  intro code
  have hprocess : start.process code = start.run (Instruction.withNext code) := if_pos hentry
  refine ⟨?_, ?_, ?_, ?_, ?_⟩
  · rw [hprocess, ne_eq, run_eq_none_iff_forall_not_offends hcode]
    push Not
    rfl
  · intro e
    rw [hprocess]
    exact run_eq_some_iff_firstOffender hcode
  · intro k i next hreached hk
    exact ((pass_before hcode ((reached_iff hcode k).1 hreached)).incoming_lt hcode hk).2
  · intro offset opcode expected expectedFrom found foundFrom h
    rw [hprocess] at h
    obtain ⟨k, i, next, hfirst, hfault⟩ := (run_eq_some_iff_firstOffender hcode).1 h
    exact hfirst.disagreement hcode hfault
  · intro c hc e
    have hpass := pass_run hcode (hprocess.symm.trans hc)
    rw [Graph.build, hc]
    exact hpass.coherent.finish_eq_error_iff hpass.ascending

end Construction

/-- The instruction at 4 is entered from 2, inside the loop, and from 0, outside of it. -/
def Instruction.jumpIntoLoop : List Instruction :=
  [⟨.popJumpIfFalse, 0, some 4, some 4, false⟩, ⟨.setupLoop, 2, some 4, some 8, false⟩,
    ⟨.nop, 4, none, none, true⟩, ⟨.popBlock, 6, none, none, false⟩,
    ⟨.returnValue, 8, none, none, true⟩]

/-- The instruction at 4 is the first that offends, and the message shows the loop only for 2. -/
theorem Construction.fails_at_first_offender_jumpIntoLoop :
    (∃ k i next, FirstOffender Instruction.jumpIntoLoop k i next ∧
      (before Instruction.jumpIntoLoop k).Fault i next
        (.inconsistentStack 4 .nop [] 0 [⟨.loopBlock, 8, 2, none⟩] 2)) ∧
    Scope.renderStack [] ≠ Scope.renderStack [⟨.loopBlock, 8, 2, none⟩] := by
  have hfails : (start.process Instruction.jumpIntoLoop).2 =
      some (.inconsistentStack 4 .nop [] 0 [⟨.loopBlock, 8, 2, none⟩] 2) := by decide +kernel
  have hcode : Instruction.Ascending Instruction.jumpIntoLoop := by
    unfold Instruction.Ascending
    decide
  obtain ⟨_, hfirst, _, hshown, _⟩ := fails_at_first_offender hcode rfl
  exact ⟨(hfirst _).1 hfails, (hshown _ _ _ _ _ _ hfails).2.2⟩

end BytecodeFlow
