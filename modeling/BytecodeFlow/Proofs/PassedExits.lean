import BytecodeFlow.Proofs.EdgeOrigins
import Mathlib.Data.List.TakeWhile

/-!
# Exits passed on the way

Before every instruction the scopes that end there or before are left, from the inside up to one
that is still open. The scopes around an open one may have ended all the same, and then they stay.
What is left at an offset does not depend on the stops made on the way there: two stops leave what
the later one alone leaves, and a block stack that is handed on unchanged from node to node arrives
as if it had come there at once (`BlockStack.popUntil_composes`).
-/

namespace BytecodeFlow

namespace BlockStack

/-- Leaves the scopes that have ended at each of some stops in turn. -/
def popAlong (s : BlockStack) (a : Arena) (stops : List Int) : BlockStack :=
  stops.foldl (fun t stop => t.popUntil a stop) s

variable {s : BlockStack} {a : Arena} {stops : List Int} {stop last offset : Int} {id : Nat}

theorem popAlong_cons :
    s.popAlong a (stop :: stops) = (s.popUntil a stop).popAlong a stops := rfl

/-- Stops before the last one make no difference. -/
theorem popAlong_append_singleton (h : ∀ stop ∈ stops, stop ≤ last) :
    s.popAlong a (stops ++ [last]) = s.popUntil a last := by
  induction stops generalizing s with
  | nil => rfl
  | cons stop rest ih =>
    obtain ⟨hstop, hrest⟩ := List.forall_mem_cons.1 h
    rw [List.cons_append, popAlong_cons, ih hrest, popUntil_popUntil, Int.max_eq_right hstop]

/-- The scopes that are left have ended, and the others are the rest of the stack. -/
theorem exists_ended_append (s : BlockStack) (a : Arena) (offset : Int) :
    ∃ ended, s.toList a = ended ++ (s.popUntil a offset).toList a ∧
      ∀ x ∈ ended, x.2.exit ≤ offset := by
  refine ⟨(s.toList a).takeWhile (·.2.exit ≤ offset), ?_, ?_⟩
  · rw [toList_popUntil]
    exact List.takeWhile_append_dropWhile.symm
  · intro x hx
    simpa using List.mem_takeWhile_imp hx

/-- The innermost scope that stays is open. -/
theorem exists_open_of_mem_top (h : id ∈ (s.popUntil a offset).top) :
    ∃ scope, a.get? id = some scope ∧ offset < scope.exit := by
  induction s using induction (a := a) with
  | none =>
    rw [popUntil_empty] at h
    cases h
  | dangling top hg =>
    rw [popUntil_dangling hg] at h
    cases h
  | some top scope hg ih =>
    by_cases ho : offset < scope.exit
    · rw [popUntil_open hg ho] at h
      cases h
      exact ⟨scope, hg, ho⟩
    · rw [popUntil_left hg ho] at h
      exact ih h

end BlockStack

namespace Graph

variable {code : List Instruction} {g : Graph} {m n : Node} {ks : List Node}

theorem le_of_mem_walk (hwalk : g.Walk (m :: (ks ++ [n]))) : ∀ k ∈ ks, k.offset ≤ n.offset := by
  induction ks generalizing m with
  | nil => simp
  | cons k rest ih =>
    obtain ⟨_, _, hrest⟩ := walk_cons_cons.1 hwalk
    exact List.forall_mem_cons.2 ⟨Int.le_of_lt (lt_of_walk hrest), ih hrest⟩

/-- A stack that the nodes of a walk hand on unchanged is popped at each of them in turn. -/
theorem Built.stack_eq_popAlong (h : g.Built code) (hexit : n.isExit = false)
    (hwalk : g.Walk (m :: (ks ++ [n]))) (hsame : ∀ k ∈ ks, k.outStack = k.stack) :
    n.stack = m.outStack.popAlong g.arena (ks.map (·.offset) ++ [n.offset]) := by
  induction ks generalizing m with
  | nil =>
    obtain ⟨hm, hforward, hn⟩ := walk_cons_cons.1 hwalk
    exact h.stack_eq hm (hn.1 n (by simp)) hexit hforward
  | cons k rest ih =>
    obtain ⟨hm, hforward, hrest⟩ := walk_cons_cons.1 hwalk
    obtain ⟨hk, hothers⟩ := List.forall_mem_cons.1 hsame
    have hstack := h.stack_eq hm (hrest.1 k (by simp)) (h.isExit_of_walk hrest) hforward
    rw [List.map_cons, List.cons_append, BlockStack.popAlong_cons, ← hstack, ← hk]
    exact ih hrest hothers

end Graph

/-- Leaving scopes at two offsets is leaving them at the greater one, so that it can be repeated and
done in any order. What is left is the rest of the stack from the innermost open scope on. Any stops
on the way to an offset make no difference there, and so a block stack that the nodes of a walk hand
on unchanged arrives as if it had come to the last node at once. -/
theorem BlockStack.popUntil_composes (s : BlockStack) (a : Arena) :
    (∀ first second,
      (s.popUntil a first).popUntil a second = s.popUntil a (max first second)) ∧
    (∀ offset, (s.popUntil a offset).popUntil a offset = s.popUntil a offset) ∧
    (∀ first second,
      (s.popUntil a first).popUntil a second = (s.popUntil a second).popUntil a first) ∧
    (∀ offset,
      (∃ ended, s.toList a = ended ++ (s.popUntil a offset).toList a ∧
        ∀ x ∈ ended, x.2.exit ≤ offset) ∧
      ∀ id ∈ (s.popUntil a offset).top,
        ∃ scope, a.get? id = some scope ∧ offset < scope.exit) ∧
    (∀ stops last, (∀ stop ∈ stops, stop ≤ last) →
      s.popAlong a (stops ++ [last]) = s.popUntil a last) ∧
    ∀ code g, Instruction.Ascending code → Graph.build code = .ok g → g.arena = a →
      ∀ (m : Node) ks n, m.outStack = s → g.Walk (m :: (ks ++ [n])) → n.isExit = false →
        (∀ k ∈ ks, k.outStack = k.stack) →
        n.stack = s.popAlong a (ks.map (·.offset) ++ [n.offset]) ∧
          n.stack = s.popUntil a n.offset := by
  refine ⟨popUntil_popUntil s a, ?_, ?_, ?_, fun _ _ => popAlong_append_singleton, ?_⟩
  · intro offset
    rw [popUntil_popUntil, Int.max_self]
  · intro first second
    rw [popUntil_popUntil, popUntil_popUntil, Int.max_comm]
  · intro offset
    exact ⟨exists_ended_append s a offset, fun id => exists_open_of_mem_top⟩
  · rintro code g hcode h rfl m ks n rfl hwalk hexit hsame
    have hstack := (Graph.Built.of_build hcode h).stack_eq_popAlong hexit hwalk hsame
    refine ⟨hstack, hstack.trans (popAlong_append_singleton ?_)⟩
    intro stop hstop
    obtain ⟨k, hk, rfl⟩ := List.mem_map.1 hstop
    exact Graph.le_of_mem_walk hwalk k hk

/-- A `finally` block in an `except` block that ends after the loop around it. -/
def BlockStack.crossingScopes : Arena × BlockStack :=
  let inLoop := BlockStack.empty.push .empty .loopBlock 20 0
  let inExcept := inLoop.2.push inLoop.1 .exceptBlock 30 2
  inExcept.2.push inExcept.1 .finallyBlock 10 4

/-- At 28 the loop has ended, but stays because the `except` block in it is open. The stack in the
`finally` block at 2 arrives at 10 by way of the deferred continue as if it came there at once. -/
theorem BlockStack.popUntil_composes_crossingScopes :
    crossingScopes.2.popAlong crossingScopes.1 [12, 25, 11, 28] = ⟨some 1⟩ ∧
      toList ⟨some 1⟩ crossingScopes.1 =
        [(1, ⟨.exceptBlock, 30, 2, some 0⟩), (0, ⟨.loopBlock, 20, 0, none⟩)] ∧
      ∃ g, ∃ m k l n : Node, Graph.build Instruction.continueInFinally = .ok g ∧
        m.offset = 2 ∧ k.offset = 4 ∧ l.offset = 8 ∧ n.offset = 10 ∧ g.Walk [m, k, l, n] ∧
        m.outStack = ⟨some 1⟩ ∧ n.stack = m.outStack.popUntil g.arena 10 := by
  obtain ⟨-, -, -, -, hstops, -⟩ := popUntil_composes crossingScopes.2 crossingScopes.1
  refine ⟨?_, by decide +kernel, ?_⟩
  · rw [show [12, 25, 11, 28] = [12, 25, 11] ++ [(28 : Int)] from rfl, hstops _ _ (by decide)]
    decide +kernel
  · obtain ⟨g, hg, hp⟩ := Graph.exists_build Instruction.continueInFinally
      (fun g => ∃ m ∈ g.nodes.toList, m.offset = 2 ∧ m.outStack = ⟨some 1⟩ ∧
        ∃ k ∈ g.nodes.toList, m.Forward k ∧ k.offset = 4 ∧ k.outStack = k.stack ∧
        ∃ l ∈ g.nodes.toList, k.Forward l ∧ l.offset = 8 ∧ l.outStack = l.stack ∧
        ∃ n ∈ g.nodes.toList, l.Forward n ∧ n.offset = 10) (by decide +kernel)
    obtain ⟨m, hm, hmo, hstack, k, hk, hmk, hko, hkstack, l, hl, hkl, hlo, hlstack, n, hn, hln,
      hno⟩ := of_decide_eq_true hp
    rw [Array.mem_toList_iff] at hm hk hl hn
    have hwalk : g.Walk [m, k, l, n] := by
      refine ⟨by simp [hm, hk, hl, hn], ?_⟩
      simp [hmk, hkl, hln]
    have hexit : n.isExit = false := Node.isExit_of_nonneg (by omega)
    obtain ⟨-, -, -, -, -, hcarried⟩ := popUntil_composes m.outStack g.arena
    have harrives := (hcarried _ g Instruction.ascending_continueInFinally hg rfl m [k, l] n rfl
      hwalk hexit (by simp [hkstack, hlstack])).2
    rw [hno] at harrives
    exact ⟨g, m, k, l, n, hg, hmo, hko, hlo, hno, hwalk, hstack, harrives⟩

end BytecodeFlow
