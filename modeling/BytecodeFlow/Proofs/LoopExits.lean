import BytecodeFlow.Proofs.Failures
import BytecodeFlow.Proofs.Nesting

/-!
# All ways out of a loop agree

Control comes from a loop to what follows it with different block stacks: with that of the loop
body, where it passes the exit or a break is resumed; with the one around the loop, where a break
or `POP_BLOCK` has closed it; and with less, where handlers were run on the way
(`BlockStack.LeavesLoop`). Once the scopes that have ended are left, all of these are the same
stack, so that the predecessors of an instruction there agree
(`BlockStack.ways_out_of_loop_agree`).
-/

namespace BytecodeFlow

open BlockStack Blocks Resolution

namespace BlockStack

variable {s : BlockStack} {a : Arena} {l x : Nat × Scope} {offset : Int}

/-- Where a scope and all scopes in it have ended, popping starts around the scope. -/
theorem popUntil_of_left {inner outer : List (Nat × Scope)} (h : s.toList a = inner ++ x :: outer)
    (hinner : ∀ y ∈ inner, y.2.exit ≤ offset) (hx : x.2.exit ≤ offset) :
    s.popUntil a offset = popUntil ⟨x.2.parent⟩ a offset := by
  induction s using induction (a := a) generalizing inner with
  | none => simp at h
  | dangling id hg => simp [toList_dangling hg] at h
  | some id scope hg ih =>
    rw [toList_some hg] at h
    cases inner with
    | nil =>
      obtain ⟨rfl, _⟩ := List.cons.inj h
      exact popUntil_left hg (Int.not_lt.2 hx)
    | cons y inner =>
      obtain ⟨rfl, hrest⟩ := List.cons.inj h
      have hscope : scope.exit ≤ offset := hinner (id, scope) (by simp)
      rw [popUntil_left hg (Int.not_lt.2 hscope)]
      exact ih hrest fun y hy => hinner y (List.mem_cons_of_mem _ hy)

/-- The scopes in the innermost loop of a nested stack end with the loop or before. -/
theorem popUntil_of_loop_left (hnested : Nested (s.toList a)) (hloop : s.innermostLoop? a = some l)
    (ho : l.2.exit ≤ offset) : s.popUntil a offset = popUntil ⟨l.2.parent⟩ a offset := by
  have hsplit : s.toList a = insideLoop (s.toList a) ++ l :: outsideLoop (s.toList a) :=
    eq_inside_append hloop
  refine popUntil_of_left hsplit ?_ ho
  intro y hy
  rw [hsplit] at hnested
  have hle := (List.pairwise_append.1 hnested).2.2 y hy l (by simp)
  omega

/-- The stacks with which control comes from a loop to an offset. -/
inductive LeavesLoop (a : Arena) (l : Nat × Scope) (offset : Int) : BlockStack → Prop where
  /-- It passes the exit of the loop, or a handler in the loop has ended. -/
  | inside {s : BlockStack} (nested : Nested (s.toList a)) (loop : s.innermostLoop? a = some l) :
      LeavesLoop a l offset s
  /-- The loop has been closed by a break or at its end. -/
  | closed : LeavesLoop a l offset ⟨l.2.parent⟩
  /-- An instruction on the way, such as the first of a handler, has been come to. -/
  | onTheWay {s : BlockStack} {stop : Int} (before : stop ≤ offset)
      (leaves : LeavesLoop a l offset s) : LeavesLoop a l offset (s.popUntil a stop)

theorem LeavesLoop.popUntil_eq (h : s.LeavesLoop a l offset) (ho : l.2.exit ≤ offset) :
    s.popUntil a offset = popUntil ⟨l.2.parent⟩ a offset := by
  induction h with
  | inside nested loop => exact popUntil_of_loop_left nested loop ho
  | closed => rfl
  | onTheWay before leaves ih => rw [popUntil_popUntil, Int.max_eq_right before, ih]

/-- A loop that is the innermost one of its stack is closed, or the stack stays as it is. -/
theorem closeLoop_cases (hs : s.Within a) (hloop : s.innermostLoop? a = some l) :
    closeLoop a s = s ∨ closeLoop a s = ⟨l.2.parent⟩ := by
  obtain ⟨top⟩ := s
  cases top with
  | none => exact .inl rfl
  | some id =>
    obtain ⟨scope, hg⟩ := hs.get?
    simp only [closeLoop, Option.bind_some, hg]
    split
    · rename_i hkind
      rw [BlockStack.innermostLoop?, toList_some hg, List.find?_cons_of_pos (by simpa using hkind)]
        at hloop
      cases hloop
      exact .inr rfl
    · exact .inl rfl

/-- In a loop, every instruction that opens no scope hands on a stack to leave the loop with. -/
theorem LeavesLoop.of_resolve {a' : Arena} (hgrows : a'.GrowsTo a) (hs : s.Within a')
    (hnested : Nested (s.toList a)) (hloop : s.innermostLoop? a = some l) {i : Instruction}
    {next : Option Int} {f : PathFacts} {r : Resolution} (hi : i.isSetup = false)
    (hr : i.resolve a' next s f = .ok r) : r.stack.LeavesLoop a l offset := by
  have hinside : s.LeavesLoop a l offset := .inside hnested hloop
  have hloop' : s.innermostLoop? a' = some l := by
    rw [innermostLoop?_eq, ← toList_of_growsTo hs hgrows]
    exact hloop
  cases Instruction.outcome_of_resolve hr with
  | breakOut flow loop direct =>
    cases hloop'.symm.trans loop
    exact .closed
  | popBlock flow fall =>
    rcases closeLoop_cases hs hloop' with h | h
    · rw [h]
      exact hinside
    · rw [h]
      exact .closed
  | setup flow fall jump => simp [Instruction.isSetup, flow] at hi
  | sequential | jump | branch | breakThrough | continueThrough | continueOut | popExcept
  | returnValue | raise | endFinally => exact hinside

end BlockStack

/-- Where all predecessors have come from one loop, after its end, they agree. -/
theorem Construction.exists_joinStacks_of_leavesLoop {c : Construction} {i : Instruction}
    {l : Nat × Scope} (ho : l.2.exit ≤ i.offset)
    (h : ∀ n ∈ c.incoming i.offset, n.outStack.LeavesLoop c.arena l i.offset) :
    ∃ t, c.joinStacks i = .ok t ∧
      (c.incoming i.offset ≠ [] → t = popUntil ⟨l.2.parent⟩ c.arena i.offset) := by
  cases hjoin : c.joinStacks i with
  | error e =>
    obtain ⟨m, hm, n, hn, hne⟩ := disagreement_of_joinStacks hjoin
    rw [handedOver, handedOver, (h m hm).popUntil_eq ho, (h n hn).popUntil_eq ho] at hne
    exact absurd rfl hne
  | ok t =>
    refine ⟨t, rfl, ?_⟩
    intro hsome
    rcases joinStacks_ok hjoin with ⟨hnone, _⟩ | ⟨_, hall⟩
    · exact absurd hnone hsome
    · obtain ⟨m, hm⟩ := List.exists_mem_of_ne_nil _ hsome
      rw [hall m hm, handedOver, (h m hm).popUntil_eq ho]

/-- After the end of the innermost loop of a nested stack, the stack itself, the one around the loop
and what is left of the stack at any handler on the way pop to the same stack. All instructions in
the loop that open no scope hand on one of these, and predecessors that come from the loop with
them agree. -/
theorem BlockStack.ways_out_of_loop_agree {s : BlockStack} {a : Arena} {l : Nat × Scope}
    {offset : Int} (hnested : Nested (s.toList a)) (hloop : s.innermostLoop? a = some l)
    (ho : l.2.exit ≤ offset) :
    popUntil ⟨l.2.parent⟩ a offset = s.popUntil a offset ∧
    (∀ handler ≤ offset, (s.popUntil a handler).popUntil a offset = s.popUntil a offset) ∧
    (∀ a', a'.GrowsTo a → s.Within a' → ∀ (i : Instruction) next f r, i.isSetup = false →
      i.resolve a' next s f = .ok r → r.stack.LeavesLoop a l offset) ∧
    ∀ (c : Construction) (i : Instruction), c.arena = a → i.offset = offset →
      (∀ n ∈ c.incoming offset, n.outStack.LeavesLoop a l offset) →
      ∃ t, c.joinStacks i = .ok t ∧ (c.incoming offset ≠ [] → t = s.popUntil a offset) := by
  have hclosed := popUntil_of_loop_left hnested hloop ho
  refine ⟨hclosed.symm, ?_, ?_, ?_⟩
  · intro handler hle
    rw [popUntil_popUntil, Int.max_eq_right hle]
  · intro a' hgrows hs i next f r
    exact LeavesLoop.of_resolve hgrows hs hnested hloop
  · rintro c i rfl rfl hincoming
    rw [hclosed]
    exact Construction.exists_joinStacks_of_leavesLoop ho hincoming

/-- A loop from 0 to 20 that is left at 10, where a break through the `finally` block is resumed, at
14, by a break, and at 18, after its end at 16. -/
def Instruction.threeWaysOut : List Instruction :=
  [⟨.setupLoop, 0, some 20, some 20, false⟩, ⟨.setupFinally, 2, some 10, some 10, false⟩,
    ⟨.popJumpIfFalse, 4, some 8, some 8, false⟩, ⟨.breakLoop, 6, none, none, false⟩,
    ⟨.popBlock, 8, none, none, true⟩, ⟨.endFinally, 10, none, none, true⟩,
    ⟨.popJumpIfFalse, 12, some 16, some 16, false⟩, ⟨.breakLoop, 14, none, none, false⟩,
    ⟨.popBlock, 16, none, none, true⟩, ⟨.nop, 18, none, none, false⟩,
    ⟨.returnValue, 20, none, none, true⟩]

/-- The break that is resumed at 10 hands over the stack in the loop, the others the empty one. At
20 they agree. -/
theorem BlockStack.ways_out_of_loop_agree_threeWaysOut :
    let c := (Construction.start.run (Instruction.withNext Instruction.threeWaysOut).dropLast).1
    (c.incoming 20).map (fun n => (n.offset, n.outStack)) =
        [(10, ⟨some 0⟩), (14, .empty), (18, .empty)] ∧
      c.joinStacks ⟨.returnValue, 20, none, none, true⟩ = .ok .empty := by
  intro c
  have hincoming : (c.incoming 20).map (fun n => (n.offset, n.outStack)) =
      [(10, ⟨some 0⟩), (14, .empty), (18, .empty)] := by decide +kernel
  -- the stack in the `finally` block in the loop
  have hlist : BlockStack.toList ⟨some 1⟩ c.arena =
      [(1, ⟨.finallyBlock, 10, 2, some 0⟩), (0, ⟨.loopBlock, 20, 0, none⟩)] := by decide +kernel
  have hbody : BlockStack.toList ⟨some 0⟩ c.arena = [(0, ⟨.loopBlock, 20, 0, none⟩)] := by
    decide +kernel
  have hleaves : ∀ n ∈ c.incoming 20,
      n.outStack.LeavesLoop c.arena (0, ⟨.loopBlock, 20, 0, none⟩) 20 := by
    intro n hn
    have hmem := List.mem_map_of_mem (f := fun n : Node => (n.offset, n.outStack)) hn
    rw [hincoming] at hmem
    simp only [List.mem_cons, Prod.mk.injEq, List.not_mem_nil, or_false] at hmem
    rcases hmem with ⟨_, h⟩ | ⟨_, h⟩ | ⟨_, h⟩
    · rw [h]
      exact .inside (by rw [hbody]; exact List.pairwise_singleton _ _) (by decide +kernel)
    · rw [h]
      exact .closed
    · rw [h]
      exact .closed
  obtain ⟨-, -, -, hjoin⟩ := ways_out_of_loop_agree (s := ⟨some 1⟩) (a := c.arena)
    (l := (0, ⟨.loopBlock, 20, 0, none⟩)) (by rw [hlist]; simp [Nested]) (by decide +kernel)
    (by decide : (20 : Int) ≤ 20)
  obtain ⟨t, ht, hpop⟩ := hjoin c ⟨.returnValue, 20, none, none, true⟩ rfl rfl hleaves
  refine ⟨hincoming, ?_⟩
  have hsome : c.incoming 20 ≠ [] := by
    intro hnone
    rw [hnone] at hincoming
    cases hincoming
  have hempty : BlockStack.popUntil ⟨some 1⟩ c.arena 20 = .empty := by decide +kernel
  rw [ht, hpop hsome, hempty]

end BytecodeFlow
