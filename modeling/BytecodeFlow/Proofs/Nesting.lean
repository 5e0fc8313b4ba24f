import BytecodeFlow.Proofs.OpenScopes
import BytecodeFlow.Proofs.Provenance

/-!
# Well-nested code

Arriving at an offset looks at the innermost scopes of a stack only, up to one that is still open.
Where no scope ends after the one around it, all scopes around an open one are open too. The
instructions of a graph keep their stacks so, as long as no scope is opened that ends after the
innermost one (`Graph.WellNested`). Then every edge to the exit of a scope goes forward, and only
loops go back (`Graph.blocks_nested`).
-/

namespace BytecodeFlow

open BlockStack Blocks

namespace Blocks

/-- No scope ends after one around it. -/
def Nested (stack : List (Nat × Scope)) : Prop :=
  stack.Pairwise fun x y => x.2.exit ≤ y.2.exit

/-- Control is before the exits of all scopes. -/
def Open (offset : Int) (stack : List (Nat × Scope)) : Prop := ∀ x ∈ stack, offset < x.2.exit

variable {stack : List (Nat × Scope)} {x : Nat × Scope} {offset : Int}

/-- A scope may be opened that ends no later than the innermost one. -/
theorem Nested.cons (h : Nested stack) (hx : ∀ y ∈ stack.head?, x.2.exit ≤ y.2.exit) :
    Nested (x :: stack) := by
  apply List.pairwise_cons.2
  refine ⟨?_, h⟩
  intro z hz
  cases stack with
  | nil => cases hz
  | cons y rest =>
    have hxy := hx y rfl
    rcases List.mem_cons.1 hz with rfl | hz
    · exact hxy
    · have hyz := (List.pairwise_cons.1 h).1 z hz
      omega

theorem Nested.outsideLoop (h : Nested stack) : Nested (outsideLoop stack) :=
  h.sublist ((List.tail_sublist _).trans (List.dropWhile_sublist _))

theorem Nested.arrive (h : Nested stack) : Nested (arrive offset stack) :=
  h.sublist (List.dropWhile_sublist _)

/-- On arrival at an offset only the innermost scopes are looked at, but all that are left are
open. -/
theorem Nested.open_arrive (h : Nested stack) : Open offset (Blocks.arrive offset stack) := by
  induction stack with
  | nil =>
    intro x hx
    cases hx
  | cons x rest ih =>
    obtain ⟨hx, hrest⟩ := List.pairwise_cons.1 h
    by_cases hleft : x.2.exit ≤ offset
    · have harrive : Blocks.arrive offset (x :: rest) = Blocks.arrive offset rest :=
        List.dropWhile_cons_of_pos (by simpa using hleft)
      rw [harrive]
      exact ih hrest
    · have harrive : Blocks.arrive offset (x :: rest) = x :: rest :=
        List.dropWhile_cons_of_neg (by simpa using hleft)
      rw [harrive]
      intro y hy
      rcases List.mem_cons.1 hy with rfl | hy
      · omega
      · have hxy := hx y hy
        omega

end Blocks

/-- An instruction keeps a stack nested, if the scope that it opens is. -/
theorem Instruction.nested_stackAfter {i : Instruction} {fresh : Nat}
    {stack : List (Nat × Scope)} (h : Nested stack)
    (hi : i.isSetup = true → ∀ exit ∈ i.jumpTarget, ∀ x ∈ stack.head?, exit ≤ x.2.exit) :
    Nested (i.stackAfter fresh stack) := by
  unfold stackAfter
  split
  · rename_i kind exit hflow hjump
    apply h.cons
    intro x hx
    exact hi (by simp [isSetup, hflow]) exit hjump x hx
  · split
    · exact h
    · split
      · exact (List.pairwise_cons.1 h).2
      · exact h
  · split
    · exact h
    · exact h.outsideLoop
  · exact h

namespace Graph

/-- No node opens a scope that ends after the innermost one that is active before it. -/
def WellNested (g : Graph) : Prop :=
  ∀ n ∈ g.nodes, n.isSetup = true → ∀ exit ∈ n.jumpTarget, ∀ x ∈ (g.blocks n).head?,
    exit ≤ x.2.exit

/-- An edge that goes round a loop: a jump to its own target, or a continue of the innermost loop
that was pending and is resumed. -/
inductive GoesRound (g : Graph) (n : Node) (target : Int) : Prop where
  | jump (i : Instruction) (instruction : n.instruction = some i)
      (jumps : i.opcode.flow = .jump ∨ i.opcode.flow = .branch ∨ i.opcode.flow = .continueLoop)
      (jump : i.jumpTarget = some target)
  | restart (i : Instruction) (instruction : n.instruction = some i)
      (flow : i.opcode.flow = .endFinally) (l : Nat × Scope)
      (loop : innermostLoop? (g.blocks n) = some l)
      (pending : n.facts.Holds (.continued l.1 target))

variable {code : List Instruction} {g : Graph} {n : Node}

theorem Built.nested_execute (h : g.Built code) (hnested : g.WellNested) (hn : n ∈ g.nodes)
    (hexit : n.isExit = false) (hblocks : Nested (g.blocks n)) :
    Nested (g.execute n (g.blocks n)) := by
  obtain ⟨i, next, _, hv⟩ := h.visit n hn hexit
  have hi := hv.instruction
  rw [execute, hi]
  apply Instruction.nested_stackAfter hblocks
  intro hsetup exit hjump
  apply hnested n hn
  · simpa [Node.isSetup, hi] using hsetup
  · simpa [Node.jumpTarget, hi] using hjump

/-- The block stack of every node is nested, and no scope on it has ended. -/
theorem Built.nested_blocks (h : g.Built code) (hnested : g.WellNested) (hn : n ∈ g.nodes)
    (hexit : n.isExit = false) : Nested (g.blocks n) ∧ Open n.offset (g.blocks n) := by
  refine h.induction (P := fun n => Nested (g.blocks n) ∧ Open n.offset (g.blocks n)) ?_ hn hexit
  intro n hn hexit ih
  by_cases hhands : ∃ m, g.HandsOn m n
  · obtain ⟨m, hhands⟩ := hhands
    have hmexit := h.isExit_of_handsOn hhands
    have hout := h.nested_execute hnested hhands.1 hmexit
      (ih m hhands.1 hmexit (h.offset_lt_of_handsOn hhands)).1
    rw [h.blocks_of_handsOn hn hexit hhands]
    exact ⟨hout.arrive, hout.open_arrive⟩
  · push Not at hhands
    rw [h.blocks_of_no_handsOn hn hexit hhands]
    exact ⟨List.Pairwise.nil, fun x hx => by cases hx⟩

/-- An edge that goes back, and not out of the function, goes round a loop. -/
theorem Built.goesRound_of_back (h : g.Built code) (hopen : Open n.offset (g.blocks n))
    (hn : n ∈ g.nodes) (hcode : Instruction.Ascending code) {b : Int} (hb : b ∈ n.successors)
    (hback : b ≤ n.offset) (hbexit : b ≠ Offset.exit) : g.GoesRound n b := by
  have hexit := h.isExit_of_mem_successors hn hb
  obtain ⟨i, next, hi, hv⟩ := h.visit n hn hexit
  have ho := h.offset_nonneg hn hexit
  rw [hv.offset] at ho
  cases hv.reason ho hb with
  | exit leaves exit => exact (hbexit exit).elim
  | next fall =>
    rw [fall] at hi
    have hlt := hcode.lt_of_mem_withNext hi
    rw [hv.offset] at hback
    omega
  | jump flow jump => exact .jump i hv.instruction flow jump
  | handler forward x active handles exit =>
    rw [hv.offset] at hback
    omega
  | loopExit flow l loop exit =>
    have hlt := hopen l (List.mem_of_find?_eq_some loop)
    omega
  | restart flow l loop pending => exact .restart i hv.instruction flow l loop pending

/-- In a graph that opens no scope past the innermost one, the block stacks are nested and no
scope on them has ended. So an edge to the exit of a scope goes forward: an exception, a return, a
break, or the way to a handler. The edges that go back, and not out of the function, go round a
loop. -/
theorem blocks_nested (hcode : Instruction.Ascending code) (h : Graph.build code = .ok g)
    (hnested : g.WellNested) (hn : n ∈ g.nodes) (hexit : n.isExit = false) :
    (g.blocks n).Pairwise (fun x y => x.2.exit ≤ y.2.exit) ∧
    (∀ x ∈ g.blocks n, n.offset < x.2.exit) ∧
    (∀ b ∈ n.successors, (∃ x ∈ g.blocks n, x.2.exit = b) → n.offset < b) ∧
    ∀ b ∈ n.successors, b ≠ Offset.exit → b ≤ n.offset → g.GoesRound n b := by
  have hg := Built.of_build hcode h
  obtain ⟨hblocks, hopen⟩ := hg.nested_blocks hnested hn hexit
  refine ⟨hblocks, hopen, ?_, ?_⟩
  · intro b _ hends
    obtain ⟨x, hx, hxb⟩ := hends
    rw [← hxb]
    exact hopen x hx
  · intro b hb hbexit hback
    exact hg.goesRound_of_back hopen hn hcode hb hback hbexit

/-- The `finally` block ends in the loop. Its handler goes back to restart that. -/
theorem blocks_nested_continueInFinally :
    ∃ g n, Graph.build Instruction.continueInFinally = .ok g ∧ g.WellNested ∧ n ∈ g.nodes ∧
      n.offset = 8 ∧ 2 ∈ n.successors ∧ (∀ x ∈ g.blocks n, 8 < x.2.exit) ∧ g.GoesRound n 2 := by
  obtain ⟨g, hg, hp⟩ := exists_build Instruction.continueInFinally
    (fun g => (∀ n ∈ g.nodes.toList, n.isSetup = true → ∀ exit ∈ n.jumpTarget.toList,
        ∀ x ∈ (g.blocks n).head?.toList, exit ≤ x.2.exit) ∧
      ∃ n ∈ g.nodes.toList, n.offset = 8 ∧ 2 ∈ n.successors) (by decide +kernel)
  obtain ⟨hnested, n, hn, ho, hb⟩ := of_decide_eq_true hp
  have hnested : g.WellNested := by simpa [WellNested] using hnested
  rw [Array.mem_toList_iff] at hn
  have hexit : n.isExit = false := Node.isExit_of_nonneg (by omega)
  obtain ⟨_, hopen, _, hback⟩ := blocks_nested Instruction.ascending_continueInFinally hg hnested
    hn hexit
  refine ⟨g, n, hg, hnested, hn, ho, hb, ?_, ?_⟩
  · rwa [ho] at hopen
  · exact hback 2 hb (by decide) (by omega)

end Graph

end BytecodeFlow
