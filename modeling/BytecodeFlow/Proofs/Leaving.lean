import BytecodeFlow.Proofs.EdgeOrigins
import BytecodeFlow.Proofs.Provenance

/-!
# Where control leaves the function

The exit is written as an offset among others, and nothing but leaving the function goes there:
no instruction, jump target, scope or restart is at a negative offset
(`Built.nonneg_of_edgeOrigin`). So the predecessors of the exit are the nodes that leave, and no
others (`exit_mem_successors_iff_leaves`).
-/

namespace BytecodeFlow

open BlockStack Blocks

namespace Graph

variable {code : List Instruction} {g : Graph} {n : Node} {i : Instruction}

/-- An edge that has an origin in the code unit stays in the function. -/
theorem nonneg_of_edgeOrigin (hcode : Instruction.Ascending code) (h : Graph.build code = .ok g)
    (ho : 0 ≤ n.offset) {b : Int} (horigin : EdgeOrigin code g n i b) : 0 ≤ b := by
  cases horigin with
  | next j adjacent offset =>
    rw [← offset]
    exact (Built.of_build hcode h).nonneg j (adjacent.subset (by simp))
  | jump jumps jump => exact Instruction.jumpTarget_nonneg jump
  | handler forward => exact Int.le_of_lt (Int.lt_of_le_of_lt ho forward)
  | loopExit leaves l loop exit =>
    obtain ⟨m, _, hopens⟩ := exists_opens_of_build hcode h (List.mem_of_find?_eq_some loop)
    rw [← exit]
    exact Node.jumpTarget_nonneg hopens.jumpTarget
  | restart flow m mem before j instruction continues jump =>
    exact Instruction.jumpTarget_nonneg jump

/-- A node has the exit as a successor only if control leaves the function from it. -/
theorem Built.exit_mem_of_leaves (h : g.Built code) (hn : n ∈ g.nodes) (hexit : n.isExit = false)
    (hleaves : g.Leaves n) : Offset.exit ∈ n.successors := by
  have ho := h.offset_nonneg hn hexit
  obtain ⟨i, next, _, hv⟩ := h.visit n hn hexit
  obtain ⟨j, hj, hleaves⟩ := hleaves
  cases hv.instruction.symm.trans hj
  obtain ⟨a, r, hnode, hr, hs, _, ha, _⟩ := hv.outcome
  rw [hv.offset] at ho
  rw [blocks, toList_of_growsTo hs ha] at hleaves
  rw [hnode]
  exact hr.exit_mem_successors ho hleaves

/-- Only the exit has no instruction. -/
theorem Built.filter_instruction_isNone (h : g.Built code) :
    g.nodes.toList.filter (·.instruction.isNone) = [.exit] := by
  obtain ⟨ns, hlist, hnonneg, _⟩ := h.ordered
  have hsome : ∀ n ∈ ns, n.instruction ≠ none := by
    intro n hn
    have hmem : n ∈ g.nodes := by
      rw [← Array.mem_toList_iff, hlist]
      simp [hn]
    obtain ⟨i, next, _, hv⟩ := h.visit n hmem (Node.isExit_of_nonneg (hnonneg n hn))
    simp [hv.instruction]
  rw [hlist, List.filter_append, List.filter_eq_nil_iff.2 (by simpa using hsome)]
  rfl

/-- The nodes with an edge to the exit are those from which control leaves the function: by a
return without a handler in its way, by a raise that nothing catches, or at the end of a handler
where such a return is pending. The exit lists them in ascending order as its predecessors. Every
other edge stays at the offsets of the code unit, and only the exit has no instruction. -/
theorem exit_mem_successors_iff_leaves (hcode : Instruction.Ascending code)
    (h : Graph.build code = .ok g) :
    (∀ n ∈ g.nodes, n.isExit = false → (Offset.exit ∈ n.successors ↔ g.Leaves n)) ∧
    (g.predecessors Offset.exit).Pairwise (· < ·) ∧
    (∀ o, o ∈ g.predecessors Offset.exit ↔
      ∃ n ∈ g.nodes, n.isExit = false ∧ n.offset = o ∧ g.Leaves n) ∧
    (∀ n ∈ g.nodes, ∀ b ∈ n.successors, b ≠ Offset.exit → 0 ≤ b) ∧
    g.nodes.toList.filter (·.instruction.isNone) = [.exit] ∧
    ∀ n ∈ g.nodes, n.isExit = true → n.successors = [] := by
  have hg := Built.of_build hcode h
  have hsuccessor : ∀ n ∈ g.nodes, n.isExit = false → ∀ b ∈ n.successors,
      b = Offset.exit ∧ g.Leaves n ∨ 0 ≤ b := by
    intro n hn hexit b hb
    obtain ⟨i, next, _, hv⟩ := hg.visit n hn hexit
    refine (hg.leaves_or_edgeOrigin hn hexit hv.instruction hb).imp_right ?_
    exact nonneg_of_edgeOrigin hcode h (hg.offset_nonneg hn hexit)
  have hleaves : ∀ n ∈ g.nodes, n.isExit = false →
      (Offset.exit ∈ n.successors ↔ g.Leaves n) := by
    intro n hn hexit
    refine ⟨fun hb => ?_, hg.exit_mem_of_leaves hn hexit⟩
    rcases hsuccessor n hn hexit _ hb with ⟨_, hleaves⟩ | hnonneg
    · exact hleaves
    · exact absurd hnonneg (by decide)
  refine ⟨hleaves, ?_, ?_, ?_, hg.filter_instruction_isNone, ?_⟩
  · rw [predecessors_of_build hcode h]
    exact hg.pairwise_filter_successors _
  · intro o
    simp only [predecessors_of_build hcode h, List.mem_map, List.mem_filter,
      Array.mem_toList_iff, List.contains_iff_mem]
    constructor
    · rintro ⟨n, ⟨hn, hb⟩, ho⟩
      have hexit := hg.isExit_of_mem_successors hn hb
      exact ⟨n, hn, hexit, ho, (hleaves n hn hexit).1 hb⟩
    · rintro ⟨n, hn, hexit, ho, hleave⟩
      exact ⟨n, ⟨hn, (hleaves n hn hexit).2 hleave⟩, ho⟩
  · intro n hn b hb hbexit
    have hexit := hg.isExit_of_mem_successors hn hb
    exact (hsuccessor n hn hexit b hb).resolve_left fun hleave => hbexit hleave.1
  · intro n hn hexit
    rw [hg.eq_exit hn hexit]
    rfl

end Graph

/-- A return at 4 and a raise at 6 within a `finally` block with its handler at 8, and a raise
after it. -/
def Instruction.leaveFinally : List Instruction :=
  [⟨.setupFinally, 0, some 8, some 8, false⟩, ⟨.popJumpIfFalse, 2, some 6, some 6, false⟩,
    ⟨.returnValue, 4, none, none, false⟩, ⟨.raiseVarargs, 6, some 0, some 0, true⟩,
    ⟨.endFinally, 8, none, none, true⟩, ⟨.raiseVarargs, 10, some 0, some 0, false⟩]

theorem Instruction.ascending_leaveFinally : Ascending leaveFinally := by
  unfold Ascending
  decide

/-- What the `finally` block intercepts leaves the function at the end of the handler. -/
theorem Graph.exit_mem_successors_iff_leaves_leaveFinally :
    ∃ g, Graph.build Instruction.leaveFinally = .ok g ∧
      (∀ n ∈ g.nodes, n.isExit = false → (Offset.exit ∈ n.successors ↔ g.Leaves n)) ∧
      g.predecessors Offset.exit = [8, 10] := by
  obtain ⟨g, hg, hp⟩ := exists_build Instruction.leaveFinally
    (fun g => g.predecessors Offset.exit = [8, 10]) (by decide +kernel)
  exact ⟨g, hg, (exit_mem_successors_iff_leaves Instruction.ascending_leaveFinally hg).1,
    of_decide_eq_true hp⟩

end BytecodeFlow
