import BytecodeFlow.Proofs.OpenScopes
import BytecodeFlow.Proofs.Provenance
import Mathlib.Logic.Relation

/-!
# Where a scope is seen

A scope is on the block stack of a node only if control comes there, without going back, from the
node that opened the scope (`blocks_opened_upstream`). On the way it is on every stack, so it
does not pass from one arm of a branch to the other. A handler that no edge enters counts as next
after the instruction that sets it up.
-/

namespace BytecodeFlow

open BlockStack Blocks

namespace Graph

variable {code : List Instruction} {g : Graph} {m n : Node} {x : Nat × Scope}

/-- Control can go on to a node further on: along an edge, or to the handler that is set up. -/
def LeadsTo (g : Graph) (m n : Node) : Prop :=
  m ∈ g.nodes ∧ n ∈ g.nodes ∧ m.offset < n.offset ∧
    (n.offset ∈ m.successors ∨ m.setsUp n.offset = true)

/-- In one step or more control goes on from one node to another one, and the scope is active at
all nodes after the first. -/
def Carries (g : Graph) (x : Nat × Scope) : Node → Node → Prop :=
  Relation.TransGen fun m n => g.LeadsTo m n ∧ x ∈ g.blocks n

theorem offset_lt_of_carries (h : g.Carries x m n) : m.offset < n.offset := by
  induction h with
  | single step => exact step.1.2.2.1
  | tail _ step ih => exact Int.lt_trans ih step.1.2.2.1

/-- A stack is handed on only along the ways that control can take. -/
theorem Built.leadsTo_of_handsOn (h : g.Built code) (hn : n ∈ g.nodes) (hhands : g.HandsOn m n) :
    g.LeadsTo m n := by
  refine ⟨hhands.1, hn, h.offset_lt_of_handsOn hhands, ?_⟩
  obtain ⟨_, hforward | ⟨_, hd⟩⟩ := hhands
  · exact .inl hforward.2
  · exact .inr (h.first_of_declarer? hd).1.2.2

/-- A scope comes to a node from the offset that it was opened at. -/
theorem Built.exists_carries (h : g.Built code) (hn : n ∈ g.nodes) (hexit : n.isExit = false) :
    ∀ x ∈ g.blocks n, ∃ m ∈ g.nodes, m.offset = x.2.origin ∧ g.Carries x m n := by
  refine h.induction (P := fun n => ∀ x ∈ g.blocks n,
    ∃ m ∈ g.nodes, m.offset = x.2.origin ∧ g.Carries x m n) ?_ hn hexit
  intro n hn hexit ih x hx
  obtain ⟨m, hhands, hbefore⟩ := h.exists_handsOn_of_mem_blocks hn hexit hx
  have hleads := h.leadsTo_of_handsOn hn hhands
  rcases hbefore with hopens | hbefore
  · exact ⟨m, hleads.1, (h.origin_of_opens hleads.1 hopens).symm, .single ⟨hleads, hx⟩⟩
  · obtain ⟨o, ho, horigin, hcarries⟩ :=
      ih m hleads.1 (h.isExit_of_handsOn hhands) hleads.2.2.1 x hbefore
    exact ⟨o, ho, horigin, hcarries.tail ⟨hleads, hx⟩⟩

/-- A scope of a node was opened by a node before it, and from there on it is active all the way
to the node. -/
theorem blocks_opened_upstream (hcode : Instruction.Ascending code)
    (h : Graph.build code = .ok g) (hn : n ∈ g.nodes) (hexit : n.isExit = false) :
    ∀ x ∈ g.blocks n,
      ∃ m ∈ g.nodes, m.Opens x.2 ∧ m.offset < n.offset ∧ g.Carries x m n := by
  have hg := Built.of_build hcode h
  intro x hx
  obtain ⟨m, hm, horigin, hcarries⟩ := hg.exists_carries hn hexit x hx
  obtain ⟨k, hk, hopens⟩ := exists_opens_of_build hcode h hx
  have hkm : k = m := hg.eq_of_offset_eq hk hm (hopens.offset.trans horigin.symm)
  rw [hkm] at hopens
  exact ⟨m, hm, hopens, offset_lt_of_carries hcarries, hcarries⟩

end Graph

/-- The handler at 8 is set up at 2, in a loop from 0 to 20, and nothing raises into it. -/
def Instruction.handlerInLoop : List Instruction :=
  [⟨.setupLoop, 0, some 20, some 20, false⟩, ⟨.setupExcept, 2, some 8, some 8, false⟩,
    ⟨.popBlock, 4, none, none, false⟩, ⟨.jumpForward, 6, some 6, some 14, false⟩,
    ⟨.popExcept, 8, none, none, true⟩, ⟨.jumpForward, 10, some 2, some 14, false⟩,
    ⟨.popBlock, 14, none, none, true⟩, ⟨.returnValue, 20, none, none, true⟩]

/-- No edge enters the handler, and the loop around it is active there. -/
theorem Graph.blocks_opened_upstream_handlerInLoop :
    ∃ g n, Graph.build Instruction.handlerInLoop = .ok g ∧ n ∈ g.nodes ∧ n.offset = 8 ∧
      g.predecessors 8 = [] ∧ (0, ⟨.loopBlock, 20, 0, none⟩) ∈ g.blocks n ∧
      ∃ m ∈ g.nodes, m.Opens ⟨.loopBlock, 20, 0, none⟩ ∧ m.offset < n.offset ∧
        g.Carries (0, ⟨.loopBlock, 20, 0, none⟩) m n := by
  obtain ⟨g, hg, hp⟩ := exists_build Instruction.handlerInLoop
    (fun g => ∃ n ∈ g.nodes.toList, n.offset = 8 ∧ g.predecessors 8 = [] ∧
      (0, ⟨.loopBlock, 20, 0, none⟩) ∈ g.blocks n) (by decide +kernel)
  obtain ⟨n, hn, ho, hpredecessors, hx⟩ := of_decide_eq_true hp
  rw [Array.mem_toList_iff] at hn
  have hexit : n.isExit = false := Node.isExit_of_nonneg (by omega)
  exact ⟨g, n, hg, hn, ho, hpredecessors, hx, blocks_opened_upstream
    (by unfold Instruction.Ascending; decide) hg hn hexit _ hx⟩

end BytecodeFlow
