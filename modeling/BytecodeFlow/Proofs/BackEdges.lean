import BytecodeFlow.Proofs.OpenScopes

/-!
# Block stacks and back edges

The pass compares the block stacks of the predecessors that come before an instruction. What a
back edge hands over is compared with nothing, and it need not be what the node that it goes to
has. A `POP_BLOCK` closes a loop only, and any other scope is left no sooner than at its exit. So
a jump from inside a handled region back to the head of the loop brings the scope of the region
along.

`Graph.top_handedOver_eq_iff` says for every edge when the two stacks have the same top. On a back
edge this depends on the ways round only: they must not drop a scope of the node at the head, and
must drop again what they open.
-/

namespace BytecodeFlow

open BlockStack Blocks Construction

/-! ## Stacks with the same scopes -/

namespace BlockStack

variable {s t : BlockStack} {a : Arena}

/-- The top of a stack within another one is on that. -/
theorem Within.exists_top_le (hs : s.Within a) (h : ∀ x ∈ s.toList a, x ∈ t.toList a) :
    ∀ id ∈ s.top, ∃ id' ∈ t.top, id ≤ id' := by
  obtain ⟨top⟩ := s
  intro id hid
  cases Option.mem_def.1 hid
  obtain ⟨scope, hscope⟩ := hs.get?
  exact le_top_of_mem_toList (h (id, scope) (by simp [toList_some hscope]))

/-- Two stacks have the same top exactly if they have the same scopes. -/
theorem top_eq_iff (hs : s.Within a) (ht : t.Within a) :
    s.top = t.top ↔ ∀ x, x ∈ s.toList a ↔ x ∈ t.toList a := by
  constructor
  · intro h x
    have hst : s = t := congrArg BlockStack.mk h
    rw [hst]
  · intro h
    have hle := hs.exists_top_le fun x => (h x).1
    have hge := ht.exists_top_le fun x => (h x).2
    obtain ⟨_ | id⟩ := s <;> obtain ⟨_ | id'⟩ := t <;> simp at hle hge ⊢
    omega

end BlockStack

namespace Graph

/-- The block stack that a node hands over to an offset: scopes that end on the way are left. -/
def handedOver (g : Graph) (n : Node) (offset : Int) : BlockStack :=
  n.outStack.popUntil g.arena offset

variable {code : List Instruction} {g : Graph} {m n : Node}

theorem Built.within (h : g.Built code) (hn : n ∈ g.nodes) (hexit : n.isExit = false) :
    n.stack.Within g.arena ∧ n.outStack.Within g.arena := by
  obtain ⟨i, next, hi, hv⟩ := h.visit n hn hexit
  obtain ⟨b, r, hnode, hr, hs, _, hb, hgrow⟩ := hv.outcome
  have hout : n.outStack = r.stack := by rw [hnode, nodeOf]
  rw [hout]
  exact ⟨hs.mono hb, (hr.within_stack hs).mono hgrow⟩

/-! ## What a back edge hands over -/

/-- What an edge hands over has the same top as the stack of the node that it goes to, exactly if
the ways to the edge leave the same scopes open as the ways into that node from before. Where a
way goes round from the node to the edge, that is so exactly if no scope of the node is dropped on
that way, and what is opened on it is dropped again. -/
theorem top_handedOver_eq_iff (hcode : Instruction.Ascending code) (h : Graph.build code = .ok g)
    (hm : m ∈ g.nodes) (hmexit : m.isExit = false) (hn : n ∈ g.nodes)
    (hedge : m.offset ∈ n.successors) :
    ((g.handedOver n m.offset).top = m.stack.top ↔
      ∀ x, g.OpenOn n m.offset x ↔ ∃ k, g.HandsOn k m ∧ g.OpenOn k m.offset x) ∧
    ∀ ns, g.Way (m :: ns) → (m :: ns).getLast? = some n →
      ((g.handedOver n m.offset).top = m.stack.top ↔
        (∀ x ∈ g.blocks m, ¬ g.DropsAlong x m.offset (m :: ns)) ∧
        ∀ x, ¬ g.LeavesOpen x m.offset (m :: ns)) := by
  have hg := Built.of_build hcode h
  have hexit := hg.isExit_of_mem_successors hn hedge
  have htop : (g.handedOver n m.offset).top = m.stack.top ↔
      ∀ x, x ∈ arrive m.offset (g.execute n (g.blocks n)) ↔ x ∈ g.blocks m := by
    have hwithin := (hg.within hn hexit).2.popUntil m.offset
    rw [handedOver, top_eq_iff hwithin (hg.within hm hmexit).1, toList_popUntil,
      hg.toList_outStack hn hexit]
    rfl
  constructor
  · rw [htop]
    exact forall_congr' fun x =>
      iff_congr (hg.mem_arrive_iff_openOn hn hexit) (hg.mem_blocks_iff_openOn hm hmexit)
  · intro ns hway hlast
    -- the scopes of the node are older than the way, and those that it opens are not
    have hapart : ∀ x ∈ g.blocks m, ¬ g.LeavesOpen x m.offset (m :: ns) := by
      intro x hx hleaves
      have hlt := hg.origin_lt hm hmexit x hx
      have hle := hg.le_origin_of_leavesOpen hway hleaves
      omega
    rw [htop]
    simp only [hg.mem_arrive_way hway hlast hexit]
    constructor
    · intro hsame
      refine ⟨?_, ?_⟩
      · intro x hx
        rcases (hsame x).2 hx with ⟨_, hkept⟩ | hleaves
        · exact hkept
        · exact (hapart x hx hleaves).elim
      · intro x hleaves
        exact hapart x ((hsame x).1 (.inr hleaves)) hleaves
    · rintro ⟨hkept, hnone⟩ x
      constructor
      · rintro (⟨hx, _⟩ | hleaves)
        · exact hx
        · exact (hnone x hleaves).elim
      · intro hx
        exact .inl ⟨hx, hkept x hx⟩

/-- The `finally` scope that is opened on the way round has ended where its handler restarts the
loop. -/
theorem top_handedOver_eq_iff_continueInFinally :
    ∃ g, ∃ m k n : Node, Graph.build Instruction.continueInFinally = .ok g ∧
      [m, k, n].map (·.offset) = [2, 4, 8] ∧ m.offset ∈ n.successors ∧ g.Way [m, k, n] ∧
      (g.handedOver n m.offset).top = m.stack.top ∧
      (∀ x, g.OpenOn n m.offset x ↔ ∃ o, g.HandsOn o m ∧ g.OpenOn o m.offset x) ∧
      (∀ x ∈ g.blocks m, ¬ g.DropsAlong x m.offset [m, k, n]) ∧
      ∀ x, ¬ g.LeavesOpen x m.offset [m, k, n] := by
  obtain ⟨g, hg, hp⟩ := exists_build Instruction.continueInFinally
    (fun g => ∃ m ∈ g.nodes.toList, ∃ k ∈ g.nodes.toList, m.Forward k ∧
      ∃ n ∈ g.nodes.toList, k.Forward n ∧ [m, k, n].map (·.offset) = [2, 4, 8] ∧
        m.offset ∈ n.successors ∧ (g.handedOver n m.offset).top = m.stack.top)
    (by decide +kernel)
  obtain ⟨m, hm, k, hk, hmk, n, hn, hkn, hoffsets, hedge, htop⟩ := of_decide_eq_true hp
  rw [Array.mem_toList_iff] at hm hk hn
  have hmo : m.offset = 2 := by simpa using congrArg List.head? hoffsets
  have hmexit : m.isExit = false := Node.isExit_of_nonneg (by omega)
  have hway : g.Way [m, k, n] := by
    refine ⟨by simp [hm, hk, hn], ?_⟩
    simp [HandsOn, hm, hk, hmk, hkn]
  obtain ⟨hopen, hround⟩ :=
    top_handedOver_eq_iff Instruction.ascending_continueInFinally hg hm hmexit hn hedge
  have hkept := (hround [k, n] hway rfl).1 htop
  exact ⟨g, m, k, n, hg, hoffsets, hedge, hway, htop, hopen.1 htop, hkept⟩

end Graph

/-- A loop from 0 to 18, whose body is an `except` region from 4 to 12. The jump at 10 goes to the
head of the loop from inside of the region, that at 14 from its handler. -/
def Instruction.tryInLoop : List Instruction :=
  [⟨.setupLoop, 0, some 18, some 18, false⟩, ⟨.forIter, 2, some 14, some 16, true⟩,
    ⟨.setupExcept, 4, some 8, some 12, false⟩, ⟨.popTop, 6, none, none, false⟩,
    ⟨.popBlock, 8, none, none, false⟩, ⟨.jumpAbsolute, 10, some 2, some 2, false⟩,
    ⟨.popExcept, 12, none, none, true⟩, ⟨.jumpAbsolute, 14, some 2, some 2, false⟩,
    ⟨.popBlock, 16, none, none, true⟩, ⟨.loadConst, 18, some 0, none, true⟩,
    ⟨.returnValue, 20, none, none, false⟩]

/-- The head of the loop has the loop on its stack, and the jump at 10 hands over the `except`
scope too. -/
theorem Graph.top_handedOver_ne_tryInLoop :
    Instruction.Ascending Instruction.tryInLoop ∧
      ∃ g, Graph.build Instruction.tryInLoop = .ok g ∧
        ∃ m ∈ g.nodes, m.offset = 2 ∧ g.blocks m = [(0, ⟨.loopBlock, 18, 0, none⟩)] ∧
          ∃ n ∈ g.nodes, n.offset = 10 ∧ m.offset ∈ n.successors ∧
            (g.handedOver n m.offset).toList g.arena =
              [(1, ⟨.exceptBlock, 12, 4, some 0⟩), (0, ⟨.loopBlock, 18, 0, none⟩)] ∧
            (g.handedOver n m.offset).top ≠ m.stack.top := by
  obtain ⟨g, hg, hp⟩ := exists_build Instruction.tryInLoop
    (fun g => ∃ m ∈ g.nodes.toList, m.offset = 2 ∧
      g.blocks m = [(0, ⟨.loopBlock, 18, 0, none⟩)] ∧
      ∃ n ∈ g.nodes.toList, n.offset = 10 ∧ m.offset ∈ n.successors ∧
        (g.handedOver n m.offset).toList g.arena =
          [(1, ⟨.exceptBlock, 12, 4, some 0⟩), (0, ⟨.loopBlock, 18, 0, none⟩)] ∧
        (g.handedOver n m.offset).top ≠ m.stack.top) (by decide +kernel)
  obtain ⟨m, hm, hmo, hblocks, n, hn, hrest⟩ := of_decide_eq_true hp
  rw [Array.mem_toList_iff] at hm hn
  exact ⟨by unfold Instruction.Ascending; decide, g, hg, m, hm, hmo, hblocks, n, hn, hrest⟩

end BytecodeFlow
