import BytecodeFlow.Proofs.Equations

/-!
# Block stacks do not depend on the path

The pass compares only the innermost scopes of the stacks that meet at an instruction. All of the
stacks agree nevertheless: executing the instructions of any walk from the entry on a plain list
of scopes ends with the block stack of the node (`blocks_path_independent`).
-/

namespace BytecodeFlow

open BlockStack Blocks

namespace Graph

variable {code : List Instruction} {g : Graph} {m n o : Node} {ms : List Node}

/-- Executes the nodes of a walk up to the last one, leaving the scopes that end on the way. -/
def executeAlong (g : Graph) (stack : List (Nat × Scope)) : List Node → List (Nat × Scope)
  | m :: n :: rest => executeAlong g (arrive n.offset (g.execute m stack)) (n :: rest)
  | _ => stack

/-- The node opens a scope that ends at an offset further on. -/
def SetsUpBefore (g : Graph) (o : Node) (offset : Int) : Prop :=
  o ∈ g.nodes ∧ o.offset < offset ∧ o.setsUp offset = true

/-- The first node that declares a handler is the one at the least offset. -/
theorem Built.first_of_declarer? (h : g.Built code)
    (hd : n.declarer? g.nodes.toList = some o) :
    g.SetsUpBefore o n.offset ∧ ∀ p, g.SetsUpBefore p n.offset → o.offset ≤ p.offset := by
  obtain ⟨hp, before, after, hsplit, hbefore⟩ := List.find?_eq_some_iff_append.1 hd
  simp only [Bool.and_eq_true, decide_eq_true_eq] at hp
  have ho : o ∈ g.nodes := by simpa using List.mem_of_find?_eq_some hd
  refine ⟨⟨ho, hp.1, hp.2⟩, ?_⟩
  intro p hsets
  obtain ⟨hpmem, hplt, hpsets⟩ := hsets
  -- the search would have stopped at the other node if that came before
  have hasc := h.pairwise_offset
  rw [hsplit, List.pairwise_append, List.pairwise_cons] at hasc
  have hin : p ∈ before ++ o :: after := by
    rw [← hsplit]
    simpa using hpmem
  rcases List.mem_append.1 hin with hin | hin
  · have hno := hbefore p hin
    simp [hplt, hpsets] at hno
  · rcases List.mem_cons.1 hin with rfl | hin
    · exact Int.le_refl _
    · exact Int.le_of_lt (hasc.2.1.1 p hin (h.isExit_of_setsUp hpmem hpsets))

theorem not_setsUpBefore_of_declarer? (hd : n.declarer? g.nodes.toList = none) :
    ¬ g.SetsUpBefore o n.offset := by
  intro hsets
  obtain ⟨ho, hlt, hsets⟩ := hsets
  have hno := List.find?_eq_none.1 hd o (by simpa using ho)
  simp [hlt, hsets] at hno

/-- A node that control cannot come to from before has the stack of its handler's declaration. -/
theorem Built.blocks_of_no_forward (h : g.Built code) (hn : n ∈ g.nodes)
    (hexit : n.isExit = false) (hnone : ∀ m ∈ g.nodes, ¬ m.Forward n) :
    g.blocks n = ((n.declarer? g.nodes.toList).map fun o =>
      arrive n.offset (g.blocks o)).getD [] := by
  obtain ⟨i, next, hi, hv⟩ := h.visit n hn hexit
  have hentering : n.entering g.nodes.toList = [] := by
    apply List.eq_nil_iff_forall_not_mem.2
    intro m hm
    obtain ⟨hm, hforward⟩ := mem_entering.1 hm
    exact hnone m hm hforward
  rw [blocks, hv.unvisited hentering]
  cases n.declarer? g.nodes.toList with
  | none => simp
  | some o =>
    show (o.stack.popUntil g.arena n.offset).toList g.arena = _
    rw [toList_popUntil]
    rfl

/-- Nothing is active at the entry. -/
theorem Built.blocks_entry (h : g.Built code) (hn : n ∈ g.nodes) (ho : n.offset = Offset.entry) :
    g.blocks n = [] := by
  rw [blocks, h.stack_entry hn ho, toList_empty]

/-- Executing a walk from the stack of its first node ends with the stack of its last. -/
theorem Built.executeAlong_eq (h : g.Built code) (hexit : n.isExit = false)
    (hwalk : g.Walk (m :: (ms ++ [n]))) :
    g.executeAlong (g.blocks m) (m :: (ms ++ [n])) = g.blocks n := by
  induction ms generalizing m with
  | nil =>
    obtain ⟨hm, hforward, hn⟩ := walk_cons_cons.1 hwalk
    exact (h.blocks_eq hm (hn.1 n (by simp)) hexit hforward).symm
  | cons k rest ih =>
    obtain ⟨hm, hforward, hrest⟩ := walk_cons_cons.1 hwalk
    have hkexit := h.isExit_of_walk hrest
    show g.executeAlong (arrive k.offset (g.execute m (g.blocks m))) (k :: (rest ++ [n])) = _
    rw [← h.blocks_eq hm (hrest.1 k (by simp)) hkexit hforward]
    exact ih hrest

/-- The stack of a node is the same whatever way control comes to it: it is what every node that
can go on to it from before hands over, and what executing any walk from the entry gives. Where
control cannot come from before, it is the stack of the first node that declares a handler there,
or empty. -/
theorem blocks_path_independent (hcode : Instruction.Ascending code)
    (h : Graph.build code = .ok g) (hn : n ∈ g.nodes) (hexit : n.isExit = false) :
    (∀ m ∈ g.nodes, m.Forward n → g.blocks n = arrive n.offset (g.execute m (g.blocks m))) ∧
    ((∀ m ∈ g.nodes, ¬ m.Forward n) →
      (∃ o, g.SetsUpBefore o n.offset ∧
        (∀ p, g.SetsUpBefore p n.offset → o.offset ≤ p.offset) ∧
        g.blocks n = arrive n.offset (g.blocks o)) ∨
      (∀ o, ¬ g.SetsUpBefore o n.offset) ∧ g.blocks n = []) ∧
    ∀ ms, g.Walk (ms ++ [n]) → (ms ++ [n]).head?.map (·.offset) = some Offset.entry →
      g.executeAlong [] (ms ++ [n]) = g.blocks n := by
  have hg := Built.of_build hcode h
  refine ⟨?_, ?_, ?_⟩
  · intro m hm hforward
    exact hg.blocks_eq hm hn hexit hforward
  · intro hnone
    have hblocks := hg.blocks_of_no_forward hn hexit hnone
    cases hd : n.declarer? g.nodes.toList with
    | none =>
      rw [hd] at hblocks
      exact .inr ⟨fun _ => not_setsUpBefore_of_declarer? hd, hblocks⟩
    | some o =>
      rw [hd] at hblocks
      obtain ⟨hsets, hfirst⟩ := hg.first_of_declarer? hd
      exact .inl ⟨o, hsets, hfirst, hblocks⟩
  · intro ms hwalk hstart
    cases ms with
    | nil =>
      have hentry : n.offset = Offset.entry := by simpa using hstart
      exact (hg.blocks_entry hn hentry).symm
    | cons m rest =>
      have hm : m ∈ g.nodes := hwalk.1 m (by simp)
      have hentry : m.offset = Offset.entry := by simpa using hstart
      rw [← hg.blocks_entry hm hentry]
      exact hg.executeAlong_eq hexit hwalk

/-- The walk to the handler through the deferred continue. -/
theorem blocks_path_independent_continueInFinally :
    ∃ g n ms, Graph.build Instruction.continueInFinally = .ok g ∧ n.offset = 8 ∧
      ms.map (·.offset) = [0, 2, 4] ∧ g.Walk (ms ++ [n]) ∧
      g.blocks n = [(0, ⟨.loopBlock, 20, 0, none⟩)] ∧
      g.executeAlong [] (ms ++ [n]) = g.blocks n := by
  obtain ⟨g, hg, hp⟩ := exists_build Instruction.continueInFinally
    (fun g => (g.nodes.toList.take 4).map (·.offset) = [0, 2, 4, 8] ∧
      (g.nodes.toList.take 4).IsChain Node.Forward ∧
      (g.nodes.toList.take 4).getLast?.map g.blocks = some [(0, ⟨.loopBlock, 20, 0, none⟩)])
    (by decide +kernel)
  obtain ⟨hoffsets, hchain, hblocks⟩ := of_decide_eq_true hp
  rcases List.eq_nil_or_concat (g.nodes.toList.take 4) with hnil | ⟨ms, n, hsplit⟩
  · simp [hnil] at hoffsets
  · rw [List.concat_eq_append] at hsplit
    rw [hsplit] at hoffsets hchain hblocks
    have hmem : ∀ m ∈ ms ++ [n], m ∈ g.nodes := by
      intro m hm
      rw [← hsplit] at hm
      simpa using List.mem_of_mem_take hm
    have hn : n.offset = 8 := by simpa using congrArg List.getLast? hoffsets
    have hms : ms.map (·.offset) = [0, 2, 4] := by simpa using congrArg List.dropLast hoffsets
    have hexit : n.isExit = false := by
      rw [Node.isExit, hn]
      rfl
    refine ⟨g, n, ms, hg, hn, hms, ⟨hmem, hchain⟩, by simpa using hblocks, ?_⟩
    apply (blocks_path_independent Instruction.ascending_continueInFinally hg
      (hmem n (by simp)) hexit).2.2 ms ⟨hmem, hchain⟩
    rw [← List.head?_map, hoffsets]
    rfl

end Graph

end BytecodeFlow
