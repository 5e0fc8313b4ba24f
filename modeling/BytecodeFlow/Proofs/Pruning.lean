import BytecodeFlow.Proofs.Built

/-!
# Which instructions get a node

Whether an instruction is live is decided when the pass comes to it, from two sets that grow with
the pass: the offsets that nodes go on to, and the jump targets of dead instructions. Both are
read off the nodes and the instructions that are done (`Construction.Pruned`), so that the
decision can be said about the finished list of nodes: an instruction gets a node exactly if it is
`Instruction.Live` among them (`Graph.visited_iff_live`), which is a rule about the nodes and the
code unit alone (`Graph.exists_node_iff`).
-/

namespace BytecodeFlow

open Construction

/-- A node is at an offset. -/
def Visited (nodes : Array Node) (offset : Int) : Prop := ∃ n ∈ nodes, n.offset = offset

theorem visited_push_iff {nodes : Array Node} {new : Node} {offset : Int} :
    Visited (nodes.push new) offset ↔ Visited nodes offset ∨ new.offset = offset := by
  simp only [Visited, Array.mem_push]
  constructor
  · rintro ⟨n, hn | rfl, ho⟩
    · exact .inl ⟨n, hn, ho⟩
    · exact .inr ho
  · rintro (⟨n, hn, ho⟩ | ho)
    · exact ⟨n, .inl hn, ho⟩
    · exact ⟨new, .inr rfl, ho⟩

/-- The instruction is the entry, or a node before it goes on to it, or it is flagged as a jump
target and every instruction before it that jumps to it has a node. -/
def Instruction.Live (i : Instruction) (code : List Instruction) (nodes : Array Node) : Prop :=
  i.offset = Offset.entry ∨
  (∃ m ∈ nodes, m.offset < i.offset ∧ i.offset ∈ m.successors) ∨
  i.isJumpTarget = true ∧ ∀ j ∈ code, j.offset < i.offset → j.jumpTarget = some i.offset →
    Visited nodes j.offset

namespace Instruction

variable {i j : Instruction} {code : List Instruction} {nodes : Array Node} {new : Node}

/-- What comes later in the code unit does not count. -/
theorem live_concat_iff (hj : i.offset ≤ j.offset) :
    i.Live (code ++ [j]) nodes ↔ i.Live code nodes := by
  have hno : ¬ j.offset < i.offset := Int.not_lt.2 hj
  simp [Live, or_imp, forall_and, hno]

/-- Neither do nodes that come later, nor the exit. -/
theorem live_push_iff (hnonneg : ∀ j ∈ code, 0 ≤ j.offset)
    (hnew : i.offset ≤ new.offset ∨ new = .exit) :
    i.Live code (nodes.push new) ↔ i.Live code nodes := by
  have hbefore : (∃ m ∈ nodes.push new, m.offset < i.offset ∧ i.offset ∈ m.successors) ↔
      ∃ m ∈ nodes, m.offset < i.offset ∧ i.offset ∈ m.successors := by
    have hno : ¬ (new.offset < i.offset ∧ i.offset ∈ new.successors) := by
      rintro ⟨hlt, hmem⟩
      rcases hnew with hle | rfl
      · omega
      · cases hmem
    simp only [Array.mem_push]
    constructor
    · rintro ⟨m, hm | rfl, h⟩
      · exact ⟨m, hm, h⟩
      · exact (hno h).elim
    · rintro ⟨m, hm, h⟩
      exact ⟨m, .inl hm, h⟩
  have hvisited : ∀ j ∈ code, j.offset < i.offset →
      (Visited (nodes.push new) j.offset ↔ Visited nodes j.offset) := by
    intro j hj hlt
    have hne : new.offset ≠ j.offset := by
      have := hnonneg j hj
      rcases hnew with hle | rfl
      · omega
      · simp only [Node.exit, Offset.exit]
        omega
    simp [visited_push_iff, hne]
  rw [Live, Live, hbefore]
  refine or_congr_right (or_congr_right (and_congr_right fun _ => ?_))
  exact forall₃_congr fun j hj hlt => imp_congr_right fun _ => hvisited j hj hlt

end Instruction

namespace Construction

variable {code : List Instruction} {c c' : Construction} {i : Instruction} {next : Option Int}

theorem mem_unreachable_skip {b : Int} :
    b ∈ (c.skip i).unreachable ↔ i.jumpTarget = some b ∨ b ∈ c.unreachable := by
  unfold skip
  split
  · rename_i target hj
    simp [hj, Std.TreeSet.mem_insert]
  · rename_i hj
    simp [hj]

theorem mem_reachable_visited {s : BlockStack} {f : PathFacts} {r : Resolution} {b : Int} :
    b ∈ ((c.declareHandler i s).record i s f r).reachable ↔
      b ∈ r.successors ∨ b ∈ c.reachable := by
  have hmem := mem_reachable_addEdges (c.declareHandler i s) i.offset r.successors b
  rw [declareHandler_eq] at hmem ⊢
  exact hmem

theorem unreachable_visited {s : BlockStack} {f : PathFacts} {r : Resolution} :
    ((c.declareHandler i s).record i s f r).unreachable = c.unreachable := by
  rw [declareHandler_eq]
  simp only [record, addNode]
  rw [addEdges_eq]

/-- The sets that decide liveness, and the decisions about the instructions so far, are read off
the nodes. -/
structure Pruned (code : List Instruction) (c : Construction) : Prop where
  reachable (b : Int) : b ∈ c.reachable ↔ b = Offset.entry ∨ ∃ m ∈ c.nodes, b ∈ m.successors
  unreachable (b : Int) :
    b ∈ c.unreachable ↔ ∃ j ∈ code, j.jumpTarget = some b ∧ ¬ Visited c.nodes j.offset
  live (j : Instruction) : j ∈ code → (Visited c.nodes j.offset ↔ j.Live code c.nodes)

theorem pruned_start : Pruned [] start where
  reachable b := by
    simp only [start, Std.TreeSet.mem_insert, Std.LawfulEqCmp.compare_eq_iff_eq]
    simp [eq_comm]
  unreachable b := by simp [start]
  live j hj := by cases hj

section Step

/-! The next instruction is after everything that is done. -/

variable (h : Pruned code c) (hcode : ∀ j ∈ code, 0 ≤ j.offset ∧ j.offset < i.offset)
  (hnodes : ∀ m ∈ c.nodes, m.offset < i.offset)

include hnodes in
theorem not_visited_of_before : ¬ Visited c.nodes i.offset := by
  rintro ⟨m, hm, ho⟩
  exact Int.ne_of_lt (hnodes m hm) ho

include h hcode hnodes

/-- The pass decides liveness as the nodes so far say. -/
theorem Pruned.isLive_iff : c.isLive i = true ↔ i.Live code c.nodes := by
  have hsuccessor : (∃ m ∈ c.nodes, i.offset ∈ m.successors) ↔
      ∃ m ∈ c.nodes, m.offset < i.offset ∧ i.offset ∈ m.successors := by
    refine exists_congr fun m => and_congr_right fun hm => ?_
    simp [hnodes m hm]
  have hdead : i.offset ∉ c.unreachable ↔ ∀ j ∈ code, j.offset < i.offset →
      j.jumpTarget = some i.offset → Visited c.nodes j.offset := by
    rw [h.unreachable]
    push Not
    refine forall₂_congr fun j hj => ?_
    simp [(hcode j hj).2]
  rw [isLive, Bool.or_eq_true, Bool.and_eq_true, Bool.not_eq_true', ← Bool.not_eq_true,
    ← Std.TreeSet.mem_iff_contains, ← Std.TreeSet.mem_iff_contains, h.reachable, hdead,
    hsuccessor, or_assoc]
  rfl

theorem Pruned.skip (hdead : ¬ i.Live code c.nodes) : Pruned (code ++ [i]) (c.skip i) where
  reachable b := by
    rw [skip_eq]
    exact h.reachable b
  unreachable b := by
    rw [mem_unreachable_skip, h.unreachable, nodes_skip]
    simp [or_and_right, exists_or, not_visited_of_before hnodes, or_comm]
  live j hj := by
    rw [nodes_skip]
    rcases List.mem_append.1 hj with hj | hj
    · rw [Instruction.live_concat_iff (Int.le_of_lt (hcode j hj).2)]
      exact h.live j hj
    · cases List.mem_singleton.1 hj
      rw [Instruction.live_concat_iff (Int.le_refl _)]
      exact iff_of_false (not_visited_of_before hnodes) hdead

omit hnodes in
theorem Pruned.visit {s : BlockStack} {f : PathFacts} {r : Resolution}
    (hlive : i.Live code c.nodes) :
    Pruned (code ++ [i]) ((c.declareHandler i s).record i s f r) := by
  have hself : Visited (c.nodes.push (nodeOf i s f r)) i.offset := visited_push_iff.2 (.inr rfl)
  have hothers : ∀ j ∈ code,
      (Visited (c.nodes.push (nodeOf i s f r)) j.offset ↔ Visited c.nodes j.offset) := by
    intro j hj
    have hne : i.offset ≠ j.offset := Int.ne_of_gt (hcode j hj).2
    simp [visited_push_iff, nodeOf, hne]
  have hpush {j : Instruction} (hj : j.offset ≤ i.offset) :
      j.Live (code ++ [i]) (c.nodes.push (nodeOf i s f r)) ↔ j.Live code c.nodes := by
    rw [Instruction.live_concat_iff hj,
      Instruction.live_push_iff (fun k hk => (hcode k hk).1) (.inl hj)]
  refine ⟨?_, ?_, ?_⟩
  · intro b
    rw [mem_reachable_visited, h.reachable, nodes_visited]
    simp [or_and_right, exists_or, nodeOf, or_comm, or_left_comm]
  · intro b
    rw [unreachable_visited, h.unreachable, nodes_visited]
    constructor
    · rintro ⟨j, hj, hjump, hdead⟩
      exact ⟨j, List.mem_append_left _ hj, hjump, by rwa [hothers j hj]⟩
    · rintro ⟨j, hj, hjump, hdead⟩
      rcases List.mem_append.1 hj with hj | hj
      · exact ⟨j, hj, hjump, by rwa [hothers j hj] at hdead⟩
      · -- the new node is at the only other jump
        cases List.mem_singleton.1 hj
        exact (hdead hself).elim
  · intro j hj
    rw [nodes_visited]
    rcases List.mem_append.1 hj with hj | hj
    · rw [hothers j hj, h.live j hj, hpush (Int.le_of_lt (hcode j hj).2)]
    · cases List.mem_singleton.1 hj
      rw [hpush (Int.le_refl _)]
      exact iff_of_true hself hlive

theorem Pruned.step (hstep : Step c i next (c', none)) : Pruned (code ++ [i]) c' := by
  have hlive := h.isLive_iff hcode hnodes
  cases hstep with
  | skipped dead => exact h.skip hcode hnodes (by rw [← hlive, dead]; decide)
  | visited live joined resolved => exact h.visit hcode (hlive.1 live)

end Step

/-- A run over a code unit in ascending order has decided about every instruction as its nodes
say. -/
theorem pruned_run (hcode : Instruction.Ascending code) (hnonneg : ∀ i ∈ code, 0 ≤ i.offset)
    (h : start.run (Instruction.withNext code) = (c, none)) : Pruned code c := by
  rw [← Instruction.map_fst_withNext code]
  refine pass_induction (P := fun done d => Pruned (done.map (·.1)) d) hcode pruned_start ?_ h
  intro done i next rest d d' hsteps hpass hd hstep
  have hlt := lt_of_steps hcode hsteps
  rw [List.map_append, List.map_cons, List.map_nil]
  refine hd.step ?_ ?_ hstep
  · intro j hj
    obtain ⟨x, hx, rfl⟩ := List.mem_map.1 hj
    have hmem : x ∈ Instruction.withNext code := by simp [hsteps, hx]
    exact ⟨hnonneg x.1 (Instruction.mem_of_mem_withNext hmem), hlt x hx⟩
  · intro m hm
    exact hpass.offset_lt hlt (by simpa using hm)

end Construction

namespace Graph

variable {code : List Instruction} {g : Graph} {i : Instruction}

/-- An instruction of a code unit gets a node exactly if it is live among the nodes. -/
theorem visited_iff_live (hcode : Instruction.Ascending code) (h : Graph.build code = .ok g)
    (hi : i ∈ code) : Visited g.nodes i.offset ↔ i.Live code g.nodes := by
  obtain ⟨⟨first, rest, rfl, hentry⟩, c, hrun, hfinish⟩ := run_of_build h
  have hnonneg := hcode.nonneg hentry
  obtain ⟨hnodes, _⟩ := finish_ok hfinish
  have hexit : Node.exit.offset ≠ i.offset := by
    have := hnonneg i hi
    simp only [Node.exit, Offset.exit]
    omega
  rw [hnodes, visited_push_iff, Instruction.live_push_iff hnonneg (.inr rfl),
    ← (pruned_run hcode hnonneg hrun).live i hi]
  simp [hexit]

/-- What is at the offset of an instruction is its node. -/
theorem Built.visited_iff (h : g.Built code) (hcode : Instruction.Ascending code) (hi : i ∈ code) :
    Visited g.nodes i.offset ↔ ∃ n ∈ g.nodes, n.instruction = some i := by
  refine exists_congr fun n => and_congr_right fun hn => ?_
  exact ⟨h.instruction_of_offset_eq hcode hn hi, h.offset_of_instruction_eq hn⟩

/-- An instruction of a code unit gets a node exactly if it is the entry, or a node before it goes
on to it, or it is flagged as a jump target and every instruction before it that jumps to it gets
a node. -/
theorem exists_node_iff (hcode : Instruction.Ascending code) (h : Graph.build code = .ok g)
    (hi : i ∈ code) :
    (∃ n ∈ g.nodes, n.instruction = some i) ↔
      i.offset = Offset.entry ∨
      (∃ m ∈ g.nodes, m.offset < i.offset ∧ i.offset ∈ m.successors) ∨
      i.isJumpTarget = true ∧ ∀ j ∈ code, j.offset < i.offset → j.jumpTarget = some i.offset →
        ∃ m ∈ g.nodes, m.instruction = some j := by
  have hg := Built.of_build hcode h
  rw [← hg.visited_iff hcode hi, visited_iff_live hcode h hi, Instruction.Live]
  refine or_congr_right (or_congr_right (and_congr_right fun _ => ?_))
  exact forall₂_congr fun j hj => by rw [hg.visited_iff hcode hj]

/-- Nothing before 20 goes on to it; only the loop that is opened at 0 names it. Nothing goes on
to 6 either, and nothing jumps there. -/
theorem exists_node_iff_continueInFinally :
    ∃ g, Graph.build Instruction.continueInFinally = .ok g ∧
      (∀ m ∈ g.nodes.toList, 20 ∉ m.successors) ∧
      (∃ n ∈ g.nodes, n.instruction = some ⟨.loadConst, 20, some 0, none, true⟩) ∧
      ¬ ∃ n ∈ g.nodes, n.instruction = some ⟨.popBlock, 6, none, none, false⟩ := by
  obtain ⟨g, hg, hp⟩ := exists_build Instruction.continueInFinally
    (fun g => (∀ m ∈ g.nodes.toList, 20 ∉ m.successors ∧ 6 ∉ m.successors) ∧
      ∀ j ∈ Instruction.continueInFinally, j.offset < 20 → j.jumpTarget = some 20 →
        ∃ m ∈ g.nodes.toList, m.instruction = some j) (by decide +kernel)
  obtain ⟨hsuccessors, hjumps⟩ := of_decide_eq_true hp
  simp only [Array.mem_toList_iff] at hsuccessors hjumps
  refine ⟨g, hg, by simpa using fun m hm => (hsuccessors m hm).1, ?_, ?_⟩
  · apply (exists_node_iff Instruction.ascending_continueInFinally hg (by decide)).2
    exact .inr (.inr ⟨rfl, hjumps⟩)
  · rw [exists_node_iff Instruction.ascending_continueInFinally hg (by decide)]
    rintro (hentry | ⟨m, hm, _, hmem⟩ | ⟨hflag, _⟩)
    · cases hentry
    · exact (hsuccessors m hm).2 hmem
    · cases hflag

end Graph

end BytecodeFlow
