import BytecodeFlow.Proofs.EdgeOrigins
import BytecodeFlow.Proofs.Failures
import BytecodeFlow.Proofs.Provenance
import BytecodeFlow.Proofs.Pruning
import BytecodeFlow.Proofs.Reachability

/-!
# Edges to nowhere

Building a graph fails at the end if an edge goes to an offset without a node. In a code unit all
of whose jumps go to instructions, an edge to a later instruction makes that live. What is left
are edges back to an instruction that was passed as dead, because an earlier dead instruction
jumps to it too (`Construction.Missed`). These are the only reason for a dangling edge
(`danglingEdge_iff_missed`).
-/

namespace BytecodeFlow

open BlockStack Blocks

/-- Every jump of the code unit goes to an instruction of it. -/
def Instruction.JumpsInside (code : List Instruction) : Prop :=
  ∀ target ∈ jumpTargets code, ∃ i ∈ code, i.offset = target

namespace Construction

variable {code : List Instruction} {c c' : Construction} {i : Instruction} {next : Option Int}
  {n : Node}

/-! ## Failures of the pass and of its end -/

/-- No step fails with a dangling edge. -/
theorem Step.ne_danglingEdge {e : BuildError} (h : Step c i next (c', some e)) (a b : Int) :
    e ≠ .danglingEdge a b := by
  rintro rfl
  cases h with
  | disagreed live joined =>
    obtain ⟨_, _, _, _, he⟩ := joinStacks_eq_error_iff.1 joined
    cases he
  | unresolved live joined resolved => cases Instruction.resolve_eq_error_iff.1 resolved

theorem run_ne_danglingEdge {steps : List (Instruction × Option Int)} {e : BuildError}
    (h : c.run steps = (c', some e)) (a b : Int) : e ≠ .danglingEdge a b := by
  induction steps generalizing c with
  | nil => cases h
  | cons x rest ih =>
    have hstep := step_advance c x.1 x.2
    rw [run] at h
    split at h
    · exact ih h
    · rename_i hadv
      cases h
      rw [hadv] at hstep
      exact hstep.ne_danglingEdge a b

theorem process_ne_danglingEdge {e : BuildError} (h : c.process code = (c', some e)) (a b : Int) :
    e ≠ .danglingEdge a b := by
  unfold process at h
  split at h
  · cases h
    rintro ⟨⟩
  · split at h
    · exact run_ne_danglingEdge h a b
    · cases h
      rintro ⟨⟩

/-- The finished index has the offsets of the nodes, and the exit. -/
theorem Coherent.contains_insert_exit (h : c.Coherent)
    (hasc : c.nodes.toList.Pairwise fun m n => m.offset < n.offset) {b : Int} :
    (c.index.insert Offset.exit c.nodes.size).contains b = true ↔
      b = Offset.exit ∨ Visited c.nodes b := by
  rw [Std.TreeMap.contains_insert, Bool.or_eq_true, beq_iff_eq,
    Std.LawfulEqCmp.compare_eq_iff_eq, Std.TreeMap.contains_eq_isSome_getElem?]
  refine or_congr eq_comm ⟨fun hk => ?_, fun hv => ?_⟩
  · obtain ⟨k, hk⟩ := Option.isSome_iff_exists.1 hk
    obtain ⟨⟨n, hn, ho⟩, _⟩ := (h.index b k).1 hk
    exact ⟨n, Array.mem_of_getElem? hn, ho⟩
  · obtain ⟨n, hn, rfl⟩ := hv
    obtain ⟨k, hk, _⟩ := Option.bind_eq_some_iff.1 (h.node?_of_mem hasc (by simpa using hn))
    simp [hk]

theorem danglingEdge?_isSome {index : Std.TreeMap Int Nat} {nodes : List Node} :
    (danglingEdge? index nodes).isSome = true ↔
      ∃ n ∈ nodes, ∃ b ∈ n.successors, index.contains b = false := by
  simp [danglingEdge?, List.findSome?_isSome_iff]

/-- An edge to the offset would end nowhere. -/
def Dangles (c : Construction) (target : Int) : Prop :=
  target ≠ Offset.exit ∧ ¬ Visited c.nodes target

theorem Coherent.contains_eq_false_iff (h : c.Coherent)
    (hasc : c.nodes.toList.Pairwise fun m n => m.offset < n.offset) {b : Int} :
    (c.addNode .exit).index.contains b = false ↔ c.Dangles b := by
  rw [Dangles, ← not_or, ← Bool.not_eq_true]
  exact not_congr (h.contains_insert_exit hasc)

/-- The exit adds no edge. -/
theorem danglingEdge?_exit (index : Std.TreeMap Int Nat) (c : Construction) :
    danglingEdge? index (c.addNode .exit).nodes.toList = danglingEdge? index c.nodes.toList := by
  simp [danglingEdge?, addNode, Node.exit]

/-- Only the first dangling edge makes the end of the pass fail. -/
theorem finish_eq_error_iff_danglingEdge? {e : BuildError} :
    c.finish = .error e ↔
      ∃ source target,
        danglingEdge? (c.addNode .exit).index c.nodes.toList = some (source, target) ∧
          e = .danglingEdge source target := by
  rw [← danglingEdge?_exit]
  unfold finish
  simp only
  split
  · rename_i source target hsome
    simp [hsome, eq_comm]
  · rename_i hnone
    simp [hnone]

/-- The pass ends with a dangling edge exactly if an edge of a node goes to an offset without
one. -/
theorem finish_danglingEdge_iff (h : c.Coherent)
    (hasc : c.nodes.toList.Pairwise fun m n => m.offset < n.offset) :
    (∃ a b, c.finish = .error (.danglingEdge a b)) ↔
      ∃ n ∈ c.nodes, ∃ b ∈ n.successors, c.Dangles b := by
  have hfound : (∃ a b, c.finish = .error (.danglingEdge a b)) ↔
      (danglingEdge? (c.addNode .exit).index c.nodes.toList).isSome = true := by
    simp [finish_eq_error_iff_danglingEdge?, Option.isSome_iff_exists]
  simp only [hfound, danglingEdge?_isSome, h.contains_eq_false_iff hasc, Array.mem_toList_iff]

/-! ## Edges back to what was passed -/

/-- A node goes back to an offset that was passed: no node before that had gone on to it, and a
dead instruction before it jumps to it. -/
structure Missed (code : List Instruction) (c : Construction) (n : Node) (target : Int) :
    Prop where
  node : n ∈ c.nodes
  edge : target ∈ n.successors
  back : target < n.offset
  unannounced (m : Node) : m ∈ c.nodes → m.offset < target → target ∉ m.successors
  deadJump : ∃ j ∈ code, j.offset < target ∧ j.jumpTarget = some target ∧
    ¬ Visited c.nodes j.offset

/-- The jump target of a node is one of the code unit. -/
theorem Pass.mem_jumpTargets (h : Pass (Instruction.withNext code) c) (hn : n ∈ c.nodes)
    {b : Int} (hb : n.jumpTarget = some b) : b ∈ Instruction.jumpTargets code := by
  obtain ⟨i, next, hi, hv⟩ := h.visits n (by simpa using hn)
  rw [Node.jumpTarget, hv.instruction, Option.bind_some] at hb
  exact Instruction.mem_jumpTargets.2 ⟨i, Instruction.mem_of_mem_withNext hi, hb⟩

/-- An edge that stays in the function goes to a jump target of the code unit, or to the next
instruction. -/
theorem Pass.mem_jumpTargets_or_next (h : Pass (Instruction.withNext code) c) (htraced : c.Traced)
    (hcode : Instruction.Ascending code) (hnonneg : ∀ i ∈ code, 0 ≤ i.offset) (hn : n ∈ c.nodes)
    {b : Int} (hb : b ∈ n.successors) (hexit : b ≠ Offset.exit) :
    b ∈ Instruction.jumpTargets code ∨ n.offset < b ∧ ∃ j ∈ code, j.offset = b := by
  obtain ⟨i, next, hi, hv⟩ := h.visits n (by simpa using hn)
  have ho := hnonneg i (Instruction.mem_of_mem_withNext hi)
  -- the exit of a scope is the jump target of the node that opened it
  have hscope : ∀ x ∈ n.stack.toList c.arena, x.2.exit ∈ Instruction.jumpTargets code := by
    intro x hx
    obtain ⟨m, hm, hopens⟩ := htraced.scopes x.1 x.2 (get?_of_mem_toList hx)
    exact h.mem_jumpTargets hm hopens.jumpTarget
  cases hv.reason ho hb with
  | exit leaves exit => exact absurd exit hexit
  | next fall =>
    rw [fall] at hi
    obtain ⟨j, hadjacent, hj⟩ := Instruction.exists_infix_of_withNext hi
    exact .inr ⟨hv.offset ▸ hcode.lt_of_mem_withNext hi, j, hadjacent.subset (by simp), hj⟩
  | jump flow jump =>
    exact .inl (Instruction.mem_jumpTargets.2 ⟨i, Instruction.mem_of_mem_withNext hi, jump⟩)
  | handler forward x active handles exit => exact .inl (exit ▸ hscope x active)
  | loopExit flow l loop exit => exact .inl (exit ▸ hscope l (List.mem_of_find?_eq_some loop))
  | restart flow l loop pending =>
    rw [hv.facts] at pending
    obtain ⟨f, hf, hholds⟩ := PathFacts.holds_join.1 pending
    obtain ⟨m, hm, rfl⟩ := List.mem_map.1 hf
    have hm : m ∈ c.nodes := by simpa using (List.mem_filter.1 hm).1
    obtain ⟨k, hk, hdefers⟩ := htraced.restarts m l.1 b hm hholds
    exact .inl (h.mem_jumpTargets hk hdefers.jumpTarget)

/-- An edge to an offset without a node goes back to an instruction that was passed. -/
theorem Pass.missed_of_not_visited (h : Pass (Instruction.withNext code) c) (htraced : c.Traced)
    (hpruned : Pruned code c) (hcode : Instruction.Ascending code)
    (hmarked : Instruction.Marked code) (hinside : Instruction.JumpsInside code)
    (hnonneg : ∀ i ∈ code, 0 ≤ i.offset) (hn : n ∈ c.nodes) {b : Int} (hb : b ∈ n.successors)
    (hexit : b ≠ Offset.exit) (hdead : ¬ Visited c.nodes b) : c.Missed code n b := by
  have horigin := h.mem_jumpTargets_or_next htraced hcode hnonneg hn hb hexit
  have hcovered : ∃ i ∈ code, i.offset = b := by
    rcases horigin with hjump | ⟨_, hnext⟩
    · exact hinside b hjump
    · exact hnext
  obtain ⟨i, hi, rfl⟩ := hcovered
  have hlive : ¬ i.Live code c.nodes := by rwa [← hpruned.live i hi]
  rw [Instruction.Live] at hlive
  push Not at hlive
  obtain ⟨_, hunannounced, hflagged⟩ := hlive
  have hback : i.offset < n.offset := by
    refine lt_of_le_of_ne ?_ fun ho => hdead ⟨n, hn, ho.symm⟩
    by_contra hlt
    exact hunannounced n hn (Int.not_le.1 hlt) hb
  have htarget : i.offset ∈ Instruction.jumpTargets code := by
    rcases horigin with hjump | ⟨hlt, _⟩
    · exact hjump
    · omega
  exact ⟨hn, hb, hback, hunannounced, hflagged ((hmarked.isJumpTarget_iff hi).2 htarget)⟩

/-- What is missed is an offset without a node, and not the exit. -/
theorem Missed.not_visited {b : Int} (h : c.Missed code n b) (hpruned : Pruned code c)
    (hinside : Instruction.JumpsInside code) (hnonneg : ∀ i ∈ code, 0 ≤ i.offset) :
    b ≠ Offset.exit ∧ ¬ Visited c.nodes b := by
  obtain ⟨j, hj, hlt, hjump, hdead⟩ := h.deadJump
  have hpos := hnonneg j hj
  obtain ⟨i, hi, rfl⟩ := hinside b (Instruction.mem_jumpTargets.2 ⟨j, hj, hjump⟩)
  refine ⟨by simp only [Offset.exit]; omega, ?_⟩
  rw [hpruned.live i hi]
  rintro (hentry | ⟨m, hm, hmlt, hmem⟩ | ⟨_, hjumps⟩)
  · simp only [Offset.entry] at hentry
    omega
  · exact h.unannounced m hm hmlt hmem
  · exact hdead (hjumps j hj hlt hjump)

/-- A pass that went well ends with a dangling edge exactly if it missed an instruction. -/
theorem finish_danglingEdge_iff_missed (hcode : Instruction.Ascending code)
    (hmarked : Instruction.Marked code) (hinside : Instruction.JumpsInside code)
    (h : start.process code = (c, none)) :
    (∃ a b, c.finish = .error (.danglingEdge a b)) ↔ ∃ n b, c.Missed code n b := by
  obtain ⟨⟨first, rest, rfl, hentry⟩, hrun⟩ := run_of_process h
  have hnonneg := hcode.nonneg hentry
  have hpass := pass_run hcode hrun
  have htraced := traced_run hcode hnonneg hrun
  have hpruned := pruned_run hcode hnonneg hrun
  rw [finish_danglingEdge_iff hpass.coherent hpass.ascending]
  constructor
  · rintro ⟨n, hn, b, hb, hexit, hdead⟩
    exact ⟨n, b, hpass.missed_of_not_visited htraced hpruned hcode hmarked hinside hnonneg hn hb
      hexit hdead⟩
  · rintro ⟨n, b, hmissed⟩
    exact ⟨n, hmissed.node, b, hmissed.edge, hmissed.not_visited hpruned hinside hnonneg⟩

end Construction

namespace Graph

open Construction

variable {code : List Instruction}

/-- Only the end of a pass that went well fails with a dangling edge. -/
theorem build_danglingEdge_iff {a b : Int} :
    Graph.build code = .error (.danglingEdge a b) ↔
      ∃ c, start.process code = (c, none) ∧ c.finish = .error (.danglingEdge a b) := by
  unfold build
  split
  · rename_i c hc
    simp [hc]
  · rename_i c e hc
    simp [hc, process_ne_danglingEdge hc a b]

/-- In a marked code unit all of whose jumps go to instructions, the construction fails with a
dangling edge exactly if the pass goes well and misses an instruction. -/
theorem danglingEdge_iff_missed (hcode : Instruction.Ascending code)
    (hmarked : Instruction.Marked code) (hinside : Instruction.JumpsInside code) :
    (∃ a b, Graph.build code = .error (.danglingEdge a b)) ↔
      ∃ c, start.process code = (c, none) ∧ ∃ n b, c.Missed code n b := by
  simp only [build_danglingEdge_iff]
  constructor
  · rintro ⟨a, b, c, hc, hfinish⟩
    exact ⟨c, hc, (finish_danglingEdge_iff_missed hcode hmarked hinside hc).1 ⟨a, b, hfinish⟩⟩
  · rintro ⟨c, hc, hmissed⟩
    obtain ⟨a, b, hfinish⟩ := (finish_danglingEdge_iff_missed hcode hmarked hinside hc).2 hmissed
    exact ⟨a, b, c, hc, hfinish⟩

end Graph

/-- The jump at 2 is dead; the one at 6 to the same target is not. -/
def Instruction.deadJumpAhead : List Instruction :=
  [⟨.jumpAbsolute, 0, some 6, some 6, false⟩, ⟨.jumpAbsolute, 2, some 4, some 4, false⟩,
    ⟨.nop, 4, none, none, true⟩, ⟨.jumpAbsolute, 6, some 4, some 4, true⟩]

theorem Instruction.ascending_deadJumpAhead : Ascending deadJumpAhead := by
  unfold Ascending
  decide

theorem Instruction.marked_deadJumpAhead : Marked deadJumpAhead := by
  unfold Marked
  decide

theorem Instruction.jumpsInside_deadJumpAhead : JumpsInside deadJumpAhead := by
  unfold JumpsInside
  decide

theorem Graph.build_deadJumpAhead :
    Graph.build Instruction.deadJumpAhead = .error (.danglingEdge 6 4) :=
  build_eq_error (by decide +kernel)

/-- The pass has gone past 4 when it comes to the jump back to it. -/
theorem Graph.danglingEdge_deadJumpAhead :
    Instruction.Ascending Instruction.deadJumpAhead ∧
      Instruction.Marked Instruction.deadJumpAhead ∧
      Instruction.JumpsInside Instruction.deadJumpAhead ∧
      Graph.build Instruction.deadJumpAhead = .error (.danglingEdge 6 4) := by
  exact ⟨Instruction.ascending_deadJumpAhead, Instruction.marked_deadJumpAhead,
    Instruction.jumpsInside_deadJumpAhead, Graph.build_deadJumpAhead⟩

theorem Graph.danglingEdge_iff_missed_deadJumpAhead :
    ∃ c, Construction.start.process Instruction.deadJumpAhead = (c, none) ∧
      ∃ n b, c.Missed Instruction.deadJumpAhead n b :=
  (danglingEdge_iff_missed Instruction.ascending_deadJumpAhead Instruction.marked_deadJumpAhead
    Instruction.jumpsInside_deadJumpAhead).1 ⟨6, 4, build_deadJumpAhead⟩

end BytecodeFlow
