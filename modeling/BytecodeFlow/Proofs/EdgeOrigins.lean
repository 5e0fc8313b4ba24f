import BytecodeFlow.Proofs.MeetOverPaths
import BytecodeFlow.Proofs.Successors

/-!
# Where the edges of a graph come from

Every edge that stays in the function has an origin in the code unit (`Graph.EdgeOrigin`), no edge
is there twice, and where control falls through the edge to the next instruction comes first
(`successors_have_origins`). Only the restarts of an `END_FINALLY` come from afar: from a
`CONTINUE_LOOP` further up that is in the same loop.
-/

namespace BytecodeFlow

open BlockStack Blocks

/-- The instruction after another one is at its next offset. -/
theorem Instruction.exists_infix_of_withNext {code : List Instruction} {i : Instruction}
    {offset : Int} (h : (i, some offset) ∈ withNext code) :
    ∃ j, [i, j] <:+: code ∧ j.offset = offset := by
  obtain ⟨pre, post, rfl, hnext⟩ := mem_withNext h
  cases post with
  | nil => cases hnext
  | cons j rest =>
    refine ⟨j, ⟨pre, rest, by simp⟩, ?_⟩
    exact (Option.some.inj hnext).symm

theorem Instruction.getLast?_of_withNext {code : List Instruction} {i : Instruction}
    (h : (i, none) ∈ withNext code) : code.getLast? = some i := by
  obtain ⟨pre, post, rfl, hnext⟩ := mem_withNext h
  cases post with
  | nil => simp
  | cons j rest => cases hnext

namespace Graph

/-- How an edge from the node of an instruction to an offset comes about. -/
inductive EdgeOrigin (code : List Instruction) (g : Graph) (n : Node) (i : Instruction)
    (target : Int) : Prop where
  | next (j : Instruction) (adjacent : [i, j] <:+: code) (offset : j.offset = target)
  | jump (jumps : i.opcode.flow = .jump ∨ i.opcode.flow = .branch ∨
      i.opcode.flow = .continueLoop) (jump : i.jumpTarget = some target)
  | handler (forward : n.offset < target) (x : Nat × Scope) (active : x ∈ g.blocks n)
      (handles : x.2.kind ≠ .loopBlock) (exit : x.2.exit = target)
  | loopExit (leaves : i.opcode.flow = .breakLoop ∨ i.opcode.flow = .endFinally)
      (l : Nat × Scope) (loop : innermostLoop? (g.blocks n) = some l) (exit : l.2.exit = target)
  /-- A `CONTINUE_LOOP` of the same loop was deferred. -/
  | restart (flow : i.opcode.flow = .endFinally) (m : Node) (mem : m ∈ g.nodes)
      (before : m.offset < n.offset) (j : Instruction) (instruction : m.instruction = some j)
      (continues : j.opcode.flow = .continueLoop) (jump : j.jumpTarget = some target)
      (l : Nat × Scope) (loop : innermostLoop? (g.blocks n) = some l)
      (same : innermostLoop? (g.blocks m) = some l)

/-- Control leaves the function from the node. -/
def Leaves (g : Graph) (n : Node) : Prop :=
  ∃ i, n.instruction = some i ∧ i.Leaves (g.blocks n) n.facts

variable {code : List Instruction} {g : Graph} {m n : Node} {ms : List Node} {i : Instruction}

theorem lt_of_walk (hwalk : g.Walk (m :: (ms ++ [n]))) : m.offset < n.offset := by
  induction ms generalizing m with
  | nil =>
    obtain ⟨_, hforward, _⟩ := walk_cons_cons.1 hwalk
    exact hforward.1
  | cons k rest ih =>
    obtain ⟨_, hforward, hrest⟩ := walk_cons_cons.1 hwalk
    exact Int.lt_trans hforward.1 (ih hrest)

/-- One loop has one id, so that it is the same scope on any stack. -/
theorem innermostLoop?_eq_of_id_eq {l k : Nat × Scope}
    (hl : innermostLoop? (g.blocks n) = some l) (hk : innermostLoop? (g.blocks m) = some k)
    (hid : k.1 = l.1) : k = l := by
  have hlg := get?_of_mem_toList (List.mem_of_find?_eq_some hl)
  have hkg := get?_of_mem_toList (List.mem_of_find?_eq_some hk)
  rw [hid, hlg] at hkg
  exact Prod.ext hid (Option.some.inj hkg).symm

/-- A continue that is pending before a node was deferred further up. -/
theorem Built.exists_continue_of_holds (h : g.Built code) (hn : n ∈ g.nodes)
    (hexit : n.isExit = false) {l : Nat × Scope} (hl : innermostLoop? (g.blocks n) = some l)
    {target : Int} (hfact : n.facts.Holds (.continued l.1 target)) :
    ∃ m ∈ g.nodes, m.offset < n.offset ∧ ∃ j, m.instruction = some j ∧
      j.opcode.flow = .continueLoop ∧ j.jumpTarget = some target ∧
        innermostLoop? (g.blocks m) = some l := by
  obtain ⟨m, ms, hwalk, ⟨j, hj, hflow, hjump, ⟨scope, hk⟩, _⟩, _⟩ :=
    h.exists_walk_of_holds hn hexit hfact
  refine ⟨m, hwalk.1 m (by simp), lt_of_walk hwalk, j, hj, hflow, hjump, ?_⟩
  rw [hk, innermostLoop?_eq_of_id_eq hl hk rfl]

/-- Every edge leaves the function or has an origin in the code unit. -/
theorem Built.leaves_or_edgeOrigin (h : g.Built code) (hn : n ∈ g.nodes)
    (hexit : n.isExit = false) (hi : n.instruction = some i) {b : Int} (hb : b ∈ n.successors) :
    b = Offset.exit ∧ g.Leaves n ∨ EdgeOrigin code g n i b := by
  have ho := h.offset_nonneg hn hexit
  obtain ⟨j, next, hj, hv⟩ := h.visit n hn hexit
  cases hv.instruction.symm.trans hi
  rw [hv.offset] at ho
  cases hv.reason ho hb with
  | exit leaves exit => exact .inl ⟨exit, i, hi, leaves⟩
  | next fall =>
    rw [fall] at hj
    obtain ⟨k, hadjacent, hk⟩ := Instruction.exists_infix_of_withNext hj
    exact .inr (.next k hadjacent hk)
  | jump flow jump => exact .inr (.jump flow jump)
  | handler forward x active handles exit =>
    rw [← hv.offset] at forward
    exact .inr (.handler forward x active handles exit)
  | loopExit flow l loop exit => exact .inr (.loopExit flow l loop exit)
  | restart flow l loop pending =>
    obtain ⟨m, hm, hlt, j, hj, hcontinues, hjump, hsame⟩ :=
      h.exists_continue_of_holds hn hexit loop pending
    exact .inr (.restart flow m hm hlt j hj hcontinues hjump l loop hsame)

theorem Built.edgeOrigin (h : g.Built code) (hn : n ∈ g.nodes) (hexit : n.isExit = false)
    (hi : n.instruction = some i) {b : Int} (hb : b ∈ n.successors) (hbexit : b ≠ Offset.exit) :
    EdgeOrigin code g n i b :=
  (h.leaves_or_edgeOrigin hn hexit hi hb).resolve_left fun hleaves => hbexit hleaves.1

/-- An edge to an instruction leads to the node of the instruction. -/
theorem Built.exists_node_of_mem_successors (h : g.Built code)
    (hcode : Instruction.Ascending code) (hn : n ∈ g.nodes) {j : Instruction} (hj : j ∈ code)
    (hb : j.offset ∈ n.successors) : ∃ m ∈ g.nodes, m.instruction = some j := by
  obtain ⟨m, hm, ho⟩ := h.closed n hn j.offset hb
  exact ⟨m, hm, h.instruction_of_offset_eq hcode hm hj ho⟩

/-- Every edge that stays in the function has an origin in the code unit, the edges of a node are
distinct, and where control falls through, the first one leads to the node of the next
instruction. -/
theorem successors_have_origins (hcode : Instruction.Ascending code)
    (h : Graph.build code = .ok g) (hn : n ∈ g.nodes) (hexit : n.isExit = false) :
    ∃ i, n.instruction = some i ∧
      (∀ b ∈ n.successors, b ≠ Offset.exit → EdgeOrigin code g n i b) ∧
      n.successors.Nodup ∧
      (i.opcode.flow.fallsThrough = true ∨
          i.opcode.flow.mayFallThrough = true ∧ code.getLast? ≠ some i →
        ∃ j, [i, j] <:+: code ∧ n.successors[0]? = some j.offset ∧
          ∃ m ∈ g.nodes, m.instruction = some j) := by
  have hg := Built.of_build hcode h
  obtain ⟨i, next, hi, hv⟩ := hg.visit n hn hexit
  obtain ⟨a, r, hnode, hr, _⟩ := hv.outcome
  have hsuccessors : n.successors = r.successors := by rw [hnode, Construction.nodeOf]
  refine ⟨i, hv.instruction, ?_, ?_, ?_⟩
  · intro b hb hbexit
    exact hg.edgeOrigin hn hexit hv.instruction hb hbexit
  · rw [hsuccessors]
    exact hr.nodup_successors
  · intro hfall
    have hfalls : i.opcode.flow.fallsThrough = true ∨
        i.opcode.flow.mayFallThrough = true ∧ next ≠ none := by
      rcases hfall with hfall | ⟨hmay, hlast⟩
      · exact .inl hfall
      · refine .inr ⟨hmay, ?_⟩
        rintro rfl
        exact hlast (Instruction.getLast?_of_withNext hi)
    obtain ⟨following, rfl, hhead⟩ := hr.head?_successors hfalls
    obtain ⟨j, hadjacent, rfl⟩ := Instruction.exists_infix_of_withNext hi
    rw [← hsuccessors, List.head?_eq_getElem?] at hhead
    have hj : j ∈ code := hadjacent.subset (by simp)
    exact ⟨j, hadjacent, hhead,
      hg.exists_node_of_mem_successors hcode hn hj (List.mem_of_getElem? hhead)⟩

/-- The handler of the `finally` block falls through to 10, and restarts the loop at 2. -/
theorem successors_have_origins_continueInFinally :
    ∃ g n i, Graph.build Instruction.continueInFinally = .ok g ∧ n ∈ g.nodes ∧
      n.instruction = some i ∧ i.opcode = .endFinally ∧ n.successors = [10, 2] ∧
      EdgeOrigin Instruction.continueInFinally g n i 2 ∧
      ∃ j, [i, j] <:+: Instruction.continueInFinally ∧ n.successors[0]? = some j.offset ∧
        ∃ m ∈ g.nodes, m.instruction = some j := by
  obtain ⟨g, hg, hp⟩ := exists_build Instruction.continueInFinally
    (fun g => g.nodes.toList.any fun n =>
      n.isExit = false ∧ n.successors = [10, 2] ∧
        n.instruction = some ⟨.endFinally, 8, none, none, true⟩) (by decide +kernel)
  obtain ⟨n, hn, hn'⟩ := List.any_eq_true.1 hp
  obtain ⟨hexit, hsuccessors, hinstruction⟩ := of_decide_eq_true hn'
  have hmem : n ∈ g.nodes := by simpa using hn
  obtain ⟨i, hi, horigin, _, hfall⟩ := successors_have_origins
    Instruction.ascending_continueInFinally hg hmem hexit
  cases hi.symm.trans hinstruction
  refine ⟨g, n, _, hg, hmem, hi, rfl, hsuccessors, ?_, ?_⟩
  · exact horigin 2 (by simp [hsuccessors]) (by decide)
  · exact hfall (.inr (by decide))

end Graph

end BytecodeFlow
