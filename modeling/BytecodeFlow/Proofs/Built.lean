import BytecodeFlow.Proofs.Pass
import Mathlib.Data.List.Nodup

/-!
# Graphs of code units in ascending order

What is known about a finished graph, wherever its code came from: every node but the exit has
the visit that made it (`Built.visit`), nodes are determined by their offsets
(`Built.eq_of_offset_eq`), and every edge ends at a node (`Built.closed`).
-/

namespace BytecodeFlow

open Construction

/-- An instruction of a code unit stands before the one at its next offset. -/
theorem Instruction.mem_withNext {code : List Instruction} {i : Instruction}
    {next : Option Int} (h : (i, next) ∈ withNext code) :
    ∃ pre post, code = pre ++ i :: post ∧ next = post.head?.map Instruction.offset := by
  induction code with
  | nil => cases h
  | cons j rest ih =>
    rw [withNext, List.mem_cons] at h
    rcases h with h | h
    · cases h
      exact ⟨[], rest, rfl, rfl⟩
    · obtain ⟨pre, post, rfl, hnext⟩ := ih h
      exact ⟨j :: pre, post, rfl, hnext⟩

theorem Instruction.mem_of_mem_withNext {code : List Instruction} {i : Instruction}
    {next : Option Int} (h : (i, next) ∈ withNext code) : i ∈ code := by
  obtain ⟨pre, post, rfl, _⟩ := mem_withNext h
  simp

/-- What follows an instruction in a code unit in ascending order is further on. -/
theorem Instruction.Ascending.lt_of_mem_withNext {code : List Instruction} (hcode : Ascending code)
    {i : Instruction} {following : Int} (h : (i, some following) ∈ withNext code) :
    i.offset < following := by
  obtain ⟨pre, post, rfl, hnext⟩ := mem_withNext h
  cases post with
  | nil => cases hnext
  | cons j rest =>
    cases hnext
    have hafter := List.pairwise_cons.1 (List.pairwise_append.1 hcode).2.1
    exact hafter.1 j (by simp)

theorem Node.isExit_of_nonneg {n : Node} (h : 0 ≤ n.offset) : n.isExit = false := by
  simp only [isExit, Offset.isExit, beq_eq_false_iff_ne, Offset.exit]
  omega

/-- What is listed at strictly ascending offsets is known by its offset. -/
theorem eq_of_offset_eq_of_pairwise {α : Type} {offset : α → Int} {l : List α}
    (h : l.Pairwise fun x y => offset x < offset y) {x y : α} (hx : x ∈ l) (hy : y ∈ l)
    (ho : offset x = offset y) : x = y := by
  have hdistinct : (l.map offset).Nodup := by
    rw [List.Nodup, List.pairwise_map]
    exact h.imp Int.ne_of_lt
  exact List.inj_on_of_nodup_map hdistinct hx hy ho

/-- The instructions of a code unit in ascending order are known by their offsets. -/
theorem Instruction.Ascending.eq_of_offset_eq {code : List Instruction} (h : Ascending code)
    {i j : Instruction} (hi : i ∈ code) (hj : j ∈ code) (ho : i.offset = j.offset) : i = j :=
  eq_of_offset_eq_of_pairwise h hi hj ho

/-- A code unit in ascending order from the entry has no negative offset. -/
theorem Instruction.Ascending.nonneg {first : Instruction} {rest : List Instruction}
    (h : Ascending (first :: rest)) (hentry : first.offset = Offset.entry) :
    ∀ i ∈ first :: rest, 0 ≤ i.offset := by
  intro i hi
  have hfirst : first.offset = 0 := hentry
  rcases List.mem_cons.1 hi with rfl | hi
  · omega
  · have := (List.pairwise_cons.1 h).1 i hi
    omega

/-- What a program decides about a result shows that there is one. -/
theorem exists_ok_of_any {ε α : Type} {x : Except ε α} (p : α → Bool)
    (h : x.toOption.any p = true) : ∃ a, x = .ok a ∧ p a = true := by
  cases x with
  | error e => simp [Except.toOption] at h
  | ok a => exact ⟨a, rfl, by simpa [Except.toOption] using h⟩

theorem Construction.finish_ok {c : Construction} {g : Graph} (h : c.finish = .ok g) :
    g.nodes = c.nodes.push .exit ∧ g.index = c.index.insert Offset.exit c.nodes.size ∧
      g.recorded = c.recorded ∧ g.arena = c.arena ∧
        ∀ n ∈ g.nodes, ∀ b ∈ n.successors, g.index.contains b = true := by
  unfold finish at h
  simp only at h
  split at h
  · cases h
  · rename_i hnone
    cases h
    refine ⟨rfl, rfl, rfl, rfl, ?_⟩
    intro n hn b hb
    have hn := List.findSome?_eq_none_iff.1 hnone n (by simpa using hn)
    have hb := List.find?_eq_none.1 (Option.map_eq_none_iff.1 hn) b hb
    simpa using hb

/-- A code unit that is processed without failure starts at the entry, and its run goes well. -/
theorem Construction.run_of_process {code : List Instruction} {c : Construction}
    (h : start.process code = (c, none)) :
    (∃ first rest, code = first :: rest ∧ first.offset = Offset.entry) ∧
      start.run (Instruction.withNext code) = (c, none) := by
  unfold process at h
  cases code with
  | nil => cases h
  | cons first rest =>
    simp only at h
    split at h
    · rename_i hentry
      exact ⟨⟨first, rest, rfl, hentry⟩, h⟩
    · cases h

namespace Graph

/-- What is known about the graph of a code unit in ascending order. -/
structure Built (code : List Instruction) (g : Graph) : Prop where
  nonneg (i : Instruction) : i ∈ code → 0 ≤ i.offset
  ordered : ∃ ns, g.nodes.toList = ns ++ [.exit] ∧ (∀ n ∈ ns, 0 ≤ n.offset) ∧
    ns.Pairwise fun m n => m.offset < n.offset
  visit (n : Node) : n ∈ g.nodes → n.isExit = false →
    ∃ i next, (i, next) ∈ Instruction.withNext code ∧
      n.Visit g.nodes.toList g.arena i next
  closed (n : Node) : n ∈ g.nodes → ∀ b ∈ n.successors, ∃ m ∈ g.nodes, m.offset = b

theorem run_of_build {code : List Instruction} {g : Graph} (h : Graph.build code = .ok g) :
    (∃ first rest, code = first :: rest ∧ first.offset = Offset.entry) ∧
      ∃ c, start.run (Instruction.withNext code) = (c, none) ∧ c.finish = .ok g := by
  unfold build at h
  split at h
  · rename_i c hc
    obtain ⟨hfirst, hrun⟩ := run_of_process hc
    exact ⟨hfirst, c, hrun, h⟩
  · cases h

theorem Built.of_build {code : List Instruction} {g : Graph}
    (hcode : Instruction.Ascending code) (h : Graph.build code = .ok g) : g.Built code := by
  obtain ⟨⟨first, rest, rfl, hentry⟩, c, hrun, hfinish⟩ := run_of_build h
  have hpass := pass_run hcode hrun
  obtain ⟨hnodes, hindex, _, harena, hclosed⟩ := finish_ok hfinish
  have hlist : g.nodes.toList = c.nodes.toList ++ [.exit] := by rw [hnodes, Array.toList_push]
  have hnonneg := hcode.nonneg hentry
  refine ⟨hnonneg, ⟨c.nodes.toList, hlist, ?_, hpass.ascending⟩, ?_, ?_⟩
  · intro n hn
    obtain ⟨i, next, hi, hv⟩ := hpass.visits n hn
    rw [hv.offset]
    exact hnonneg i (Instruction.mem_of_mem_withNext hi)
  · intro n hn hexit
    rw [← Array.mem_toList_iff, hlist, List.mem_append] at hn
    rcases hn with hn | hn
    · obtain ⟨i, next, hi, hv⟩ := hpass.visits n hn
      refine ⟨i, next, hi, ?_⟩
      rw [hlist, harena]
      apply hv.append (.inr rfl) (.refl _)
      intro m hm
      exact hpass.coherent.within m (by simpa using hm)
    · cases List.mem_singleton.1 hn
      cases hexit
  · intro n hn b hb
    -- what the finished index has is the position of a node
    have hmem := hclosed n hn b hb
    rw [Std.TreeMap.contains_eq_isSome_getElem?, Option.isSome_iff_exists] at hmem
    obtain ⟨k, hk⟩ := hmem
    rw [hindex] at hk
    obtain ⟨⟨m, hm, hmo⟩, _⟩ := (lastAt_push_iff hpass.coherent.index .exit b k).1 hk
    rw [← hnodes] at hm
    exact ⟨m, Array.mem_of_getElem? hm, hmo⟩

variable {code : List Instruction} {g : Graph}

/-- The predecessors of an offset are read off the successors of the nodes. -/
theorem predecessors_of_build (hcode : Instruction.Ascending code)
    (h : Graph.build code = .ok g) (b : Int) :
    g.predecessors b = (g.nodes.toList.filter (·.successors.contains b)).map (·.offset) := by
  obtain ⟨_, c, hrun, hfinish⟩ := run_of_build h
  obtain ⟨hnodes, _, hrecorded, _⟩ := finish_ok hfinish
  -- the exit has no successors
  rw [hnodes, Array.toList_push, List.filter_append, List.filter_cons_of_neg (by simp [Node.exit]),
    List.filter_nil, List.append_nil, ← (pass_run hcode hrun).coherent.predecessors b,
    predecessors, hrecorded, Construction.predecessors]

/-- Every node but the exit is at an offset of the code unit. -/
theorem Built.offset_nonneg (h : g.Built code) {n : Node} (hn : n ∈ g.nodes)
    (hexit : n.isExit = false) : 0 ≤ n.offset := by
  obtain ⟨i, next, hi, hv⟩ := h.visit n hn hexit
  rw [hv.offset]
  exact h.nonneg i (Instruction.mem_of_mem_withNext hi)

/-- What follows for a node from the nodes before it holds of every node but the exit. -/
theorem Built.induction (h : g.Built code) {P : Node → Prop}
    (step : ∀ n ∈ g.nodes, n.isExit = false →
      (∀ m ∈ g.nodes, m.isExit = false → m.offset < n.offset → P m) → P n)
    {n : Node} (hn : n ∈ g.nodes) (hexit : n.isExit = false) : P n := by
  induction hk : n.offset.toNat using Nat.strongRecOn generalizing n with
  | _ k ih =>
    refine step n hn hexit ?_
    intro m hm hmexit hlt
    have hmo := h.offset_nonneg hm hmexit
    exact ih m.offset.toNat (by omega) hm hmexit rfl

/-- The exit is the only node at its offset. -/
theorem Built.eq_exit (h : g.Built code) {n : Node} (hn : n ∈ g.nodes)
    (hexit : n.isExit = true) : n = .exit := by
  obtain ⟨ns, hlist, hnonneg, _⟩ := h.ordered
  rw [← Array.mem_toList_iff, hlist, List.mem_append, List.mem_singleton] at hn
  rcases hn with hn | hn
  · have ho := hnonneg n hn
    simp only [Node.isExit, Offset.isExit, beq_iff_eq, Offset.exit] at hexit
    omega
  · exact hn

theorem Built.isExit_of_ne_exit (h : g.Built code) {n : Node} (hn : n ∈ g.nodes)
    (hne : n ≠ .exit) : n.isExit = false := by
  cases hexit : n.isExit with
  | false => rfl
  | true => exact (hne (h.eq_exit hn hexit)).elim

/-- A node with a successor is not the exit. -/
theorem Built.isExit_of_mem_successors (h : g.Built code) {n : Node} (hn : n ∈ g.nodes) {b : Int}
    (hb : b ∈ n.successors) : n.isExit = false := by
  refine h.isExit_of_ne_exit hn ?_
  rintro rfl
  cases hb

/-- A node that opens a scope is not the exit. -/
theorem Built.isExit_of_setsUp (h : g.Built code) {n : Node} (hn : n ∈ g.nodes) {target : Int}
    (hs : n.setsUp target = true) : n.isExit = false := by
  refine h.isExit_of_ne_exit hn ?_
  rintro rfl
  cases hs

/-- Nothing is before the entry. -/
theorem Built.not_lt_entry (h : g.Built code) {m n : Node} (hm : m ∈ g.nodes)
    (hexit : m.isExit = false) (ho : n.offset = Offset.entry) : ¬ m.offset < n.offset := by
  have hpos := h.offset_nonneg hm hexit
  rw [ho, Offset.entry]
  exact Int.not_lt.2 hpos

theorem Built.entering_entry (h : g.Built code) {n : Node} (ho : n.offset = Offset.entry) :
    n.entering g.nodes.toList = [] := by
  refine List.filter_eq_nil_iff.2 ?_
  intro m hm hforward
  obtain ⟨hlt, hmem⟩ := of_decide_eq_true hforward
  have hm : m ∈ g.nodes := by simpa using hm
  exact h.not_lt_entry hm (h.isExit_of_mem_successors hm hmem) ho hlt

/-- Nothing is active at the entry. -/
theorem Built.stack_entry (h : g.Built code) {n : Node} (hn : n ∈ g.nodes)
    (ho : n.offset = Offset.entry) : n.stack = .empty := by
  have hexit : n.isExit = false := Node.isExit_of_nonneg (by simp [ho, Offset.entry])
  obtain ⟨i, next, _, hv⟩ := h.visit n hn hexit
  -- a node that declares a handler is before it
  have hdeclarer : n.declarer? g.nodes.toList = none := by
    refine List.find?_eq_none.2 ?_
    intro m hm hsets
    simp only [Bool.and_eq_true, decide_eq_true_eq] at hsets
    have hm : m ∈ g.nodes := by simpa using hm
    exact h.not_lt_entry hm (h.isExit_of_setsUp hm hsets.2) ho hsets.1
  rw [hv.unvisited (h.entering_entry ho), hdeclarer]
  rfl

/-- Nothing is pending at the entry. -/
theorem Built.facts_entry (h : g.Built code) {n : Node} (hn : n ∈ g.nodes)
    (ho : n.offset = Offset.entry) : n.facts = {} := by
  have hexit : n.isExit = false := Node.isExit_of_nonneg (by simp [ho, Offset.entry])
  obtain ⟨i, next, _, hv⟩ := h.visit n hn hexit
  rw [hv.facts, h.entering_entry ho]
  rfl

/-- A node that comes later in the list of nodes is further on, or it is the exit. -/
theorem Built.pairwise_offset (h : g.Built code) :
    g.nodes.toList.Pairwise fun m n => n.isExit = false → m.offset < n.offset := by
  obtain ⟨ns, hlist, _, hasc⟩ := h.ordered
  rw [hlist, List.pairwise_append]
  refine ⟨hasc.imp ?_, List.pairwise_singleton _ _, ?_⟩
  · intro m n hlt _
    exact hlt
  · intro m _ n hn hexit
    cases List.mem_singleton.1 hn
    cases hexit

/-- The nodes with an edge to an offset are in ascending order. -/
theorem Built.pairwise_filter_successors (h : g.Built code) (b : Int) :
    ((g.nodes.toList.filter (·.successors.contains b)).map (·.offset)).Pairwise (· < ·) := by
  rw [List.pairwise_map, List.pairwise_filter]
  refine h.pairwise_offset.imp_of_mem ?_
  intro m n _ hn hlt _ hb
  refine hlt (h.isExit_of_mem_successors (by simpa using hn) (b := b) ?_)
  simpa using hb

/-- No two nodes are at one offset. -/
theorem Built.nodup_offsets (h : g.Built code) : (g.nodes.toList.map (·.offset)).Nodup := by
  obtain ⟨ns, hlist, hnonneg, hasc⟩ := h.ordered
  rw [hlist, List.Nodup, List.pairwise_map, List.pairwise_append]
  refine ⟨hasc.imp Int.ne_of_lt, List.pairwise_singleton _ _, ?_⟩
  intro m hm x hx
  have hpos := hnonneg m hm
  cases List.mem_singleton.1 hx
  simp only [Node.exit, Offset.exit]
  omega

theorem Built.eq_of_offset_eq (h : g.Built code) {m n : Node} (hm : m ∈ g.nodes)
    (hn : n ∈ g.nodes) (ho : m.offset = n.offset) : m = n := by
  rw [← Array.mem_toList_iff] at hm hn
  exact List.inj_on_of_nodup_map h.nodup_offsets hm hn ho

/-- The node at the offset of an instruction is the node of that instruction. -/
theorem Built.instruction_of_offset_eq (h : g.Built code) (hcode : Instruction.Ascending code)
    {n : Node} (hn : n ∈ g.nodes) {i : Instruction} (hi : i ∈ code) (ho : n.offset = i.offset) :
    n.instruction = some i := by
  have hexit : n.isExit = false := Node.isExit_of_nonneg (ho ▸ h.nonneg i hi)
  obtain ⟨j, next, hj, hv⟩ := h.visit n hn hexit
  rw [hv.instruction]
  congr 1
  apply hcode.eq_of_offset_eq (Instruction.mem_of_mem_withNext hj) hi
  rw [← hv.offset, ho]

theorem Built.offset_of_instruction_eq (h : g.Built code) {n : Node} (hn : n ∈ g.nodes)
    {i : Instruction} (hi : n.instruction = some i) : n.offset = i.offset := by
  have hexit : n.isExit = false := by
    refine h.isExit_of_ne_exit hn ?_
    rintro rfl
    cases hi
  obtain ⟨j, next, _, hv⟩ := h.visit n hn hexit
  cases hv.instruction.symm.trans hi
  exact hv.offset

/-- No edge of a node is there twice. -/
theorem Built.nodup_successors (h : g.Built code) {n : Node} (hn : n ∈ g.nodes) :
    n.successors.Nodup := by
  cases hexit : n.isExit with
  | true =>
    rw [h.eq_exit hn hexit]
    exact List.nodup_nil
  | false =>
    obtain ⟨i, next, _, hv⟩ := h.visit n hn hexit
    obtain ⟨a, r, hnode, hr, _⟩ := hv.outcome
    rw [hnode]
    exact hr.nodup_successors

/-- A graph that was built can be asked for what a program decides about it. -/
theorem exists_build (code : List Instruction) (p : Graph → Bool)
    (h : (Graph.build code).toOption.any p = true) :
    ∃ g, Graph.build code = .ok g ∧ p g = true :=
  exists_ok_of_any p h

/-- How a construction fails can be decided. -/
theorem build_eq_error {e : BuildError}
    (h : (match Graph.build code with | .ok _ => none | .error e => some e) = some e) :
    Graph.build code = .error e := by
  cases hg : Graph.build code with
  | ok g => simp [hg] at h
  | error e' => simpa [hg] using h

end Graph

/-- A loop from 0 to 20 that is continued at 4, from within a `finally` block with its handler at
8. -/
def Instruction.continueInFinally : List Instruction :=
  [⟨.setupLoop, 0, some 20, some 20, false⟩, ⟨.setupFinally, 2, some 8, some 8, true⟩,
    ⟨.continueLoop, 4, some 2, some 2, false⟩, ⟨.popBlock, 6, none, none, false⟩,
    ⟨.endFinally, 8, none, none, true⟩, ⟨.jumpAbsolute, 10, some 2, some 2, false⟩,
    ⟨.loadConst, 20, some 0, none, true⟩, ⟨.returnValue, 22, none, none, false⟩]

theorem Instruction.ascending_continueInFinally : Ascending continueInFinally := by
  unfold Ascending
  decide

end BytecodeFlow
