import BytecodeFlow.Proofs.Finished

/-!
# The tables of a graph

A construction finds nodes by offset through an index, and keeps every edge a second time at the
offset it goes to. Both tables are read off the list of nodes, whatever code units the
construction was given and whether or not these failed. In the graph of a code unit in ascending
order the nodes follow the code unit (`Graph.Follows`), so that every lookup has the answer that
the nodes give (`Graph.tables_read_off_nodes`).
-/

namespace BytecodeFlow

open Construction

/-- A member of a list without duplicates has one position. -/
theorem idxOf?_eq_some_iff_of_nodup {α : Type} [BEq α] [LawfulBEq α] {l : List α} (h : l.Nodup)
    {a : α} {k : Nat} : l.idxOf? a = some k ↔ l[k]? = some a := by
  rw [List.idxOf?_eq_some_iff]
  constructor
  · rintro ⟨hk, ha, _⟩
    exact List.getElem?_eq_some_iff.2 ⟨hk, ha⟩
  · intro hget
    obtain ⟨hk, ha⟩ := List.getElem?_eq_some_iff.1 hget
    refine ⟨hk, ha, ?_⟩
    intro j hj hja
    exact Nat.ne_of_lt hj (h.getElem_inj_iff.1 (hja.trans ha.symm))

namespace Construction

variable {c : Construction}

/-- The index has an entry for the offsets of the nodes. -/
theorem Coherent.exists_index_iff (h : c.Coherent) {offset : Int} :
    (∃ k, c.index[offset]? = some k) ↔ Visited c.nodes offset := by
  simp only [h.index, exists_lastAt_iff]

/-- The nodes of a run that went well are made of instructions that it was given, in their
order. -/
theorem exists_sublist_of_run {steps : List (Instruction × Option Int)}
    (h : start.run steps = (c, none)) :
    ∃ visited : List Instruction, visited.Sublist (steps.map (·.1)) ∧
      c.nodes.toList.map (·.instruction) = visited.map some ∧
      c.nodes.toList.map (·.offset) = visited.map (·.offset) := by
  refine run_induction (P := fun done d => ∃ visited : List Instruction,
    visited.Sublist (done.map (·.1)) ∧ d.nodes.toList.map (·.instruction) = visited.map some ∧
      d.nodes.toList.map (·.offset) = visited.map (·.offset)) ?_ ?_ h
  · exact ⟨[], List.Sublist.refl _, rfl, rfl⟩
  · rintro done i next rest d d' - ⟨visited, hsub, hinstructions, hoffsets⟩ hstep
    rw [List.map_append, List.map_cons, List.map_nil]
    cases hstep with
    | skipped dead =>
      refine ⟨visited, hsub.trans (List.sublist_append_left _ _), ?_, ?_⟩
      · rw [nodes_skip, hinstructions]
      · rw [nodes_skip, hoffsets]
    | visited live joined resolved =>
      refine ⟨visited ++ [i], hsub.append_right [i], ?_, ?_⟩
      · simp [nodes_visited, hinstructions, nodeOf]
      · simp [nodes_visited, hoffsets, nodeOf]

end Construction

namespace Graph

/-- The nodes of a graph are instructions of a code unit in their order, from the entry on, and
the exit after them. -/
structure Follows (code : List Instruction) (g : Graph) (visited : List Instruction)
    (ns : List Node) : Prop where
  nodes : g.nodes.toList = ns ++ [.exit]
  sublist : visited.Sublist code
  instructions : ns.map (·.instruction) = visited.map some
  offsets : ns.map (·.offset) = visited.map (·.offset)
  ascending : ns.Pairwise fun m n => m.offset < n.offset
  entry : ∃ n, ns.head? = some n ∧ n.offset = Offset.entry ∧ n.stack = .empty ∧ n.facts = {}

variable {code : List Instruction} {g : Graph} {n : Node} {a b : Int}

/-- In a list of nodes in ascending order the entry comes first. -/
theorem head?_eq_of_entry {ns : List Node} (hnonneg : ∀ m ∈ ns, 0 ≤ m.offset)
    (hasc : ns.Pairwise fun m n => m.offset < n.offset) (hn : n ∈ ns)
    (ho : n.offset = Offset.entry) : ns.head? = some n := by
  cases ns with
  | nil => cases hn
  | cons m rest =>
    rcases List.mem_cons.1 hn with rfl | hn
    · rfl
    · have hlt := (List.pairwise_cons.1 hasc).1 n hn
      have hpos := hnonneg m (by simp)
      rw [ho, Offset.entry] at hlt
      omega

/-- The nodes follow the code unit. -/
theorem exists_follows (hcode : Instruction.Ascending code) (h : Graph.build code = .ok g) :
    ∃ visited ns, g.Follows code visited ns := by
  have hg := Built.of_build hcode h
  obtain ⟨⟨first, rest, rfl, hentry⟩, c, hrun, hfinish⟩ := run_of_build h
  obtain ⟨hnodes, _⟩ := finish_ok hfinish
  obtain ⟨ns, hlist, hnonneg, hasc⟩ := hg.ordered
  have hns : c.nodes.toList = ns := by
    rw [hnodes, Array.toList_push] at hlist
    exact List.append_cancel_right hlist
  obtain ⟨visited, hsub, hinstructions, hoffsets⟩ := exists_sublist_of_run hrun
  rw [Instruction.map_fst_withNext] at hsub
  rw [hns] at hinstructions hoffsets
  refine ⟨visited, ns, hlist, hsub, hinstructions, hoffsets, hasc, ?_⟩
  -- the first instruction is the entry, which is always live
  obtain ⟨n, hn, ho⟩ := (visited_iff_live hcode h (i := first) (by simp)).2 (.inl hentry)
  rw [hentry] at ho
  have hbefore : n ∈ ns := by
    rw [← Array.mem_toList_iff, hlist, List.mem_append, List.mem_singleton] at hn
    refine hn.resolve_right ?_
    rintro rfl
    cases ho
  exact ⟨n, head?_eq_of_entry hnonneg hasc hbefore ho, ho, hg.stack_entry hn ho,
    hg.facts_entry hn ho⟩

/-! ## Lookups -/

/-- Looking up an offset gives the node there. -/
theorem get?_eq_some_iff (hcode : Instruction.Ascending code) (h : Graph.build code = .ok g)
    {offset : Int} : g.get? offset = some n ↔ n ∈ g.nodes ∧ n.offset = offset := by
  have hg := finished_of_build h
  refine ⟨hg.mem_of_get?, ?_⟩
  rintro ⟨hn, rfl⟩
  obtain ⟨m, hm⟩ := hg.exists_get?_iff.2 (hg.contains_iff.2 ⟨n, hn, rfl⟩)
  obtain ⟨hmem, ho⟩ := hg.mem_of_get? hm
  -- nodes are known by their offsets
  cases (Built.of_build hcode h).eq_of_offset_eq hmem hn ho
  exact hm

theorem successors_eq_ok_iff (hcode : Instruction.Ascending code) (h : Graph.build code = .ok g)
    {bs : List Int} :
    g.successors a = .ok bs ↔ ∃ n ∈ g.nodes, n.offset = a ∧ n.successors = bs := by
  have hnode : g.successors a = .ok bs ↔ ∃ n, g.get? a = some n ∧ n.successors = bs := by
    cases hget : g.get? a with
    | none => simp [successors, node, hget, Except.map]
    | some n => simp [successors, node, hget, Except.map]
  simp only [hnode, get?_eq_some_iff hcode h, and_assoc]

/-- The predecessors of an offset are the nodes that have it as a successor. -/
theorem mem_predecessors_iff (hcode : Instruction.Ascending code) (h : Graph.build code = .ok g) :
    a ∈ g.predecessors b ↔ ∃ bs, g.successors a = .ok bs ∧ b ∈ bs := by
  simp only [predecessors_of_build hcode h, successors_eq_ok_iff hcode h, List.mem_map,
    List.mem_filter, Array.mem_toList_iff, List.contains_iff_mem]
  constructor
  · rintro ⟨n, ⟨hn, hb⟩, ho⟩
    exact ⟨n.successors, ⟨n, hn, ho, rfl⟩, hb⟩
  · rintro ⟨_, ⟨n, hn, ho, rfl⟩, hb⟩
    exact ⟨n, ⟨hn, hb⟩, ho⟩

/-- The number of an edge is the position of its target among the successors of its source. -/
theorem edgeNumber?_eq_some_iff (hcode : Instruction.Ascending code)
    (h : Graph.build code = .ok g) {k : Nat} :
    g.edgeNumber? a b = some k ↔ ∃ bs, g.successors a = .ok bs ∧ bs[k]? = some b := by
  simp only [edgeNumber?, Option.bind_eq_some_iff, get?_eq_some_iff hcode h,
    successors_eq_ok_iff hcode h]
  constructor
  · rintro ⟨n, ⟨hn, ho⟩, hk⟩
    rw [idxOf?_eq_some_iff_of_nodup ((Built.of_build hcode h).nodup_successors hn)] at hk
    exact ⟨n.successors, ⟨n, hn, ho, rfl⟩, hk⟩
  · rintro ⟨_, ⟨n, hn, ho, rfl⟩, hk⟩
    refine ⟨n, ⟨hn, ho⟩, ?_⟩
    rwa [idxOf?_eq_some_iff_of_nodup ((Built.of_build hcode h).nodup_successors hn)]

theorem isSome_edgeNumber?_iff (hcode : Instruction.Ascending code)
    (h : Graph.build code = .ok g) :
    (g.edgeNumber? a b).isSome = true ↔ ∃ bs, g.successors a = .ok bs ∧ b ∈ bs := by
  simp only [Option.isSome_iff_exists, edgeNumber?_eq_some_iff hcode h, List.mem_iff_getElem?]
  exact ⟨fun ⟨k, bs, hbs, hk⟩ => ⟨bs, hbs, k, hk⟩, fun ⟨bs, hbs, k, hk⟩ => ⟨k, bs, hbs, hk⟩⟩

/-- After any number of code units, in any order and whether or not they fail, the predecessors
recorded for an offset are the nodes with an edge to it, in order, and the index has an entry for
the offsets of the nodes, which is the position of the last node there. In the graph of a code
unit in ascending order the nodes follow the code unit, each is found at its offset and no other,
and the predecessors of an offset, the successors of a node and the numbers of its edges tell of
the same edges. -/
theorem tables_read_off_nodes :
    (∀ (batches : List (List Instruction)) (offset : Int),
      let c := (start.processAll batches).1
      c.predecessors offset =
          (c.nodes.toList.filter (·.successors.contains offset)).map (·.offset) ∧
        ((∃ k, c.index[offset]? = some k) ↔ ∃ n ∈ c.nodes, n.offset = offset) ∧
        ∀ k, c.index[offset]? = some k ↔ LastAt c.nodes offset k) ∧
    ∀ (code : List Instruction) (g : Graph), Instruction.Ascending code →
      Graph.build code = .ok g →
      (∃ visited ns, g.Follows code visited ns) ∧
      (∀ offset n, g.get? offset = some n ↔ n ∈ g.nodes ∧ n.offset = offset) ∧
      (∀ b, (g.predecessors b).Pairwise (· < ·)) ∧
      ∀ a b, (a ∈ g.predecessors b ↔ ∃ bs, g.successors a = .ok bs ∧ b ∈ bs) ∧
        ((∃ bs, g.successors a = .ok bs ∧ b ∈ bs) ↔ (g.edgeNumber? a b).isSome = true) ∧
        ∀ k, g.edgeNumber? a b = some k ↔ ∃ bs, g.successors a = .ok bs ∧ bs[k]? = some b := by
  constructor
  · intro batches offset c
    have hc : c.Coherent := coherent_processAll batches
    exact ⟨hc.predecessors offset, hc.exists_index_iff, hc.index offset⟩
  · intro code g hcode h
    refine ⟨exists_follows hcode h, fun _ _ => get?_eq_some_iff hcode h, ?_, ?_⟩
    · intro b
      rw [predecessors_of_build hcode h]
      exact (Built.of_build hcode h).pairwise_filter_successors b
    · intro a b
      exact ⟨mem_predecessors_iff hcode h, (isSome_edgeNumber?_iff hcode h).symm,
        fun _ => edgeNumber?_eq_some_iff hcode h⟩

/-- Given a second time, the code unit fails at 2, since the loop of 0 is another one then: only
the second node at 0 and its edge are added. The edge that restarts the loop is found from both
ends. -/
theorem tables_read_off_nodes_continueInFinally :
    (∃ c e, start.processAll [Instruction.continueInFinally, Instruction.continueInFinally] =
        (c, [none, some e]) ∧ c.predecessors 2 = [0, 8, 10, 0] ∧ LastAt c.nodes 0 7) ∧
    ∃ g, Graph.build Instruction.continueInFinally = .ok g ∧ g.successors 8 = .ok [10, 2] ∧
      8 ∈ g.predecessors 2 ∧ g.edgeNumber? 8 2 = some 1 := by
  constructor
  · have hpredecessors := (tables_read_off_nodes.1
      [Instruction.continueInFinally, Instruction.continueInFinally] 2).1
    have hindex := (tables_read_off_nodes.1
      [Instruction.continueInFinally, Instruction.continueInFinally] 0).2.2 7
    refine ⟨_, .inconsistentStack 2 .setupFinally [⟨.loopBlock, 20, 0, none⟩] 0
      [⟨.loopBlock, 20, 0, none⟩] 8, Prod.ext rfl ?_, hpredecessors.trans ?_, hindex.1 ?_⟩
    all_goals decide +kernel
  · obtain ⟨g, hg, hp⟩ := exists_build Instruction.continueInFinally
      (fun g => ∃ n ∈ g.nodes.toList, n.offset = 8 ∧ n.successors = [10, 2]) (by decide +kernel)
    obtain ⟨n, hn, ho, hsuccessors⟩ := of_decide_eq_true hp
    have hcode := Instruction.ascending_continueInFinally
    obtain ⟨_, _, _, hedges⟩ := tables_read_off_nodes.2 _ g hcode hg
    have hout : g.successors 8 = .ok [10, 2] :=
      (successors_eq_ok_iff hcode hg).2 ⟨n, by simpa using hn, ho, hsuccessors⟩
    refine ⟨g, hg, hout, (hedges 8 2).1.2 ⟨_, hout, by simp⟩, ?_⟩
    exact ((hedges 8 2).2.2 1).2 ⟨_, hout, rfl⟩

end Graph

end BytecodeFlow
