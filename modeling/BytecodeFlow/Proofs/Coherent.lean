import BytecodeFlow.Proofs.Step

/-!
# What the parts of a construction say about each other

A construction keeps the same information in several places. `Construction.Coherent` ties them to
the list of nodes: the recorded predecessors are read off the successors of the nodes, the index
names the last node at an offset, every stack lies in the arena, and there is one scope for each
node that opens one. It holds at the start and after every step, also after one that fails
(`Coherent.step`).
-/

namespace BytecodeFlow

open BlockStack

/-- The instruction opens a scope. -/
def Instruction.isSetup (i : Instruction) : Bool :=
  match i.opcode.flow with
  | .setup _ => true
  | _ => false

/-- The instruction opens a scope that ends at an offset. -/
def Instruction.declares (i : Instruction) (offset : Int) : Bool :=
  i.isSetup && i.jumpTarget == some offset

def Node.isSetup (n : Node) : Bool := n.instruction.any Instruction.isSetup

/-- The last node at an offset is at a position. -/
def LastAt (nodes : Array Node) (offset : Int) (k : Nat) : Prop :=
  (∃ n, nodes[k]? = some n ∧ n.offset = offset) ∧
    ∀ j n, k < j → nodes[j]? = some n → n.offset ≠ offset

theorem lastAt_push_of_eq {nodes : Array Node} {n : Node} {offset : Int} {k : Nat}
    (ho : n.offset = offset) : LastAt (nodes.push n) offset k ↔ k = nodes.size := by
  constructor
  · intro hlast
    obtain ⟨⟨m, hm, _⟩, hlast⟩ := hlast
    have hk : k < (nodes.push n).size := (Array.getElem?_eq_some_iff.1 hm).1
    rw [Array.size_push] at hk
    by_cases hlt : k < nodes.size
    · exact absurd ho (hlast nodes.size n hlt (by simp))
    · omega
  · rintro rfl
    refine ⟨⟨n, by simp, ho⟩, ?_⟩
    intro j m hj hm
    have hjs : j < (nodes.push n).size := (Array.getElem?_eq_some_iff.1 hm).1
    rw [Array.size_push] at hjs
    omega

theorem lastAt_push_of_ne {nodes : Array Node} {n : Node} {offset : Int} {k : Nat}
    (ho : n.offset ≠ offset) : LastAt (nodes.push n) offset k ↔ LastAt nodes offset k := by
  have hget {j : Nat} {m : Node} (hm : m.offset = offset) :
      (nodes.push n)[j]? = some m ↔ nodes[j]? = some m := by
    rw [Array.getElem?_push]
    split
    · rename_i hj
      simp only [hj, Option.some.injEq, Array.getElem?_size, reduceCtorEq, iff_false]
      rintro rfl
      exact ho hm
    · rfl
  constructor
  · intro hlast
    obtain ⟨⟨m, hm, hmo⟩, hlast⟩ := hlast
    refine ⟨⟨m, (hget hmo).1 hm, hmo⟩, ?_⟩
    intro j m' hj hm' hmo'
    exact hlast j m' hj ((hget hmo').2 hm') hmo'
  · intro hlast
    obtain ⟨⟨m, hm, hmo⟩, hlast⟩ := hlast
    refine ⟨⟨m, (hget hmo).2 hm, hmo⟩, ?_⟩
    intro j m' hj hm' hmo'
    exact hlast j m' hj ((hget hmo').1 hm') hmo'

/-- Adding a node makes it the last one at its offset and changes nothing elsewhere. -/
theorem lastAt_push_iff {nodes : Array Node} {index : Std.TreeMap Int Nat}
    (h : ∀ offset k, index[offset]? = some k ↔ LastAt nodes offset k) (n : Node)
    (offset : Int) (k : Nat) :
    (index.insert n.offset nodes.size)[offset]? = some k ↔ LastAt (nodes.push n) offset k := by
  rw [Std.TreeMap.getElem?_insert]
  by_cases ho : n.offset = offset
  · rw [lastAt_push_of_eq ho, if_pos (Std.LawfulEqCmp.compare_eq_iff_eq.2 ho),
      Option.some.injEq, eq_comm]
  · rw [lastAt_push_of_ne ho, if_neg (fun he => ho (Std.LawfulEqCmp.compare_eq_iff_eq.1 he)),
      h]

namespace Construction

/-- The nodes, the index, the recorded predecessors and the arena agree. -/
structure Coherent (c : Construction) : Prop where
  predecessors (offset : Int) :
    c.predecessors offset =
      (c.nodes.toList.filter (·.successors.contains offset)).map (·.offset)
  index (offset : Int) (k : Nat) :
    c.index[offset]? = some k ↔ LastAt c.nodes offset k
  within (n : Node) : n ∈ c.nodes → n.stack.Within c.arena ∧ n.outStack.Within c.arena
  handlers (offset : Int) (s : BlockStack) :
    c.handlerEntries[offset]? = some s → s.Within c.arena
  size : c.arena.size = c.nodes.toList.countP Node.isSetup

theorem coherent_start : start.Coherent where
  predecessors offset := by rw [predecessors_start, start]; rfl
  index offset k := by simp [start, LastAt]
  within n hn := by simp [start] at hn
  handlers offset s hs := by simp [start] at hs
  size := by simp [start]

variable {c : Construction} {i : Instruction} {s : BlockStack}

/-- What is found at an offset is a node at that offset. -/
theorem Coherent.mem_of_node? (h : c.Coherent) {offset : Int} {n : Node}
    (hn : c.node? offset = some n) : n ∈ c.nodes ∧ n.offset = offset := by
  obtain ⟨k, hk, hget⟩ := Option.bind_eq_some_iff.1 hn
  obtain ⟨⟨m, hm, ho⟩, _⟩ := (h.index offset k).1 hk
  cases hm.symm.trans hget
  exact ⟨Array.mem_of_getElem? hget, ho⟩

theorem Coherent.mem_of_mem_incoming (h : c.Coherent) {offset : Int} {n : Node}
    (hn : n ∈ c.incoming offset) : n ∈ c.nodes := by
  obtain ⟨m, _, hm⟩ := List.mem_filterMap.1 hn
  exact (h.mem_of_node? hm).1

/-- A fact that a visit starts with holds after some node. -/
theorem Coherent.exists_node_of_holds_joinFacts (h : c.Coherent) {offset : Int} {fact : Fact}
    (hfact : (c.joinFacts offset).Holds fact) : ∃ n ∈ c.nodes, n.outFacts.Holds fact := by
  obtain ⟨f, hf, hholds⟩ := PathFacts.holds_join.1 hfact
  obtain ⟨n, hn, rfl⟩ := List.mem_map.1 hf
  exact ⟨n, h.mem_of_mem_incoming hn, hholds⟩

/-- Without a visited predecessor the stack comes from the handler entries; otherwise every
predecessor hands over the same stack. -/
theorem joinStacks_ok (h : c.joinStacks i = .ok s) :
    (c.incoming i.offset = [] ∧ s = c.unvisitedStack i.offset) ∨
      (c.incoming i.offset ≠ [] ∧ ∀ n ∈ c.incoming i.offset, s = c.handedOver n i.offset) := by
  unfold joinStacks at h
  split at h
  · rename_i hin
    cases h
    exact .inl ⟨hin, rfl⟩
  · rename_i first rest hin
    simp only at h
    split at h
    · rename_i hnone
      cases h
      refine .inr ⟨by simp [hin], ?_⟩
      intro n hn
      rw [hin, List.mem_cons] at hn
      rcases hn with rfl | hn
      · rfl
      · -- no later predecessor was found to differ from the first
        have hsame := List.find?_eq_none.1 hnone n hn
        simp only [bne_iff_ne, ne_eq, Decidable.not_not] at hsame
        exact hsame.symm
    · cases h

theorem Coherent.within_unvisitedStack (h : c.Coherent) (offset : Int) :
    (c.unvisitedStack offset).Within c.arena := by
  unfold unvisitedStack
  split
  · rename_i s hs
    exact (h.handlers offset s hs).popUntil offset
  · exact within_empty c.arena

theorem Coherent.within_joinStacks (h : c.Coherent) (hs : c.joinStacks i = .ok s) :
    s.Within c.arena := by
  rcases joinStacks_ok hs with ⟨_, rfl⟩ | ⟨hne, hall⟩
  · exact h.within_unvisitedStack i.offset
  · obtain ⟨n, hn⟩ := List.exists_mem_of_ne_nil _ hne
    rw [hall n hn]
    exact (h.within n (h.mem_of_mem_incoming hn)).2.popUntil i.offset

theorem Coherent.skip (h : c.Coherent) (i : Instruction) : (c.skip i).Coherent where
  predecessors offset := by simpa using h.predecessors offset
  index offset k := by simpa using h.index offset k
  within n hn := by simpa using h.within n (by simpa using hn)
  handlers offset s hs := by simpa using h.handlers offset s (by simpa using hs)
  size := by simpa using h.size

/-- An instruction that opens a scope leaves its stack at the handler, if it is the first. -/
theorem handlerEntries_declareHandler (c : Construction) (i : Instruction) (s : BlockStack)
    (offset : Int) :
    (c.declareHandler i s).handlerEntries[offset]? =
      c.handlerEntries[offset]?.or (if i.declares offset then some s else none) := by
  unfold declareHandler
  split
  · rename_i kind handler hflow htarget
    have hdeclares : i.declares offset = true ↔ handler = offset := by
      simp [Instruction.declares, Instruction.isSetup, hflow, htarget]
    rw [Std.TreeMap.getElem?_insertIfNew]
    simp only [Std.LawfulEqCmp.compare_eq_iff_eq, hdeclares]
    by_cases ho : handler = offset
    · -- an entry that is there is kept
      subst ho
      cases hc : c.handlerEntries[handler]? with
      | none => simp [Std.TreeMap.mem_iff_isSome_getElem?, hc]
      | some t => simp [Std.TreeMap.mem_iff_isSome_getElem?, hc]
    · simp [ho]
  · rename_i hno
    have hdeclares : i.declares offset = false := by
      simp only [Instruction.declares, Instruction.isSetup]
      split
      · rename_i kind hflow
        cases ht : i.jumpTarget with
        | none => rfl
        | some handler => exact (hno kind handler hflow ht).elim
      · rfl
    simp [hdeclares]

theorem Coherent.declareHandler (h : c.Coherent) (hs : s.Within c.arena) (i : Instruction) :
    (c.declareHandler i s).Coherent where
  predecessors offset := by simpa using h.predecessors offset
  index offset k := by simpa using h.index offset k
  within n hn := by simpa using h.within n (by simpa using hn)
  handlers offset t ht := by
    rw [arena_declareHandler]
    rw [handlerEntries_declareHandler, Option.or_eq_some_iff] at ht
    rcases ht with ht | ⟨_, ht⟩
    · exact h.handlers offset t ht
    · split at ht
      · cases ht
        exact hs
      · cases ht
  size := by simpa using h.size

/-- A node opens a scope in the arena exactly when it is one that sets a scope up. -/
theorem size_of_outcome {a : Arena} {next : Option Int} {f : PathFacts} {r : Resolution}
    (h : i.Outcome a next s f r) :
    r.arena.size = a.size + if (nodeOf i s f r).isSetup then 1 else 0 := by
  cases h with
  | setup flow => simp [Node.isSetup, Instruction.isSetup, nodeOf, push, flow]
  | sequential flow | jump flow | branch flow | breakThrough flow | breakOut flow
  | continueThrough flow | continueOut flow | popBlock flow | popExcept flow | returnValue flow
  | raise flow | endFinally flow => simp [Node.isSetup, Instruction.isSetup, nodeOf, flow]

/-- Adding the node of an instruction keeps the state coherent. -/
theorem Coherent.record (h : c.Coherent) (hs : s.Within c.arena) {next : Option Int}
    {f : PathFacts} {r : Resolution} (hr : i.Outcome c.arena next s f r) :
    (c.record i s f r).Coherent where
  predecessors offset := by
    rw [predecessors_record, h.predecessors, nodes_record, Array.toList_push,
      List.filter_append, List.map_append]
    congr 1
    -- the successors are distinct, so the edge is recorded once or not at all
    rw [hr.nodup_successors.count]
    by_cases hb : offset ∈ r.successors
    · simp [hb]
    · simp [hb]
  index offset k := by
    rw [index_record, nodes_record]
    exact lastAt_push_iff h.index (nodeOf i s f r) offset k
  within n hn := by
    rw [arena_record]
    rw [nodes_record, Array.mem_push] at hn
    rcases hn with hn | rfl
    · obtain ⟨hin, hout⟩ := h.within n hn
      exact ⟨hin.mono hr.growsTo, hout.mono hr.growsTo⟩
    · exact ⟨hs.mono hr.growsTo, hr.within_stack hs⟩
  handlers offset t ht := by
    rw [handlerEntries_record] at ht
    exact (h.handlers offset t ht).mono hr.growsTo
  size := by
    rw [arena_record, nodes_record, size_of_outcome hr, h.size, Array.toList_push,
      List.countP_append, List.countP_singleton]
    rfl

/-- Every step keeps the state coherent, also one that fails. -/
theorem Coherent.step (h : c.Coherent) {next : Option Int} {c' : Construction}
    {e : Option BuildError} (hstep : Step c i next (c', e)) : c'.Coherent := by
  cases hstep with
  | skipped dead => exact h.skip i
  | disagreed live joined => exact h
  | unresolved live joined resolved => exact h.declareHandler (h.within_joinStacks joined) i
  | visited live joined resolved =>
    have hs := h.within_joinStacks joined
    have hd := h.declareHandler hs i
    have hr := Instruction.outcome_of_resolve resolved
    rw [← arena_declareHandler c i] at hs hr
    exact hd.record hs hr

/-- The state is coherent after any number of code units. -/
theorem coherent_processAll (batches : List (List Instruction)) :
    (start.processAll batches).1.Coherent := by
  refine processAll_keeps ?_ coherent_start batches
  intro c i next c' e h hstep
  exact h.step hstep

end Construction

end BytecodeFlow
