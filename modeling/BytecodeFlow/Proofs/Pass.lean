import BytecodeFlow.Proofs.Coherent
import Mathlib.Data.List.Basic
import Mathlib.Data.List.Find

/-!
# The pass over a code unit in ascending order

In a code unit in ascending order the edges that enter an instruction from before are all known
when it is visited. `Node.Visit` says what the visit found, in terms of the nodes and the arena of
any later state: the join of what those nodes hand over, and the outcome of the instruction on
it. `Construction.Pass` is the invariant of the pass, and every node of a run that went well has
its visit (`pass_run`).
-/

namespace BytecodeFlow

open BlockStack Construction

/-- The instructions of a code unit are at strictly ascending offsets. -/
def Instruction.Ascending (code : List Instruction) : Prop :=
  code.Pairwise fun i j => i.offset < j.offset

namespace Node

/-- Control can go on from one node to another one further on. -/
def Forward (m n : Node) : Prop := m.offset < n.offset ∧ n.offset ∈ m.successors

instance (m n : Node) : Decidable (m.Forward n) :=
  inferInstanceAs (Decidable (m.offset < n.offset ∧ n.offset ∈ m.successors))

/-- The node opens a scope that ends at an offset. -/
def setsUp (m : Node) (target : Int) : Bool := m.instruction.any (·.declares target)

/-- The nodes that control can enter a node from before. -/
def entering (n : Node) (nodes : List Node) : List Node := nodes.filter (·.Forward n)

/-- The first node that opens a scope which ends at a later node. -/
def declarer? (n : Node) (nodes : List Node) : Option Node :=
  nodes.find? fun m => m.offset < n.offset && m.setsUp n.offset

/-- How many scopes the nodes before an offset open. -/
def setupsBefore (nodes : List Node) (offset : Int) : Nat :=
  nodes.countP fun m => m.isSetup && m.offset < offset

/-- What the visit of instruction `i` found that made the node, given all nodes and the arena of
a later state. -/
structure Visit (nodes : List Node) (a : Arena) (i : Instruction) (next : Option Int)
    (n : Node) : Prop where
  facts : n.facts = .join ((n.entering nodes).map (·.outFacts))
  joined (m : Node) : m ∈ n.entering nodes → n.stack = m.outStack.popUntil a n.offset
  unvisited : n.entering nodes = [] →
    n.stack = ((n.declarer? nodes).map (·.stack.popUntil a n.offset)).getD .empty
  /-- The instruction was resolved in the arena of that time. -/
  outcome : ∃ b r, n = nodeOf i n.stack n.facts r ∧ i.Outcome b next n.stack n.facts r ∧
    n.stack.Within b ∧ b.size = setupsBefore nodes n.offset ∧ b.GrowsTo a ∧ r.arena.GrowsTo a

variable {nodes : List Node} {a : Arena} {i : Instruction} {next : Option Int} {n : Node}

theorem Visit.offset (h : n.Visit nodes a i next) : n.offset = i.offset := by
  obtain ⟨b, r, hn, _⟩ := h.outcome
  rw [hn, nodeOf]

theorem Visit.instruction (h : n.Visit nodes a i next) : n.instruction = some i := by
  obtain ⟨b, r, hn, _⟩ := h.outcome
  rw [hn, nodeOf]

/-- Every edge of a node has a reason in the stack and the facts before the node. -/
theorem Visit.reason (h : n.Visit nodes a i next) (ho : 0 ≤ i.offset) {b : Int}
    (hb : b ∈ n.successors) : i.Reason a next n.stack n.facts b := by
  obtain ⟨d, r, hn, hr, hs, _, hd, _⟩ := h.outcome
  have hsuccessors : n.successors = r.successors := by rw [hn, nodeOf]
  rw [hsuccessors] at hb
  exact (hr.reason ho hb).of_toList_eq (toList_of_growsTo hs hd).symm

/-- A node that comes later, or the exit, adds nothing to what a visit found. -/
theorem Visit.append (h : n.Visit nodes a i next) {new : Node} {a' : Arena}
    (hnew : n.offset ≤ new.offset ∨ new = .exit) (hgrow : a.GrowsTo a')
    (hin : ∀ m ∈ nodes, m.stack.Within a ∧ m.outStack.Within a) :
    n.Visit (nodes ++ [new]) a' i next := by
  have hentering : n.entering (nodes ++ [new]) = n.entering nodes := by
    have hno : ¬ new.Forward n := by
      intro hforward
      obtain ⟨hlt, hmem⟩ := hforward
      rcases hnew with hle | rfl
      · omega
      · cases hmem
    simp [entering, hno]
  have hdeclarer : n.declarer? (nodes ++ [new]) = n.declarer? nodes := by
    have hno : (new.offset < n.offset && new.setsUp n.offset) = false := by
      rcases hnew with hle | rfl
      · simp [Int.not_lt.2 hle]
      · simp [setsUp, Node.exit]
    simp [declarer?, List.find?_append, hno]
  have hsetups : setupsBefore (nodes ++ [new]) n.offset = setupsBefore nodes n.offset := by
    have hno : (new.isSetup && new.offset < n.offset) = false := by
      rcases hnew with hle | rfl
      · simp [Int.not_lt.2 hle]
      · simp [isSetup, Node.exit]
    simp [setupsBefore, hno]
  obtain ⟨b, r, hn, ho, hs, hsize, hb, hr⟩ := h.outcome
  constructor
  · rw [hentering]
    exact h.facts
  · intro m hm
    rw [hentering] at hm
    have hmem : m ∈ nodes := (List.mem_filter.1 hm).1
    rw [popUntil_of_growsTo (hin m hmem).2 hgrow]
    exact h.joined m hm
  · intro hnone
    rw [hentering] at hnone
    rw [hdeclarer, h.unvisited hnone]
    cases hd : n.declarer? nodes with
    | none => rfl
    | some m =>
      have hmem : m ∈ nodes := List.mem_of_find?_eq_some hd
      simp [popUntil_of_growsTo (hin m hmem).1 hgrow]
  · exact ⟨b, r, hn, ho, hs, by rw [hsetups, hsize], hb.trans hgrow, hr.trans hgrow⟩

end Node

namespace Construction

/-- The invariant of the pass, when it has done some instructions. -/
structure Pass (done : List (Instruction × Option Int)) (c : Construction) : Prop where
  coherent : c.Coherent
  ascending : c.nodes.toList.Pairwise fun m n => m.offset < n.offset
  visits (n : Node) : n ∈ c.nodes.toList →
    ∃ i next, (i, next) ∈ done ∧ n.Visit c.nodes.toList c.arena i next
  handlers (offset : Int) :
    c.handlerEntries[offset]? = (c.nodes.toList.find? (·.setsUp offset)).map (·.stack)

theorem pass_start : Pass [] start where
  coherent := coherent_start
  ascending := by simp [start]
  visits n hn := by simp [start] at hn
  handlers offset := by simp [start]

variable {done : List (Instruction × Option Int)} {c : Construction} {i : Instruction}
  {next : Option Int}

/-- In ascending order every node is found at its offset. -/
theorem Coherent.node?_of_mem (h : c.Coherent)
    (hasc : c.nodes.toList.Pairwise fun m n => m.offset < n.offset) {n : Node}
    (hn : n ∈ c.nodes.toList) : c.node? n.offset = some n := by
  obtain ⟨k, hk⟩ := List.mem_iff_getElem?.1 hn
  rw [Array.getElem?_toList] at hk
  have hlast : LastAt c.nodes n.offset k := by
    refine ⟨⟨n, hk, rfl⟩, ?_⟩
    intro j m hj hm
    rw [← Array.getElem?_toList] at hk hm
    obtain ⟨hk', hkn⟩ := List.getElem?_eq_some_iff.1 hk
    obtain ⟨hj', hjm⟩ := List.getElem?_eq_some_iff.1 hm
    have hlt := List.pairwise_iff_getElem.1 hasc k j hk' hj' hj
    rw [hkn, hjm] at hlt
    omega
  rw [node?, (h.index n.offset k).2 hlast]
  exact hk

/-- The predecessors that a visit joins are the nodes with an edge to the instruction. -/
theorem Coherent.incoming_eq (h : c.Coherent)
    (hasc : c.nodes.toList.Pairwise fun m n => m.offset < n.offset) (offset : Int) :
    c.incoming offset = c.nodes.toList.filter (·.successors.contains offset) := by
  rw [incoming, h.predecessors, List.filterMap_map]
  have hsome : ∀ m ∈ c.nodes.toList.filter (·.successors.contains offset),
      (c.node? ∘ fun m => m.offset) m = some m := by
    intro m hm
    exact h.node?_of_mem hasc (List.mem_filter.1 hm).1
  rw [List.filterMap_congr hsome, List.filterMap_some]

theorem Pass.offset_lt (h : Pass done c) (hlt : ∀ x ∈ done, x.1.offset < i.offset) {m : Node}
    (hm : m ∈ c.nodes.toList) : m.offset < i.offset := by
  obtain ⟨j, next, hj, hv⟩ := h.visits m hm
  rw [hv.offset]
  exact hlt (j, next) hj

/-- What a new node is entered from, among nodes that are all before it. -/
theorem entering_eq {nodes : List Node} {n : Node} (hlt : ∀ m ∈ nodes, m.offset < n.offset) :
    n.entering nodes = nodes.filter (·.successors.contains n.offset) := by
  refine List.filter_congr ?_
  intro m hm
  simp [Node.Forward, hlt m hm]

theorem declarer?_eq {nodes : List Node} {n : Node} (hlt : ∀ m ∈ nodes, m.offset < n.offset) :
    n.declarer? nodes = nodes.find? (·.setsUp n.offset) := by
  refine List.find?_congr ?_
  intro m hm
  simp [hlt m hm]

/-- The visit that a new node records, before the node is added. -/
theorem Pass.visit (h : Pass done c) {s : BlockStack} {r : Resolution}
    (hlt : ∀ m ∈ c.nodes.toList, m.offset < i.offset) (joined : c.joinStacks i = .ok s)
    (hr : i.Outcome c.arena next s (c.joinFacts i.offset) r) :
    (nodeOf i s (c.joinFacts i.offset) r).Visit c.nodes.toList r.arena i next := by
  have hin := h.coherent.incoming_eq h.ascending i.offset
  have hentering : (nodeOf i s (c.joinFacts i.offset) r).entering c.nodes.toList =
      c.incoming i.offset := by
    rw [hin]
    exact entering_eq hlt
  constructor
  · rw [hentering]
    rfl
  · intro m hm
    rw [hentering] at hm
    have hm' := h.coherent.mem_of_mem_incoming hm
    show s = m.outStack.popUntil r.arena i.offset
    rw [popUntil_of_growsTo (h.coherent.within m hm').2 hr.growsTo]
    rcases joinStacks_ok joined with ⟨hnil, _⟩ | ⟨_, hall⟩
    · rw [hnil] at hm
      cases hm
    · exact hall m hm
  · intro hnil
    rw [hentering] at hnil
    rcases joinStacks_ok joined with ⟨_, hs⟩ | ⟨hne, _⟩
    · show s = _
      rw [declarer?_eq hlt, hs, unvisitedStack, h.handlers]
      cases hd : c.nodes.toList.find? (·.setsUp i.offset) with
      | none => simp [nodeOf, hd]
      | some m =>
        have hm' : m ∈ c.nodes := by simpa using List.mem_of_find?_eq_some hd
        simp [nodeOf, hd, popUntil_of_growsTo (h.coherent.within m hm').1 hr.growsTo]
    · exact absurd hnil hne
  · refine ⟨c.arena, r, rfl, hr, h.coherent.within_joinStacks joined, ?_, hr.growsTo, .refl _⟩
    rw [h.coherent.size, Node.setupsBefore]
    refine List.countP_congr ?_
    intro m hm
    simp [nodeOf, hlt m hm]

theorem Pass.step (h : Pass done c) {c' : Construction}
    (hlt : ∀ x ∈ done, x.1.offset < i.offset) (hstep : Step c i next (c', none)) :
    Pass (done ++ [(i, next)]) c' := by
  have hcoherent := h.coherent.step hstep
  cases hstep with
  | skipped dead =>
    -- dead code changes neither the nodes nor the arena
    refine ⟨hcoherent, by simpa using h.ascending, ?_, by simpa using h.handlers⟩
    intro n hn
    rw [nodes_skip] at hn ⊢
    rw [arena_skip]
    obtain ⟨j, next', hj, hv⟩ := h.visits n hn
    exact ⟨j, next', by simp [hj], hv⟩
  | @visited s r live joined resolved =>
    have hr := Instruction.outcome_of_resolve resolved
    have hbefore : ∀ m ∈ c.nodes.toList, m.offset < i.offset := fun m => h.offset_lt hlt
    have hin : ∀ m ∈ c.nodes.toList, m.stack.Within r.arena ∧ m.outStack.Within r.arena := by
      intro m hm
      obtain ⟨h₁, h₂⟩ := h.coherent.within m (by simpa using hm)
      exact ⟨h₁.mono hr.growsTo, h₂.mono hr.growsTo⟩
    have hnodes : ((c.declareHandler i s).record i s (c.joinFacts i.offset) r).nodes.toList =
        c.nodes.toList ++ [nodeOf i s (c.joinFacts i.offset) r] := by
      rw [nodes_visited, Array.toList_push]
    -- the new node is after all others, so that it adds nothing to their visits
    refine ⟨hcoherent, ?_, ?_, ?_⟩
    · rw [hnodes, List.pairwise_append]
      exact ⟨h.ascending, List.pairwise_singleton _ _, by simpa [nodeOf] using hbefore⟩
    · intro n hn
      rw [hnodes] at hn ⊢
      rw [arena_record]
      rcases List.mem_append.1 hn with hn | hn
      · obtain ⟨j, next', hj, hv⟩ := h.visits n hn
        refine ⟨j, next', by simp [hj], ?_⟩
        apply hv.append (.inl (Int.le_of_lt (hbefore n hn))) hr.growsTo
        intro m hm
        exact h.coherent.within m (by simpa using hm)
      · cases List.mem_singleton.1 hn
        refine ⟨i, next, by simp, ?_⟩
        exact (h.visit hbefore joined hr).append (.inl (Int.le_refl _)) (.refl _) hin
    · intro offset
      rw [hnodes, handlerEntries_record, handlerEntries_declareHandler, h.handlers,
        List.find?_append, List.find?_singleton, Option.map_or]
      congr 1
      cases hd : i.declares offset <;> simp [Node.setsUp, nodeOf, hd]

/-- What is done stands before an instruction in the code unit. -/
theorem lt_of_steps {code : List Instruction} (hcode : Instruction.Ascending code)
    {rest : List (Instruction × Option Int)}
    (hsteps : Instruction.withNext code = done ++ (i, next) :: rest) :
    ∀ x ∈ done, x.1.offset < i.offset := by
  intro x hx
  rw [← Instruction.map_fst_withNext code, hsteps, List.map_append, List.map_cons] at hcode
  exact (List.pairwise_append.1 hcode).2.2 x.1 (List.mem_map_of_mem hx) i (by simp)

/-- A run over the first instructions of a code unit in ascending order keeps the invariant. -/
theorem pass_run_prefix {code : List Instruction} (hcode : Instruction.Ascending code)
    {todo : List (Instruction × Option Int)} (hcut : Instruction.withNext code = done ++ todo)
    (h : start.run done = (c, none)) : Pass done c := by
  refine run_induction pass_start ?_ h
  intro done' i next rest d d' hsteps hd hstep
  have hall : Instruction.withNext code = done' ++ (i, next) :: (rest ++ todo) := by
    rw [hcut, hsteps, List.append_assoc, List.cons_append]
  exact hd.step (lt_of_steps hcode hall) hstep

/-- A run over a code unit in ascending order keeps the invariant to its end. -/
theorem pass_run {code : List Instruction} (hcode : Instruction.Ascending code)
    (h : start.run (Instruction.withNext code) = (c, none)) :
    Pass (Instruction.withNext code) c :=
  pass_run_prefix hcode (List.append_nil _).symm h

/-- What the steps of a pass keep, given its invariant, holds at the end of a run over a code unit
in ascending order. -/
theorem pass_induction {code : List Instruction} {P : List (Instruction × Option Int) →
    Construction → Prop} (hcode : Instruction.Ascending code) (hstart : P [] start)
    (step : ∀ done i next rest d d', Instruction.withNext code = done ++ (i, next) :: rest →
      Pass done d → P done d → Step d i next (d', none) → P (done ++ [(i, next)]) d')
    (h : start.run (Instruction.withNext code) = (c, none)) : P (Instruction.withNext code) c := by
  have hboth : Pass (Instruction.withNext code) c ∧ P (Instruction.withNext code) c := by
    refine run_induction (P := fun done d => Pass done d ∧ P done d) ⟨pass_start, hstart⟩ ?_ h
    intro done i next rest d d' hsteps hd hstep
    exact ⟨hd.1.step (lt_of_steps hcode hsteps) hstep,
      step done i next rest d d' hsteps hd.1 hd.2 hstep⟩
  exact hboth.2

end Construction

end BytecodeFlow
