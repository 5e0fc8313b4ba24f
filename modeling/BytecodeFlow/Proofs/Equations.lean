import BytecodeFlow.Proofs.Built
import Mathlib.Data.List.Chain

/-!
# The equations of a finished graph

Before a node holds what its predecessors hand over (`Built.holds_facts`, `Built.blocks_eq`), and
after it what its instruction makes of that (`Built.holds_outFacts`, `Built.toList_outStack`). The
predecessors that count are those further up, so that the equations determine every node from the
nodes before it.
-/

namespace BytecodeFlow

open BlockStack Blocks Construction

namespace Graph

/-- The scopes that are active before a node, innermost first, with their ids. -/
def blocks (g : Graph) (n : Node) : List (Nat × Scope) := n.stack.toList g.arena

/-- What a node makes of a list of scopes. A scope that it opens is numbered by the scopes opened
before. -/
def execute (g : Graph) (n : Node) (stack : List (Nat × Scope)) : List (Nat × Scope) :=
  match n.instruction with
  | some i => i.stackAfter (Node.setupsBefore g.nodes.toList n.offset) stack
  | none => stack

/-- A fact starts to hold after a node. -/
def Generates (g : Graph) (n : Node) (fact : Fact) : Prop :=
  ∃ i ∈ n.instruction, i.Generates (g.blocks n) fact

/-- A fact that holds before a node no longer holds after it. -/
def Kills (g : Graph) (n : Node) (fact : Fact) : Prop :=
  ∃ i ∈ n.instruction, i.Kills (g.blocks n) fact

/-- A walk through a graph along edges to further offsets. -/
def Walk (g : Graph) (ns : List Node) : Prop :=
  (∀ n ∈ ns, n ∈ g.nodes) ∧ ns.IsChain Node.Forward

variable {code : List Instruction} {g : Graph} {m n : Node} {ns : List Node} {fact : Fact}

theorem walk_cons_cons :
    g.Walk (m :: n :: ns) ↔ m ∈ g.nodes ∧ m.Forward n ∧ g.Walk (n :: ns) := by
  rw [Walk, Walk, List.forall_mem_cons, List.isChain_cons_cons]
  tauto

theorem walk_append_pair :
    g.Walk (ns ++ [m, n]) ↔ g.Walk (ns ++ [m]) ∧ m.Forward n ∧ n ∈ g.nodes := by
  have hsplit : ns ++ [m, n] = ns ++ [m] ++ [n] := by simp
  rw [Walk, Walk, hsplit, List.forall_mem_append, List.isChain_append]
  simp only [List.mem_singleton, forall_eq, List.isChain_singleton, List.getLast?_concat,
    Option.mem_some_iff, List.head?_cons, forall_eq', true_and]
  tauto

/-- A walk goes on only from nodes that are not the exit. -/
theorem Built.isExit_of_walk (h : g.Built code) (hwalk : g.Walk (m :: (ns ++ [n]))) :
    m.isExit = false := by
  cases ns with
  | nil =>
    obtain ⟨hm, hforward, _⟩ := walk_cons_cons.1 hwalk
    exact h.isExit_of_mem_successors hm hforward.2
  | cons k rest =>
    obtain ⟨hm, hforward, _⟩ := walk_cons_cons.1 hwalk
    exact h.isExit_of_mem_successors hm hforward.2

theorem mem_entering : m ∈ n.entering g.nodes.toList ↔ m ∈ g.nodes ∧ m.Forward n := by
  simp [Node.entering]

/-- Before a node holds what holds after some node that control comes from. -/
theorem Built.holds_facts (h : g.Built code) (hn : n ∈ g.nodes) (hexit : n.isExit = false) :
    n.facts.Holds fact ↔ ∃ m ∈ g.nodes, m.Forward n ∧ m.outFacts.Holds fact := by
  obtain ⟨i, next, hi, hv⟩ := h.visit n hn hexit
  rw [hv.facts, PathFacts.holds_join]
  constructor
  · intro hjoin
    obtain ⟨f, hf, hfact⟩ := hjoin
    obtain ⟨m, hm, rfl⟩ := List.mem_map.1 hf
    obtain ⟨hm, hforward⟩ := mem_entering.1 hm
    exact ⟨m, hm, hforward, hfact⟩
  · intro hjoin
    obtain ⟨m, hm, hforward, hfact⟩ := hjoin
    exact ⟨m.outFacts, List.mem_map_of_mem (mem_entering.2 ⟨hm, hforward⟩), hfact⟩

/-- After a node holds what it generates, and what held before and is not killed. -/
theorem Built.holds_outFacts (h : g.Built code) (hn : n ∈ g.nodes) (hexit : n.isExit = false) :
    n.outFacts.Holds fact ↔ g.Generates n fact ∨ n.facts.Holds fact ∧ ¬ g.Kills n fact := by
  have ho := h.offset_nonneg hn hexit
  obtain ⟨i, next, hi, hv⟩ := h.visit n hn hexit
  rw [hv.offset] at ho
  obtain ⟨b, r, hnode, hr, hs, _, hb, _⟩ := hv.outcome
  have hout : n.outFacts = r.facts := by rw [hnode, nodeOf]
  -- the stack of the node reads the same in the arena of the visit and in the last one
  rw [hout, hr.holds_facts ho, ← toList_of_growsTo hs hb]
  simp [Generates, Kills, hv.instruction, blocks]

/-- What a node hands on is the stack that its instruction leaves. -/
theorem Built.toList_outStack (h : g.Built code) (hn : n ∈ g.nodes) (hexit : n.isExit = false) :
    n.outStack.toList g.arena = g.execute n (g.blocks n) := by
  obtain ⟨i, next, hi, hv⟩ := h.visit n hn hexit
  obtain ⟨b, r, hnode, hr, hs, hsize, hb, hgrow⟩ := hv.outcome
  have hout : n.outStack = r.stack := by rw [hnode, nodeOf]
  rw [hout, toList_of_growsTo (hr.within_stack hs) hgrow, hr.toList_stack hs, hsize,
    ← toList_of_growsTo hs hb, execute, hv.instruction, blocks]

/-- A node that control comes to from before has what is left of the stack handed to it. -/
theorem Built.stack_eq (h : g.Built code) (hm : m ∈ g.nodes) (hn : n ∈ g.nodes)
    (hexit : n.isExit = false) (hforward : m.Forward n) :
    n.stack = m.outStack.popUntil g.arena n.offset := by
  obtain ⟨i, next, _, hv⟩ := h.visit n hn hexit
  exact hv.joined m (mem_entering.2 ⟨hm, hforward⟩)

/-- Control that goes on to a node finds there what it left with, less the scopes that end on the
way. -/
theorem Built.blocks_eq (h : g.Built code) (hm : m ∈ g.nodes) (hn : n ∈ g.nodes)
    (hexit : n.isExit = false) (hforward : m.Forward n) :
    g.blocks n = arrive n.offset (g.execute m (g.blocks m)) := by
  rw [blocks, h.stack_eq hm hn hexit hforward, toList_popUntil,
    h.toList_outStack hm (h.isExit_of_mem_successors hm hforward.2), arrive]

end Graph

end BytecodeFlow
