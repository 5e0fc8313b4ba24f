import BytecodeFlow.Graph.Basic
import BytecodeFlow.Resolution
import Std.Data.TreeSet

/-!
# Building a graph

A graph is built in one pass over the instructions, in the order they are given. When an
instruction is visited, the predecessors that matter for its block stack have been visited: in a
code unit in ascending order the other ones are loop back edges. Its block stack and path facts
are the join of what its predecessors hand over, less the scopes that have ended on the way.

Dead code gets no node (`Construction.isLive`). An instruction is live if some visited
instruction has it as a successor. A flagged jump target without such a predecessor is live too,
unless a dead instruction jumps to it.
-/

namespace BytecodeFlow

/-- A graph in the making. -/
structure Construction where
  nodes : Array Node
  index : Std.TreeMap Int Nat
  /-- For each offset, the nodes with an edge to it. -/
  recorded : Std.TreeMap Int (List Int)
  arena : Arena
  /-- The entry and the successors of the nodes. -/
  reachable : Std.TreeSet Int
  /-- The jump targets of dead instructions. -/
  unreachable : Std.TreeSet Int
  /-- For each handler, the block stack before the first instruction that set it up. -/
  handlerEntries : Std.TreeMap Int BlockStack

namespace Construction

/-- Nothing built yet; only the entry is known to be reachable. -/
def start : Construction where
  nodes := #[]
  index := ∅
  recorded := ∅
  arena := .empty
  reachable := Std.TreeSet.empty.insert Offset.entry
  unreachable := ∅
  handlerEntries := ∅

instance : Inhabited Construction := ⟨start⟩

/-- The last node built at an offset. -/
def node? (c : Construction) (offset : Int) : Option Node :=
  c.index[offset]?.bind (c.nodes[·]?)

/-- The offsets of the nodes with an edge to an offset, in order of construction. -/
def predecessors (c : Construction) (offset : Int) : List Int :=
  c.recorded[offset]?.getD []

/-! ## Joining the paths to an instruction -/

def incoming (c : Construction) (offset : Int) : List Node :=
  (c.predecessors offset).filterMap c.node?

/-- The block stack that a node hands over to an offset: scopes that end on the way are left. -/
def handedOver (c : Construction) (n : Node) (offset : Int) : BlockStack :=
  n.outStack.popUntil c.arena offset

/-- The block stack of an instruction without a visited predecessor. A handler into which
nothing raises still has the stack from before it was set up. -/
def unvisitedStack (c : Construction) (offset : Int) : BlockStack :=
  match c.handlerEntries[offset]? with
  | some s => s.popUntil c.arena offset
  | none => .empty

/-- The block stack that all predecessors of an instruction agree on. -/
def joinStacks (c : Construction) (i : Instruction) : Except BuildError BlockStack :=
  match c.incoming i.offset with
  | [] => .ok (c.unvisitedStack i.offset)
  | first :: rest =>
    let expected := c.handedOver first i.offset
    match rest.find? fun n => c.handedOver n i.offset != expected with
    | none => .ok expected
    | some other =>
      .error (.inconsistentStack i.offset i.opcode (expected.scopes c.arena) first.offset
        ((c.handedOver other i.offset).scopes c.arena) other.offset)

/-- What holds on some path to an offset. -/
def joinFacts (c : Construction) (offset : Int) : PathFacts :=
  .join ((c.incoming offset).map (·.outFacts))

/-! ## Visiting an instruction -/

/-- Whether an instruction gets a node. -/
def isLive (c : Construction) (i : Instruction) : Bool :=
  c.reachable.contains i.offset || (i.isJumpTarget && !c.unreachable.contains i.offset)

/-- Passes a dead instruction: it makes nothing reachable, and its jump proves that. -/
def skip (c : Construction) (i : Instruction) : Construction :=
  match i.jumpTarget with
  | some target => { c with unreachable := c.unreachable.insert target }
  | none => c

/-- Remembers the block stack before an instruction that sets up a handler, unless one is known
for that handler. -/
def declareHandler (c : Construction) (i : Instruction) (s : BlockStack) : Construction :=
  match i.opcode.flow, i.jumpTarget with
  | .setup _, some handler =>
    { c with handlerEntries := c.handlerEntries.insertIfNew handler s }
  | _, _ => c

/-- Records an edge. -/
def addEdge (c : Construction) (source target : Int) : Construction :=
  { c with
    reachable := c.reachable.insert target
    recorded := c.recorded.insert target (c.predecessors target ++ [source]) }

/-- Records the edges of a source in turn. -/
def addEdges (c : Construction) (source : Int) (targets : List Int) : Construction :=
  targets.foldl (·.addEdge source) c

/-- Adds a node, which from now on is the node at its offset. -/
def addNode (c : Construction) (n : Node) : Construction :=
  { c with index := c.index.insert n.offset c.nodes.size, nodes := c.nodes.push n }

/-- Adds the node of a resolved instruction and its edges. -/
def record (c : Construction) (i : Instruction) (s : BlockStack) (f : PathFacts)
    (r : Resolution) : Construction :=
  { c.addEdges i.offset r.successors with arena := r.arena }.addNode
    ⟨i.offset, some i, r.successors, s, f, r.stack, r.facts⟩

/-- Visits a live instruction, before one at `next` in the code unit. On failure it gets no node
and no edge. -/
def visit (c : Construction) (i : Instruction) (next : Option Int) :
    Construction × Option BuildError :=
  match c.joinStacks i with
  | .error e => (c, some e)
  | .ok s =>
    let f := c.joinFacts i.offset
    match i.resolve c.arena next s f with
    | .error e => (c.declareHandler i s, some e)
    | .ok r => ((c.declareHandler i s).record i s f r, none)

/-- Visits an instruction if it is live, and passes it otherwise. -/
def advance (c : Construction) (i : Instruction) (next : Option Int) :
    Construction × Option BuildError :=
  if c.isLive i then c.visit i next else (c.skip i, none)

/-- Goes on with instructions, each with the offset of the one after it, up to the first that
fails. -/
def run (c : Construction) : List (Instruction × Option Int) → Construction × Option BuildError
  | [] => (c, none)
  | (i, next) :: rest =>
    match c.advance i next with
    | (c', none) => run c' rest
    | (c', some e) => (c', some e)

/-- Goes on with a code unit, which has to start at the entry. What was built before a failure
stays. -/
def process (c : Construction) (code : List Instruction) : Construction × Option BuildError :=
  match code with
  | [] => (c, some .emptyCode)
  | first :: _ =>
    if first.offset = Offset.entry then c.run (Instruction.withNext code)
    else (c, some (.missingEntry first.offset))

/-- Goes on with one code unit after another, whether or not they fail, and gives the failure of
each. -/
def processAll (c : Construction) :
    List (List Instruction) → Construction × List (Option BuildError)
  | [] => (c, [])
  | code :: rest =>
    let one := c.process code
    let others := processAll one.1 rest
    (others.1, one.2 :: others.2)

/-! ## The finished graph -/

/-- The first edge to an offset without a node. -/
def danglingEdge? (index : Std.TreeMap Int Nat) (nodes : List Node) : Option (Int × Int) :=
  nodes.findSome? fun n =>
    (n.successors.find? fun target => !index.contains target).map (n.offset, ·)

/-- Adds the exit. Every edge has to end at a node. -/
def finish (c : Construction) : Except BuildError Graph :=
  let done := c.addNode .exit
  match danglingEdge? done.index done.nodes.toList with
  | some (source, target) => .error (.danglingEdge source target)
  | none => .ok ⟨done.nodes, done.index, done.recorded, done.arena⟩

/-! ## What each step changes -/

theorem run_append (c : Construction) (xs ys : List (Instruction × Option Int)) :
    c.run (xs ++ ys) =
      match c.run xs with
      | (c', none) => c'.run ys
      | (c', some e) => (c', some e) := by
  induction xs generalizing c with
  | nil => rfl
  | cons x xs ih =>
    simp only [List.cons_append, run]
    rcases c.advance x.1 x.2 with ⟨c', _ | e⟩
    · exact ih c'
    · rfl

@[simp] theorem predecessors_start (offset : Int) : start.predecessors offset = [] := by
  simp [start, predecessors]

theorem predecessors_addEdge (c : Construction) (source target offset : Int) :
    (c.addEdge source target).predecessors offset =
      c.predecessors offset ++ if target = offset then [source] else [] := by
  simp only [addEdge, predecessors, Std.TreeMap.getElem?_insert, Std.LawfulEqCmp.compare_eq_iff_eq]
  by_cases h : target = offset
  · simp [h]
  · simp [h]

/-- Adding edges from one source records it once for each edge, after what was recorded. -/
theorem predecessors_addEdges (c : Construction) (source : Int) (targets : List Int)
    (offset : Int) :
    (c.addEdges source targets).predecessors offset =
      c.predecessors offset ++ List.replicate (targets.count offset) source := by
  induction targets generalizing c with
  | nil => simp [addEdges]
  | cons target rest ih =>
    have ih := ih (c.addEdge source target)
    rw [addEdges] at ih ⊢
    rw [List.foldl_cons, ih, predecessors_addEdge, List.count_cons]
    by_cases h : target = offset
    · simp [h, List.replicate_succ]
    · simp [h]

/-- Adding edges makes their targets reachable and nothing else. -/
theorem mem_reachable_addEdges (c : Construction) (source : Int) (targets : List Int)
    (offset : Int) :
    offset ∈ (c.addEdges source targets).reachable ↔ offset ∈ targets ∨ offset ∈ c.reachable := by
  induction targets generalizing c with
  | nil => simp [addEdges]
  | cons target rest ih =>
    have ih := ih (c.addEdge source target)
    rw [addEdges] at ih ⊢
    rw [List.foldl_cons, ih, addEdge, Std.TreeSet.mem_insert, List.mem_cons,
      Std.LawfulEqCmp.compare_eq_iff_eq, or_left_comm, or_assoc, @eq_comm _ target]

/-- Adding edges changes nothing but the predecessors and what is reachable. -/
theorem addEdges_eq (c : Construction) (source : Int) (targets : List Int) :
    c.addEdges source targets =
      { c with
        reachable := (c.addEdges source targets).reachable
        recorded := (c.addEdges source targets).recorded } := by
  induction targets generalizing c with
  | nil => rfl
  | cons target rest ih => exact ih (c.addEdge source target)

@[simp] theorem nodes_addEdges (c : Construction) (source : Int) (targets : List Int) :
    (c.addEdges source targets).nodes = c.nodes := by
  rw [addEdges_eq]

@[simp] theorem index_addEdges (c : Construction) (source : Int) (targets : List Int) :
    (c.addEdges source targets).index = c.index := by
  rw [addEdges_eq]

@[simp] theorem nodes_declareHandler (c : Construction) (i : Instruction) (s : BlockStack) :
    (c.declareHandler i s).nodes = c.nodes := by
  unfold declareHandler
  split <;> rfl

@[simp] theorem nodes_skip (c : Construction) (i : Instruction) : (c.skip i).nodes = c.nodes := by
  unfold skip
  split <;> rfl

/-- A recorded instruction is the last node. -/
theorem nodes_record (c : Construction) (i : Instruction) (s : BlockStack) (f : PathFacts)
    (r : Resolution) :
    (c.record i s f r).nodes =
      c.nodes.push ⟨i.offset, some i, r.successors, s, f, r.stack, r.facts⟩ := by
  simp [record, addNode]

/-- The node that was added last at an offset is the node there. -/
theorem node?_addNode (c : Construction) (n : Node) : (c.addNode n).node? n.offset = some n := by
  simp [addNode, node?]

end Construction

/-- The control-flow graph of one code unit. -/
def Graph.build (code : List Instruction) : Except BuildError Graph :=
  match Construction.start.process code with
  | (c, none) => c.finish
  | (_, some e) => .error e

end BytecodeFlow
