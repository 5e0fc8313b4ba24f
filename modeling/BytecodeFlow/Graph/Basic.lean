import BytecodeFlow.BlockStack
import BytecodeFlow.Instruction
import BytecodeFlow.Ordered
import BytecodeFlow.PathFacts
import Std.Data.TreeMap

/-!
# Control-flow graphs

A graph has one node for each reachable instruction of a code unit, and a last node for leaving
the function. Nodes are named by offset. Every node knows the block stack and the path facts
before and after it.
-/

namespace BytecodeFlow

/-- A reachable instruction, or the exit, which has none. `stack` and `facts` hold before it and
`outStack` and `outFacts` after it. -/
structure Node where
  offset : Int
  instruction : Option Instruction
  successors : List Int
  stack : BlockStack
  facts : PathFacts
  outStack : BlockStack
  outFacts : PathFacts
deriving DecidableEq

/-- The node for leaving the function. -/
def Node.exit : Node :=
  ⟨Offset.exit, none, [], .empty, {}, .empty, {}⟩

def Node.isExit (n : Node) : Bool := Offset.isExit n.offset

/-- A control-flow graph. `nodes` is in order of construction with the exit last, `index` gives
the position of the node at an offset, and `recorded` the offsets of the nodes with an edge to an
offset. -/
structure Graph where
  nodes : Array Node
  index : Std.TreeMap Int Nat
  recorded : Std.TreeMap Int (List Int)
  arena : Arena

namespace Graph

def get? (g : Graph) (offset : Int) : Option Node :=
  g.index[offset]?.bind (g.nodes[·]?)

/-- The node at an offset, or the failure of the lookup. -/
def node (g : Graph) (offset : Int) : Except LookupError Node :=
  match g.get? offset with
  | some n => .ok n
  | none => .error (.nodeNotFound offset)

def contains (g : Graph) (offset : Int) : Bool :=
  g.index.contains offset

def successors (g : Graph) (offset : Int) : Except LookupError (List Int) :=
  (g.node offset).map (·.successors)

/-- The successors of a node, and none where there is no node. -/
def out (g : Graph) (offset : Int) : List Int :=
  ((g.get? offset).map (·.successors)).getD []

/-- The offsets of the nodes with an edge to an offset, in order of construction. -/
def predecessors (g : Graph) (offset : Int) : List Int :=
  g.recorded[offset]?.getD []

/-- The position of an edge among the edges of its source. -/
def edgeNumber? (g : Graph) (source target : Int) : Option Nat :=
  (g.get? source).bind (·.successors.idxOf? target)

def numNodes (g : Graph) : Nat := g.nodes.size

def nodeIds (g : Graph) : List Int := g.nodes.toList.map (·.offset)

/-- Where control starts. -/
def initial (_ : Graph) : Int := Offset.entry

/-- Where control ends. -/
def terminal (_ : Graph) : Int := Offset.exit

/-- The shown block stack of a node. -/
def renderStack (g : Graph) (n : Node) : String :=
  n.stack.render g.arena

/-- The ids of the scopes on the block stack of some node, ascending. -/
def scopesInUse (g : Graph) : List Nat :=
  Ordered.union PathFacts.loopBefore []
    (g.nodes.toList.flatMap fun n => (n.stack.toList g.arena).map (·.1))

theorem out_of_get? {g : Graph} {n : Node} {offset : Int} (h : g.get? offset = some n) :
    g.out offset = n.successors := by
  simp [out, h]

end Graph

end BytecodeFlow
