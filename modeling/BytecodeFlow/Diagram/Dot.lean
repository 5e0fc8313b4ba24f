import BytecodeFlow.Graph.Basic

/-!
# Graphviz graphs

A graph in the DOT language of Graphviz: a statement for each node, then one for each edge, which
is labelled with its number at the source.
-/

namespace BytecodeFlow.Graph

/-- A text for a quoted string of the DOT language: each double quote is escaped. -/
def dotEscape (text : List Char) : List Char :=
  text.flatMap fun c => if c = '"' then ['\\', '"'] else [c]

/-- A node shows its instruction. -/
def dotLabel (n : Node) : String :=
  match n.instruction with
  | some i => String.ofList (dotEscape i.render.toList)
  | none => "EXIT"

def dotNode (n : Node) : String :=
  "    \"" ++ toString n.offset ++ "\" [label=\"" ++ dotLabel n ++ "\""
    ++ (if n.isExit then ", shape=oval" else "") ++ "];"

def dotEdge (source : Int) (target : Int) (number : Nat) : String :=
  "    \"" ++ toString source ++ "\" -> \"" ++ toString target ++ "\" [label=\""
    ++ toString number ++ "\"];"

def dotEdges (n : Node) : List String :=
  n.successors.zipIdx.map fun (target, number) => dotEdge n.offset target number

/-- The statements of the graph, between the lines that open and close it. -/
def dotLines (g : Graph) : List String :=
  "digraph cfg \x7b" :: "    node [shape=box, fontname=monospace];"
    :: g.nodes.toList.map dotNode ++ g.nodes.toList.flatMap dotEdges ++ ["\x7d"]

/-- The graph in the DOT language. -/
def toDot (g : Graph) : String :=
  "\n".intercalate g.dotLines

end BytecodeFlow.Graph
