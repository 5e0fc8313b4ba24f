import BytecodeFlow.Graph.Basic

/-!
# Mermaid flowcharts

A graph drawn as a Mermaid flowchart: a line for each node, then a line for each edge. Labels of
nodes are quoted, so a double quote in a label is written as an entity.
-/

namespace BytecodeFlow.Mermaid

/-- The outline of a node. -/
inductive Shape where
  | rectangle | rhombus | stadium
deriving DecidableEq, Inhabited

/-- The brackets that stand for an outline. -/
def Shape.brackets : Shape → String × String
  | rectangle => ("[", "]")
  | rhombus => ("\x7b", "\x7d")
  | stadium => ("([", "])")

/-- What is drawn for a node. -/
structure Label where
  content : String
  shape : Shape := .rectangle
deriving DecidableEq

/-- The text of a label with each double quote written as an entity. -/
def escape (content : List Char) : List Char :=
  content.flatMap fun c => if c = '"' then "#quot;".toList else [c]

/-- The quoted text of a label. A label without content says `empty`. -/
def Label.body (l : Label) : String :=
  if l.content.isEmpty then "empty" else String.ofList (escape l.content.toList)

def Label.render (l : Label) : String :=
  l.shape.brackets.1 ++ "\"" ++ l.body ++ "\"" ++ l.shape.brackets.2

/-- The line of an edge. -/
inductive Stroke where
  | solid | dotted
deriving DecidableEq

def Stroke.arrow : Stroke → String
  | solid => "-->"
  | dotted => "-.->"

/-- What is drawn for an edge. Its text is written as it is. -/
structure Edge where
  stroke : Stroke
  content : String := ""
deriving DecidableEq

def Edge.render (e : Edge) : String :=
  if e.content.isEmpty then e.stroke.arrow
  else e.stroke.arrow ++ "|\"" ++ e.content ++ "\"|"

/-- A flowchart over any type of node. -/
structure Flowchart (ι : Type) where
  nodes : List ι
  name : ι → String
  label : ι → Label
  edges : ι → List (ι × Edge)

namespace Flowchart

variable {ι : Type}

/-- The indent of every line but the first. -/
def indent : String := "    "

def nodeLine (chart : Flowchart ι) (n : ι) : String :=
  indent ++ chart.name n ++ (chart.label n).render

def edgeLine (chart : Flowchart ι) (source : ι) (target : ι × Edge) : String :=
  indent ++ chart.name source ++ target.2.render ++ chart.name target.1

/-- The lines of a flowchart: the heading, the nodes, and the edges node by node. -/
def lines (chart : Flowchart ι) : List String :=
  "flowchart TD" :: chart.nodes.map chart.nodeLine
    ++ chart.nodes.flatMap fun n => (chart.edges n).map (chart.edgeLine n)

def render (chart : Flowchart ι) : String :=
  "\n".intercalate chart.lines

/-- The flowchart of nodes that are numbered from 0, each with its name and label, and of edges
between those numbers. -/
def ofLists (nodes : List (String × Label)) (edges : List (Nat × Nat × Edge)) : Flowchart Nat where
  nodes := List.range nodes.length
  name n := (nodes[n]?.map (·.1)).getD ""
  label n := (nodes[n]?.map (·.2)).getD ⟨"", .rectangle⟩
  edges n := (edges.filter (·.1 == n)).map (·.2)

end Flowchart

end Mermaid

namespace Graph

open Mermaid

/-- The name of a node in a flowchart. -/
def flowchartName (offset : Int) : String :=
  if Offset.isExit offset then "exit" else "node" ++ toString offset

/-- A node shows its instruction; one that branches is a rhombus. -/
def flowchartLabel (g : Graph) (offset : Int) : Label :=
  match (g.get? offset).bind (·.instruction) with
  | some i => ⟨i.render, if 1 < (g.out offset).length then .rhombus else .rectangle⟩
  | none => ⟨"EXIT", .stadium⟩

/-- Edges out of the function are dotted, and edges of a node that branches are numbered. -/
def flowchartEdges (g : Graph) (offset : Int) : List (Int × Edge) :=
  let successors := g.out offset
  successors.zipIdx.map fun (target, number) =>
    (target,
      ⟨if Offset.isExit target then .dotted else .solid,
        if 1 < successors.length then toString number else ""⟩)

/-- The drawing of a graph. -/
def flowchart (g : Graph) : Flowchart Int where
  nodes := g.nodeIds
  name := flowchartName
  label := g.flowchartLabel
  edges := g.flowchartEdges

/-- The graph as a Mermaid flowchart. -/
def toMermaid (g : Graph) : String :=
  g.flowchart.render

end Graph

end BytecodeFlow
