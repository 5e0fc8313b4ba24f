import BytecodeFlow.Graph.Basic

/-!
# Replaying observed paths

A path that was observed by tracing the interpreter is a list of offsets. It must be a walk in
the graph: the first offset is a node, and every step is an edge. `replay` reports the first step
that is not, with what the graph knows about its source.
-/

namespace BytecodeFlow

/-- What becomes of an offset that is observed twice in a row without an edge to itself. -/
inductive RepeatPolicy where
  /-- It is a step that is no edge. -/
  | reject
  /-- It counts as one visit. -/
  | collapse
deriving DecidableEq, Inhabited

/-- The word for a policy in options. -/
def RepeatPolicy.name : RepeatPolicy → String
  | reject => "reject"
  | collapse => "collapse"

/-- How paths are replayed. -/
structure ReplayOptions where
  selfLoops : RepeatPolicy := .reject
deriving DecidableEq, Inhabited

/-- Why a path is no walk. `missingEdge` gives what the graph knows about the source. -/
inductive ReplayError where
  | missingNode (offset : Int)
  | missingEdge (source target : Int) (instruction : Option Instruction) (successors : List Int)
      (stack : List Scope)
deriving DecidableEq

/-- Offsets in a message, as in `[12, 34]`. -/
def ReplayError.renderOffsets (offsets : List Int) : String :=
  "[" ++ ", ".intercalate (offsets.map toString) ++ "]"

def ReplayError.message : ReplayError → String
  | missingNode offset => "observed offset " ++ toString offset ++ " has no node in the graph"
  | missingEdge source target instruction successors stack =>
    "there should be an edge " ++ toString source ++ " -> " ++ toString target
      ++ "\n  instruction: " ++ (instruction.map Instruction.render).getD ""
      ++ "\n  successors of " ++ toString source ++ ": " ++ renderOffsets successors
      ++ "\n  block stack of " ++ toString source ++ ": " ++ Scope.renderStack stack

namespace Graph

/-- One step of a path. -/
def replayStep (g : Graph) (policy : RepeatPolicy) (source target : Int) :
    Except ReplayError Unit :=
  match g.get? source with
  | none => .error (.missingNode source)
  | some n =>
    if n.successors.contains target then .ok ()
    else if source = target ∧ policy = .collapse then .ok ()
    else if g.contains target then
      .error (.missingEdge source target n.instruction n.successors (n.stack.scopes g.arena))
    else .error (.missingNode target)

/-- The steps of a path in turn. -/
def replaySteps (g : Graph) (policy : RepeatPolicy) : List Int → Except ReplayError Unit
  | source :: target :: rest =>
    match g.replayStep policy source target with
    | .ok () => replaySteps g policy (target :: rest)
    | .error e => .error e
  | _ => .ok ()

/-- Follows a path through the graph. -/
def replay (g : Graph) (policy : RepeatPolicy) (path : List Int) : Except ReplayError Unit :=
  match path with
  | [] => .ok ()
  | first :: _ =>
    if g.contains first then g.replaySteps policy path else .error (.missingNode first)

end Graph

end BytecodeFlow
