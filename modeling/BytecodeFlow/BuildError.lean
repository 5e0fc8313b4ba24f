import BytecodeFlow.Opcode.Basic
import BytecodeFlow.Scope

/-!
# Code that has no graph

The ways in which a list of instructions is not something that a compiler produces. Building its
graph stops at the first.
-/

namespace BytecodeFlow

/-- Why a graph cannot be built. `inconsistentStack` gives the stack of the first predecessor of
an instruction, and that of the first later one whose innermost block differs. -/
inductive BuildError where
  | emptyCode
  | missingEntry (first : Int)
  | fallsOffEnd (offset : Int) (opcode : Opcode)
  | missingJumpTarget (offset : Int) (opcode : Opcode)
  | missingLoop (offset : Int) (opcode : Opcode)
  | inconsistentStack (offset : Int) (opcode : Opcode) (expected : List Scope)
      (expectedFrom : Int) (found : List Scope) (foundFrom : Int)
  | danglingEdge (source target : Int)
deriving DecidableEq

/-- An instruction in a message, as in `` `FOR_ITER` at offset 10 ``. -/
def BuildError.place (opcode : Opcode) (offset : Int) : String :=
  "`" ++ opcode.name ++ "` at offset " ++ toString offset

def BuildError.message : BuildError → String
  | emptyCode => "code unit contains no instructions"
  | missingEntry first =>
    "code unit starts at offset " ++ toString first ++ ", expected offset 0"
  | fallsOffEnd offset opcode => place opcode offset ++ " falls off the end of the code unit"
  | missingJumpTarget offset opcode =>
    place opcode offset ++ " has no resolved jump target within the offset range"
  | missingLoop offset opcode =>
    place opcode offset ++ " has no enclosing loop on the block stack"
  | inconsistentStack offset opcode expected expectedFrom found foundFrom =>
    "predecessors of " ++ place opcode offset ++ " disagree on the innermost block: "
      ++ Scope.renderStack expected ++ " (via " ++ toString expectedFrom ++ ") vs "
      ++ Scope.renderStack found ++ " (via " ++ toString foundFrom ++ ")"
  | danglingEdge source target =>
    "edge " ++ toString source ++ " -> " ++ toString target
      ++ " targets an offset with no reachable instruction"

end BytecodeFlow
