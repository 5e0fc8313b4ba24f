import BytecodeFlow.Opcode.Basic
import BytecodeFlow.Scope

/-!
# How an opcode transfers control

`Opcode.flow` sorts the opcodes by what can happen after them. Most fall through or raise; the
others jump, change the block stack, or leave a region.
-/

namespace BytecodeFlow

/-- The ways to transfer control. -/
inductive Flow where
  /-- On to the next instruction, or to the handler of a raised exception. -/
  | sequential
  /-- To the argument. -/
  | jump
  /-- On to the next instruction or to the argument. -/
  | branch
  /-- Out of the innermost loop. -/
  | breakLoop
  /-- To the argument, which restarts the innermost loop. -/
  | continueLoop
  /-- On to the next instruction inside a new scope, whose exit is the argument. -/
  | setup (kind : ScopeKind)
  | popBlock
  | popExcept
  | endFinally
  | returnValue
  | raise
deriving DecidableEq

/-- Whether the argument is the offset of an instruction. -/
def Flow.hasJumpTarget : Flow → Bool
  | jump | branch | continueLoop | setup _ => true
  | _ => false

namespace Opcode

/-- How the opcode transfers control. -/
def flow : Opcode → Flow
  | jumpForward | jumpAbsolute => .jump
  | popJumpIfFalse | popJumpIfTrue | jumpIfFalseOrPop | jumpIfTrueOrPop | forIter => .branch
  | breakLoop => .breakLoop
  | continueLoop => .continueLoop
  | setupLoop => .setup .loopBlock
  | setupExcept => .setup .exceptBlock
  | setupFinally => .setup .finallyBlock
  | setupWith | setupAsyncWith => .setup .withBlock
  | popBlock => .popBlock
  | popExcept => .popExcept
  | endFinally => .endFinally
  | returnValue => .returnValue
  | raiseVarargs => .raise
  | _ => .sequential

def hasJumpTarget (op : Opcode) : Bool :=
  op.flow.hasJumpTarget

end Opcode

end BytecodeFlow
