import BytecodeFlow.BuildError
import BytecodeFlow.Instruction
import BytecodeFlow.PathFacts
import BytecodeFlow.Unwinding

/-!
# What an instruction does to control

`Instruction.resolve` gives every offset that control can reach right after an instruction, with
the block stack and the path facts that hold there. Control moves implicitly in three ways: an
exception goes to its handler; a return, break or continue goes through the handlers in its way;
and `END_FINALLY` ends such a handler and lets what was pending go on (`resumeDeferred`).
-/

namespace BytecodeFlow

/-- The outcome of one instruction. `arena` holds the scopes known after it. The successors are
distinct, and the next instruction comes first where it is one. -/
structure Resolution where
  arena : Arena
  successors : List Int
  stack : BlockStack
  facts : PathFacts

namespace Resolution

/-! ## What `END_FINALLY` resumes

Each of these gives the targets to add and the facts that stay. -/

/-- A pending return goes to the next handler in its way. Out of the function, it is no longer
pending. -/
def resumeReturn (a : Arena) (s : BlockStack) (offset : Int) (f : PathFacts) :
    List Int × PathFacts :=
  if f.returned then
    let target := s.returnTarget a offset
    ([target], if target = Offset.exit then f.clearFlag .returned else f)
  else ([], f)

/-- A pending break goes to the handler in its way, or to the exit of the loop and is done. -/
def resumeBreak (loop : Nat) (exit : Int) (detour : Option Int) (f : PathFacts) :
    List Int × PathFacts :=
  if f.hasBroken loop then
    match detour with
    | some handler => ([handler], f)
    | none => ([exit], f.removeBroken loop)
  else ([], f)

/-- Pending continues go to the handler in their way, or restart the loop and are done. -/
def resumeContinue (loop : Nat) (detour : Option Int) (f : PathFacts) : List Int × PathFacts :=
  if (f.restarts loop).isEmpty then ([], f)
  else
    match detour with
    | some handler => ([handler], f)
    | none => (f.restarts loop, f.removeContinued loop)

/-- All that is pending at an `END_FINALLY`: a return, and the breaks and continues of the
innermost loop. -/
def resumeDeferred (a : Arena) (s : BlockStack) (offset : Int) (f : PathFacts) :
    List Int × PathFacts :=
  let returned := resumeReturn a s offset f
  match s.innermostLoop? a with
  | none => returned
  | some (loop, scope) =>
    let detour := s.detour? a offset loop
    let broken := resumeBreak loop scope.exit detour returned.2
    let continued := resumeContinue loop detour broken.2
    (returned.1 ++ broken.1 ++ continued.1, continued.2)

/-! ## One instruction -/

/-- The next instruction, which there has to be. -/
def fallThrough (i : Instruction) (next : Option Int) : Except BuildError Int :=
  match next with
  | some offset => .ok offset
  | none => .error (.fallsOffEnd i.offset i.opcode)

/-- The jump target, which there has to be. -/
def jumpTo (i : Instruction) : Except BuildError Int :=
  match i.jumpTarget with
  | some target => .ok target
  | none => .error (.missingJumpTarget i.offset i.opcode)

/-- The innermost loop, which there has to be. -/
def enclosingLoop (a : Arena) (s : BlockStack) (i : Instruction) :
    Except BuildError (Nat × Scope) :=
  match s.innermostLoop? a with
  | some found => .ok found
  | none => .error (.missingLoop i.offset i.opcode)

/-- The stack after `POP_BLOCK`. It closes a loop, whose `else` clause runs outside of it; every
other scope lasts until its exit. -/
def closeLoop (a : Arena) (s : BlockStack) : BlockStack :=
  match s.top.bind a.get? with
  | some scope => if scope.kind.isLoop then ⟨scope.parent⟩ else s
  | none => s

end Resolution

open Resolution

/-- The outcome of an instruction that runs with block stack `s` after paths with facts `f`.
`next` is the offset of the instruction that follows it in the code unit, if one does. -/
def Instruction.resolve (i : Instruction) (a : Arena) (next : Option Int) (s : BlockStack)
    (f : PathFacts) : Except BuildError Resolution :=
  let handler := s.exceptionTarget a i.offset
  match i.opcode.flow with
  | .sequential => do
    let following ← fallThrough i next
    return ⟨a, ([following] ++ handler.toList).eraseDups, s, f⟩
  | .jump => do
    let target ← jumpTo i
    return ⟨a, [target], s, f⟩
  | .branch => do
    let following ← fallThrough i next
    let target ← jumpTo i
    return ⟨a, [following, target].eraseDups, s, f⟩
  | .breakLoop => do
    let (loop, scope) ← enclosingLoop a s i
    match s.detour? a i.offset loop with
    | some detour => return ⟨a, [detour], s, f.insertBroken loop⟩
    | none => return ⟨a, [scope.exit], ⟨scope.parent⟩, f.insertBroken loop⟩
  | .continueLoop => do
    let restart ← jumpTo i
    let (loop, _) ← enclosingLoop a s i
    match s.detour? a i.offset loop with
    | some detour => return ⟨a, [detour], s, f.insertContinued loop restart⟩
    | none => return ⟨a, [restart], s, f⟩
  | .setup kind => do
    let following ← fallThrough i next
    let exit ← jumpTo i
    let (arena, inner) := s.push a kind exit i.offset
    return ⟨arena, [following], inner, f⟩
  | .popBlock => do
    let following ← fallThrough i next
    return ⟨a, [following], closeLoop a s, f⟩
  | .popExcept => do
    let following ← fallThrough i next
    return ⟨a, [following], s, f⟩
  | .returnValue =>
    .ok ⟨a, [s.returnTarget a i.offset], s, f.setFlag .returned⟩
  | .raise =>
    .ok ⟨a, (next.toList ++ [handler.getD Offset.exit]).eraseDups, s, f.setFlag .raised⟩
  | .endFinally =>
    let resumed := resumeDeferred a s i.offset f
    .ok ⟨a, (next.toList ++ handler.toList ++ resumed.1).eraseDups, s, resumed.2⟩

end BytecodeFlow
