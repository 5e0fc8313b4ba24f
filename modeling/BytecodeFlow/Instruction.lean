import BytecodeFlow.Offset
import BytecodeFlow.Opcode.Flow

/-!
# Instructions

A decoded instruction: extended arguments are folded in and jump arguments are resolved to
absolute offsets. `markJumpTargets` recomputes which instructions of a code unit are jumped to
(`isJumpTarget_of_mem_markJumpTargets`).
-/

namespace BytecodeFlow

/-- One instruction of a code unit. `arg` is the argument as encoded and `argval` the resolved
argument, which for an opcode with a jump target is that target. -/
structure Instruction where
  opcode : Opcode
  offset : Int
  arg : Option Nat
  argval : Option Nat
  isJumpTarget : Bool
deriving DecidableEq

namespace Instruction

/-- Where the instruction may send control besides the next instruction. A target that is no
offset counts as missing. -/
def jumpTarget (i : Instruction) : Option Int :=
  if i.opcode.hasJumpTarget then i.argval.bind Offset.ofNat? else none

/-- How an instruction is shown, as in `10 FOR_ITER 22 (to 34)`. The target is left out when it
is the argument. -/
def render (i : Instruction) : String :=
  let argument := match i.arg with
    | some arg => " " ++ toString arg
    | none => ""
  let target := match i.jumpTarget with
    | some target => if i.arg = i.argval then "" else " (to " ++ toString target ++ ")"
    | none => ""
  toString i.offset ++ " " ++ i.opcode.name ++ argument ++ target

/-- The jump targets of a code unit, in order of the jumps. -/
def jumpTargets (code : List Instruction) : List Int :=
  code.filterMap jumpTarget

/-- Flags the instructions that some instruction of the code unit jumps to, and no others. -/
def markJumpTargets (code : List Instruction) : List Instruction :=
  let targets := jumpTargets code
  code.map fun i => { i with isJumpTarget := targets.contains i.offset }

/-- The instructions of a code unit, each with the offset of the one after it. -/
def withNext : List Instruction → List (Instruction × Option Int)
  | [] => []
  | i :: rest => (i, rest.head?.map offset) :: withNext rest

@[simp] theorem map_fst_withNext (code : List Instruction) :
    (withNext code).map (·.1) = code := by
  induction code with
  | nil => rfl
  | cons i rest ih => simp [withNext, ih]

theorem hasJumpTarget_of_jumpTarget {i : Instruction} {target : Int}
    (h : i.jumpTarget = some target) : i.opcode.hasJumpTarget = true := by
  unfold jumpTarget at h
  split at h
  · assumption
  · cases h

theorem jumpTarget_nonneg {i : Instruction} {target : Int} (h : i.jumpTarget = some target) :
    0 ≤ target := by
  unfold jumpTarget at h
  split at h
  · obtain ⟨value, _, hv⟩ := Option.bind_eq_some_iff.1 h
    exact Offset.nonneg_of_ofNat? hv
  · cases h

/-- A resolved argument in range is the jump target. -/
theorem jumpTarget_eq_none_iff {i : Instruction} (hop : i.opcode.hasJumpTarget = true)
    (hrange : ∀ target ∈ i.argval, target ≤ Offset.greatest) :
    i.jumpTarget = none ↔ i.argval = none := by
  unfold jumpTarget
  cases hargval : i.argval with
  | none => simp
  | some target => simp [hop, Offset.ofNat?, hrange target hargval]

@[simp] theorem jumpTarget_setFlag (i : Instruction) (flag : Bool) :
    ({ i with isJumpTarget := flag } : Instruction).jumpTarget = i.jumpTarget := rfl

theorem mem_jumpTargets {code : List Instruction} {target : Int} :
    target ∈ jumpTargets code ↔ ∃ i ∈ code, i.jumpTarget = some target := by
  simp [jumpTargets]

/-- Flagging changes no jump. -/
@[simp] theorem jumpTargets_markJumpTargets (code : List Instruction) :
    jumpTargets (markJumpTargets code) = jumpTargets code := by
  simp [jumpTargets, markJumpTargets, List.filterMap_map, Function.comp_def]

/-- A flag of a marked code unit says exactly whether the instruction is jumped to. -/
theorem isJumpTarget_of_mem_markJumpTargets {code : List Instruction} {i : Instruction}
    (h : i ∈ markJumpTargets code) : i.isJumpTarget = true ↔ i.offset ∈ jumpTargets code := by
  obtain ⟨j, _, rfl⟩ := List.mem_map.1 h
  simp

/-- Marking overwrites the flags. -/
theorem markJumpTargets_unflagged (code : List Instruction) :
    markJumpTargets (code.map fun i => { i with isJumpTarget := false }) = markJumpTargets code := by
  simp [markJumpTargets, jumpTargets, List.filterMap_map, Function.comp_def]

/-- Marking twice is marking once. -/
theorem markJumpTargets_markJumpTargets (code : List Instruction) :
    markJumpTargets (markJumpTargets code) = markJumpTargets code := by
  rw [markJumpTargets, jumpTargets_markJumpTargets]
  simp [markJumpTargets]

end Instruction

end BytecodeFlow
