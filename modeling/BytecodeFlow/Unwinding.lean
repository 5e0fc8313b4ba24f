import BytecodeFlow.BlockStack
import BytecodeFlow.Offset

/-!
# Leaving blocks abnormally

Where control goes when a block is left by an exception, a return, a break or a continue. Each
walks the block stack outwards. An exception stops at the first scope that catches it; the others
pass `except` scopes and stop at the first `finally` or `with` scope. A scope counts only while
control is before its exit: its handler is not protected by it.
-/

namespace BytecodeFlow

/-- Whether the scope's handler takes an exception raised at an offset. -/
def Scope.catches (offset : Int) (s : Scope) : Bool :=
  s.kind.catchesExceptions && offset < s.exit

/-- Whether the scope's handler runs before a jump out of the scope goes on. -/
def Scope.intercepts (offset : Int) (s : Scope) : Bool :=
  s.kind.interceptsUnwinding && offset < s.exit

theorem Scope.catches_of_intercepts {offset : Int} {s : Scope} (h : s.intercepts offset = true) :
    s.catches offset = true := by
  simp only [intercepts, catches, Bool.and_eq_true] at h ⊢
  exact ⟨ScopeKind.catchesExceptions_of_interceptsUnwinding h.1, h.2⟩

theorem Scope.lt_exit_of_catches {offset : Int} {s : Scope} (h : s.catches offset = true) :
    offset < s.exit := by
  simp only [catches, Bool.and_eq_true, decide_eq_true_eq] at h
  exact h.2

/-- A loop has no handler. -/
theorem Scope.kind_ne_loopBlock_of_catches {offset : Int} {s : Scope}
    (h : s.catches offset = true) : s.kind ≠ .loopBlock := by
  intro hk
  simp [catches, hk, ScopeKind.catchesExceptions] at h

namespace BlockStack

/-- The handler of an exception raised at an offset, if the function has one. -/
def exceptionTarget (s : BlockStack) (a : Arena) (offset : Int) : Option Int :=
  match s with
  | ⟨none⟩ => none
  | ⟨some id⟩ =>
    match _h : a.get? id with
    | none => none
    | some scope =>
      if scope.catches offset then some scope.exit else exceptionTarget ⟨scope.parent⟩ a offset
termination_by Arena.rank s.top
decreasing_by exact Arena.rank_parent_lt ‹_›

/-- Where a return at an offset goes first: to the innermost handler in its way, or out of the
function. -/
def returnTarget (s : BlockStack) (a : Arena) (offset : Int) : Int :=
  match (s.scopes a).find? (Scope.intercepts offset) with
  | some scope => scope.exit
  | none => Offset.exit

/-- The innermost handler in the way of a jump from an offset out to a loop. -/
def detour? (s : BlockStack) (a : Arena) (offset : Int) (loop : Nat) : Option Int :=
  (((s.toList a).takeWhile (·.1 != loop)).find? (·.2.intercepts offset)).map (·.2.exit)

theorem exceptionTarget_empty (a : Arena) (offset : Int) :
    empty.exceptionTarget a offset = none := by
  simp [empty, exceptionTarget]

theorem exceptionTarget_dangling {a : Arena} {id : Nat} {offset : Int} (h : a.get? id = none) :
    exceptionTarget ⟨some id⟩ a offset = none := by
  rw [exceptionTarget]
  split <;> simp_all

theorem exceptionTarget_some {a : Arena} {id : Nat} {scope : Scope} {offset : Int}
    (h : a.get? id = some scope) :
    exceptionTarget ⟨some id⟩ a offset =
      if scope.catches offset then some scope.exit
      else exceptionTarget ⟨scope.parent⟩ a offset := by
  rw [exceptionTarget]
  split
  · simp_all
  · rename_i found hf
    cases h.symm.trans hf
    rfl

end BlockStack

end BytecodeFlow
