import BytecodeFlow.Arena
import BytecodeFlow.LookupError

/-!
# Block stacks

The interpreter keeps a stack of active blocks. `BlockStack` is the stack at one point of a
program: a cursor that names the innermost scope in an arena. Pushing adds a scope to the arena
and leaves every other stack as it was; popping moves the cursor to the parent.

`toList` reads a stack as the list of its scopes, innermost first, and the other operations act
on that list: `toList_push`, `toList_pop` and `toList_popUntil`.
-/

namespace BytecodeFlow

/-- The block stack at a point of a program. It has a meaning only with its arena. -/
structure BlockStack where
  top : Option Nat
deriving DecidableEq, Inhabited

namespace BlockStack

def empty : BlockStack := ⟨none⟩

def isEmpty (s : BlockStack) : Bool := s.top.isNone

/-- Opens a scope inside the present one: the arena with the scope, and the stack on it. -/
def push (s : BlockStack) (a : Arena) (kind : ScopeKind) (exit origin : Int) :
    Arena × BlockStack :=
  (a.add kind exit origin s.top, ⟨some a.size⟩)

/-- The stack without its innermost scope. -/
def pop (s : BlockStack) (a : Arena) : Except LookupError BlockStack :=
  match s.top.bind a.get? with
  | some scope => .ok ⟨scope.parent⟩
  | none => .error .emptyStack

/-- The ids and scopes, from the innermost outwards. -/
def toList (s : BlockStack) (a : Arena) : List (Nat × Scope) :=
  match s with
  | ⟨none⟩ => []
  | ⟨some id⟩ =>
    match _h : a.get? id with
    | none => []
    | some scope => (id, scope) :: toList ⟨scope.parent⟩ a
termination_by Arena.rank s.top
decreasing_by exact Arena.rank_parent_lt ‹_›

/-- The stack that is left once control has come to an offset: scopes that end there or before
are dropped, up to the innermost one that is still open. -/
def popUntil (s : BlockStack) (a : Arena) (offset : Int) : BlockStack :=
  match s with
  | ⟨none⟩ => empty
  | ⟨some id⟩ =>
    match _h : a.get? id with
    | none => empty
    | some scope =>
      if offset < scope.exit then ⟨some id⟩ else popUntil ⟨scope.parent⟩ a offset
termination_by Arena.rank s.top
decreasing_by exact Arena.rank_parent_lt ‹_›

/-- The scopes, from the innermost outwards. -/
def scopes (s : BlockStack) (a : Arena) : List Scope :=
  (s.toList a).map (·.2)

def depth (s : BlockStack) (a : Arena) : Nat :=
  (s.toList a).length

/-- The scope `index` levels below the top, which has index 0. -/
def peek (s : BlockStack) (a : Arena) (index : Nat) : Except LookupError Scope :=
  match (s.scopes a)[index]? with
  | some scope => .ok scope
  | none => .error (.stackIndexOutOfRange index (s.depth a))

/-- The innermost loop, with its id. -/
def innermostLoop? (s : BlockStack) (a : Arena) : Option (Nat × Scope) :=
  (s.toList a).find? (·.2.kind.isLoop)

/-- How the stack is shown, as in `[finally at 14 (exit 30), loop at 0 (exit 44)]`. -/
def render (s : BlockStack) (a : Arena) : String :=
  Scope.renderStack (s.scopes a)

/-! ## Reading a stack as a list -/

@[simp] theorem toList_empty (a : Arena) : empty.toList a = [] := by
  simp [empty, toList]

theorem toList_none (a : Arena) : toList ⟨none⟩ a = [] := by
  simp [toList]

theorem toList_some {a : Arena} {id : Nat} {scope : Scope} (h : a.get? id = some scope) :
    toList ⟨some id⟩ a = (id, scope) :: toList ⟨scope.parent⟩ a := by
  rw [toList]
  split <;> simp_all

theorem toList_dangling {a : Arena} {id : Nat} (h : a.get? id = none) :
    toList ⟨some id⟩ a = [] := by
  rw [toList]
  split <;> simp_all

@[simp] theorem popUntil_empty (a : Arena) (offset : Int) :
    empty.popUntil a offset = empty := by
  simp [empty, popUntil]

theorem popUntil_open {a : Arena} {id : Nat} {scope : Scope} {offset : Int}
    (h : a.get? id = some scope) (ho : offset < scope.exit) :
    popUntil ⟨some id⟩ a offset = ⟨some id⟩ := by
  rw [popUntil]
  split <;> simp_all

theorem popUntil_left {a : Arena} {id : Nat} {scope : Scope} {offset : Int}
    (h : a.get? id = some scope) (ho : ¬ offset < scope.exit) :
    popUntil ⟨some id⟩ a offset = popUntil ⟨scope.parent⟩ a offset := by
  rw [popUntil]
  split
  · simp_all
  · rename_i found hf
    cases h.symm.trans hf
    rw [if_neg ho]

theorem popUntil_dangling {a : Arena} {id : Nat} {offset : Int} (h : a.get? id = none) :
    popUntil ⟨some id⟩ a offset = empty := by
  rw [popUntil]
  split <;> simp_all

/-- Induction along a stack, from the outermost scope inwards. -/
theorem induction {a : Arena} {motive : BlockStack → Prop} (none : motive empty)
    (dangling : ∀ id, a.get? id = Option.none → motive ⟨some id⟩)
    (some : ∀ id scope, a.get? id = some scope → motive ⟨scope.parent⟩ → motive ⟨some id⟩)
    (s : BlockStack) : motive s := by
  obtain ⟨top⟩ := s
  cases top with
  | none => exact none
  | some id =>
    induction id using Nat.strongRecOn with
    | _ id ih =>
      cases h : a.get? id with
      | none => exact dangling id h
      | some scope =>
        refine some id scope h ?_
        cases hp : scope.parent with
        | none => exact none
        | some p => exact ih p (a.parent_lt h hp)

/-- Popping until an offset drops the scopes that end there or before, from the inside. -/
theorem toList_popUntil (s : BlockStack) (a : Arena) (offset : Int) :
    (s.popUntil a offset).toList a =
      (s.toList a).dropWhile fun (_, scope) => scope.exit ≤ offset := by
  induction s using induction (a := a) with
  | none => simp
  | dangling id h => simp [popUntil_dangling h, toList_dangling h]
  | some id scope h ih =>
    rw [toList_some h, List.dropWhile_cons]
    by_cases ho : offset < scope.exit
    · simp [popUntil_open h ho, toList_some h, Int.not_le.2 ho]
    · simpa [popUntil_left h ho, Int.not_lt.1 ho] using ih

/-- Popping on the way to an offset leaves nothing out and takes nothing away. -/
theorem popUntil_popUntil (s : BlockStack) (a : Arena) (first second : Int) :
    (s.popUntil a first).popUntil a second = s.popUntil a (max first second) := by
  induction s using induction (a := a) with
  | none => simp
  | dangling id h => simp [popUntil_dangling h]
  | some id scope h ih =>
    by_cases hfirst : first < scope.exit
    · rw [popUntil_open h hfirst]
      by_cases hsecond : second < scope.exit
      · rw [popUntil_open h hsecond, popUntil_open h (by omega)]
      · rw [show max first second = second by omega]
    · rw [popUntil_left h hfirst, popUntil_left h (by omega : ¬ max first second < scope.exit), ih]

/-- Popping drops the head of the list. -/
theorem toList_pop {s t : BlockStack} {a : Arena} (h : s.pop a = .ok t) :
    t.toList a = (s.toList a).tail := by
  obtain ⟨top⟩ := s
  cases top with
  | none => simp [pop] at h
  | some id =>
    cases hg : a.get? id with
    | none => simp [pop, hg] at h
    | some scope =>
      simp only [pop, Option.bind_some, hg, Except.ok.injEq] at h
      rw [toList_some hg, ← h, List.tail_cons]

/-- A stack from before a scope was added reads the same after it. -/
theorem toList_add {s : BlockStack} {a : Arena} (h : ∀ id ∈ s.top, id < a.size)
    (kind : ScopeKind) (exit origin : Int) (parent : Option Nat) :
    s.toList (a.add kind exit origin parent) = s.toList a := by
  induction s using induction (a := a) with
  | none => simp
  | dangling id hg =>
    have := Arena.get?_isSome_iff.2 (h id rfl)
    simp [hg] at this
  | some id scope hg ih =>
    have hg' := Arena.get?_add_of_lt (h id rfl) kind exit origin parent
    rw [hg] at hg'
    rw [toList_some hg, toList_some hg', ih fun p hp => ?_]
    exact Nat.lt_trans (a.parent_lt hg hp) (h id rfl)

/-- Pushing puts one scope in front of the list. -/
theorem toList_push {s : BlockStack} {a : Arena} (h : ∀ id ∈ s.top, id < a.size)
    (kind : ScopeKind) (exit origin : Int) :
    (s.push a kind exit origin).2.toList (s.push a kind exit origin).1 =
      (a.size, ⟨kind, exit, origin, s.top⟩) :: s.toList a := by
  rw [push, toList_some (Arena.get?_add_self a kind exit origin h), toList_add h]

end BlockStack

end BytecodeFlow
