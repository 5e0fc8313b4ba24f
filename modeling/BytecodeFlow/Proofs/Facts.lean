import BytecodeFlow.PathFacts

/-!
# Single facts about a path

A `PathFacts` is a set of single facts. Each operation on it is said by which facts hold
afterwards: joining keeps what holds on some path, an insertion adds one fact, and a removal
takes away one fact or all restarts of one loop.
-/

namespace BytecodeFlow

/-- Something that may be pending at a point of a path. -/
inductive Fact where
  | returned
  | raised
  /-- A break out of the loop. -/
  | broken (loop : Nat)
  /-- A continue of the loop at an offset. -/
  | continued (loop : Nat) (restart : Int)
deriving DecidableEq

namespace PathFacts

/-- A single fact is among the facts of a path. -/
def Holds (f : PathFacts) : Fact → Prop
  | .returned => f.returned = true
  | .raised => f.raised = true
  | .broken loop => loop ∈ f.broken
  | .continued loop restart => (loop, restart) ∈ f.continued

instance (f : PathFacts) : (fact : Fact) → Decidable (f.Holds fact)
  | .returned => inferInstanceAs (Decidable (f.returned = true))
  | .raised => inferInstanceAs (Decidable (f.raised = true))
  | .broken loop => inferInstanceAs (Decidable (loop ∈ f.broken))
  | .continued loop restart => inferInstanceAs (Decidable ((loop, restart) ∈ f.continued))

theorem not_holds_default (fact : Fact) : ¬ Holds {} fact := by
  cases fact <;> simp [Holds]

@[simp] theorem holds_union {f g : PathFacts} {fact : Fact} :
    (f.union g).Holds fact ↔ f.Holds fact ∨ g.Holds fact := by
  cases fact with
  | returned => simp [Holds, union]
  | raised => simp [Holds, union]
  | broken loop => exact mem_broken_union
  | continued loop restart => exact mem_continued_union

theorem holds_foldl_union {paths : List PathFacts} {f : PathFacts} {fact : Fact} :
    (paths.foldl union f).Holds fact ↔ f.Holds fact ∨ ∃ g ∈ paths, g.Holds fact := by
  induction paths generalizing f with
  | nil => simp
  | cons g rest ih => simp [ih, or_assoc]

/-- The join of paths holds what holds on one of them. -/
theorem holds_join {paths : List PathFacts} {fact : Fact} :
    (join paths).Holds fact ↔ ∃ f ∈ paths, f.Holds fact := by
  simp [join, holds_foldl_union, not_holds_default]

@[simp] theorem holds_setFlag_returned {f : PathFacts} {fact : Fact} :
    (f.setFlag .returned).Holds fact ↔ fact = .returned ∨ f.Holds fact := by
  cases fact <;> simp [Holds, setFlag]

@[simp] theorem holds_setFlag_raised {f : PathFacts} {fact : Fact} :
    (f.setFlag .raised).Holds fact ↔ fact = .raised ∨ f.Holds fact := by
  cases fact <;> simp [Holds, setFlag]

@[simp] theorem holds_clearFlag_returned {f : PathFacts} {fact : Fact} :
    (f.clearFlag .returned).Holds fact ↔ fact ≠ .returned ∧ f.Holds fact := by
  cases fact <;> simp [Holds, clearFlag]

@[simp] theorem holds_insertBroken {f : PathFacts} {loop : Nat} {fact : Fact} :
    (f.insertBroken loop).Holds fact ↔ fact = .broken loop ∨ f.Holds fact := by
  cases fact with
  | broken l => simp [Holds]
  | _ => simp [Holds, insertBroken]

@[simp] theorem holds_removeBroken {f : PathFacts} {loop : Nat} {fact : Fact} :
    (f.removeBroken loop).Holds fact ↔ fact ≠ .broken loop ∧ f.Holds fact := by
  cases fact with
  | broken l => simp [Holds]
  | _ => simp [Holds, removeBroken]

@[simp] theorem holds_insertContinued {f : PathFacts} {loop : Nat} {restart : Int}
    {fact : Fact} :
    (f.insertContinued loop restart).Holds fact ↔
      fact = .continued loop restart ∨ f.Holds fact := by
  cases fact with
  | continued l r => simp [Holds]
  | _ => simp [Holds, insertContinued]

@[simp] theorem holds_removeContinued {f : PathFacts} {loop : Nat} {fact : Fact} :
    (f.removeContinued loop).Holds fact ↔
      (∀ restart, fact ≠ .continued loop restart) ∧ f.Holds fact := by
  cases fact with
  | continued l r => simp [Holds]
  | _ => simp [Holds, removeContinued]

theorem hasBroken_iff {f : PathFacts} {loop : Nat} :
    f.hasBroken loop = true ↔ f.Holds (.broken loop) := by
  simp [hasBroken, Holds]

theorem mem_restarts_iff {f : PathFacts} {loop : Nat} {restart : Int} :
    restart ∈ f.restarts loop ↔ f.Holds (.continued loop restart) :=
  mem_restarts

end PathFacts

end BytecodeFlow
