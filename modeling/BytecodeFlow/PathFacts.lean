import BytecodeFlow.Ordered

/-!
# Facts about the paths to a point

A `finally` handler is entered for several reasons, and where its `END_FINALLY` goes on depends
on them. `PathFacts` records what may be pending on some path to a point: a return, a raised
exception, and for each loop a break or continues. Facts of several paths are joined
by union.

A value of `PathFacts` is three sets: both lists ascend (`WellFormed`), so that equal sets are
equal values.
-/

namespace BytecodeFlow

/-- What happened on some path to a point. `broken` holds the loops that a break left, and
`continued` the loops that a deferred continue restarts, with the offset to restart at. -/
structure PathFacts where
  returned : Bool := false
  raised : Bool := false
  broken : List Nat := []
  continued : List (Nat × Int) := []
deriving DecidableEq, Inhabited

namespace PathFacts

/-- The facts that hold of a path by themselves, whatever the loops are. -/
inductive Flag where
  | returned | raised
deriving DecidableEq

def setFlag (f : PathFacts) : Flag → PathFacts
  | .returned => { f with returned := true }
  | .raised => { f with raised := true }

def clearFlag (f : PathFacts) : Flag → PathFacts
  | .returned => { f with returned := false }
  | .raised => { f with raised := false }

/-- The order of loops, by id. -/
def loopBefore (a b : Nat) : Bool := a < b

/-- The order of restarts, by loop and then by offset. -/
def restartBefore (a b : Nat × Int) : Bool := a.1 < b.1 || (a.1 == b.1 && a.2 < b.2)

def hasBroken (f : PathFacts) (loop : Nat) : Bool :=
  f.broken.contains loop

def insertBroken (f : PathFacts) (loop : Nat) : PathFacts :=
  { f with broken := Ordered.insert loopBefore loop f.broken }

def removeBroken (f : PathFacts) (loop : Nat) : PathFacts :=
  { f with broken := f.broken.filter (· != loop) }

/-- The offsets to restart a loop at. -/
def restarts (f : PathFacts) (loop : Nat) : List Int :=
  (f.continued.filter (·.1 == loop)).map (·.2)

def insertContinued (f : PathFacts) (loop : Nat) (restart : Int) : PathFacts :=
  { f with continued := Ordered.insert restartBefore (loop, restart) f.continued }

/-- The facts without the restarts of a loop. -/
def removeContinued (f : PathFacts) (loop : Nat) : PathFacts :=
  { f with continued := f.continued.filter (·.1 != loop) }

/-- The facts of two paths together. -/
def union (f g : PathFacts) : PathFacts where
  returned := f.returned || g.returned
  raised := f.raised || g.raised
  broken := Ordered.union loopBefore f.broken g.broken
  continued := Ordered.union restartBefore f.continued g.continued

/-- The facts of every path together. -/
def join (paths : List PathFacts) : PathFacts :=
  paths.foldl union {}

theorem strictTotal_loopBefore : Ordered.StrictTotal loopBefore where
  irrefl a := by simp [loopBefore]
  trans hab hbc := by
    simp only [loopBefore, decide_eq_true_eq] at *
    omega
  eq_of_not_before hab hba := by
    simp only [loopBefore, decide_eq_false_iff_not] at *
    omega

theorem strictTotal_restartBefore : Ordered.StrictTotal restartBefore where
  irrefl a := by simp [restartBefore]
  trans hab hbc := by
    simp only [restartBefore, Bool.or_eq_true, Bool.and_eq_true, decide_eq_true_eq,
      beq_iff_eq] at *
    omega
  eq_of_not_before {a b} hab hba := by
    simp only [restartBefore, Bool.or_eq_false_iff, Bool.and_eq_false_iff,
      decide_eq_false_iff_not, beq_eq_false_iff_ne] at *
    exact Prod.ext (by omega) (by omega)

/-- Both lists ascend. -/
structure WellFormed (f : PathFacts) : Prop where
  broken : Ordered.Ascending loopBefore f.broken
  continued : Ordered.Ascending restartBefore f.continued

theorem wellFormed_default : WellFormed {} :=
  ⟨Ordered.ascending_nil, Ordered.ascending_nil⟩

/-- The flags are apart from the lists. -/
@[simp] theorem broken_setFlag (f : PathFacts) (flag : Flag) :
    (f.setFlag flag).broken = f.broken := by
  cases flag <;> rfl

@[simp] theorem continued_setFlag (f : PathFacts) (flag : Flag) :
    (f.setFlag flag).continued = f.continued := by
  cases flag <;> rfl

@[simp] theorem broken_clearFlag (f : PathFacts) (flag : Flag) :
    (f.clearFlag flag).broken = f.broken := by
  cases flag <;> rfl

@[simp] theorem continued_clearFlag (f : PathFacts) (flag : Flag) :
    (f.clearFlag flag).continued = f.continued := by
  cases flag <;> rfl

theorem WellFormed.setFlag {f : PathFacts} (h : f.WellFormed) (flag : Flag) :
    (f.setFlag flag).WellFormed :=
  ⟨by simpa using h.broken, by simpa using h.continued⟩

theorem WellFormed.clearFlag {f : PathFacts} (h : f.WellFormed) (flag : Flag) :
    (f.clearFlag flag).WellFormed :=
  ⟨by simpa using h.broken, by simpa using h.continued⟩

theorem WellFormed.insertBroken {f : PathFacts} (h : f.WellFormed) (loop : Nat) :
    (f.insertBroken loop).WellFormed :=
  ⟨Ordered.ascending_insert strictTotal_loopBefore loop h.broken, h.continued⟩

theorem WellFormed.removeBroken {f : PathFacts} (h : f.WellFormed) (loop : Nat) :
    (f.removeBroken loop).WellFormed :=
  ⟨h.broken.filter _, h.continued⟩

theorem WellFormed.insertContinued {f : PathFacts} (h : f.WellFormed) (loop : Nat)
    (restart : Int) : (f.insertContinued loop restart).WellFormed :=
  ⟨h.broken, Ordered.ascending_insert strictTotal_restartBefore _ h.continued⟩

theorem WellFormed.removeContinued {f : PathFacts} (h : f.WellFormed) (loop : Nat) :
    (f.removeContinued loop).WellFormed :=
  ⟨h.broken, h.continued.filter _⟩

theorem WellFormed.union {f : PathFacts} (h : f.WellFormed) (g : PathFacts) :
    (f.union g).WellFormed :=
  ⟨Ordered.ascending_union strictTotal_loopBefore h.broken _,
    Ordered.ascending_union strictTotal_restartBefore h.continued _⟩

@[simp] theorem mem_broken_insertBroken {f : PathFacts} {loop l : Nat} :
    l ∈ (f.insertBroken loop).broken ↔ l = loop ∨ l ∈ f.broken :=
  Ordered.mem_insert strictTotal_loopBefore

@[simp] theorem mem_broken_removeBroken {f : PathFacts} {loop l : Nat} :
    l ∈ (f.removeBroken loop).broken ↔ l ≠ loop ∧ l ∈ f.broken := by
  simp [removeBroken, and_comm]

@[simp] theorem mem_continued_insertContinued {f : PathFacts} {loop : Nat} {restart : Int}
    {entry : Nat × Int} :
    entry ∈ (f.insertContinued loop restart).continued ↔
      entry = (loop, restart) ∨ entry ∈ f.continued :=
  Ordered.mem_insert strictTotal_restartBefore

@[simp] theorem mem_continued_removeContinued {f : PathFacts} {loop : Nat}
    {entry : Nat × Int} :
    entry ∈ (f.removeContinued loop).continued ↔ entry.1 ≠ loop ∧ entry ∈ f.continued := by
  simp [removeContinued, and_comm]

@[simp] theorem mem_broken_union {f g : PathFacts} {l : Nat} :
    l ∈ (f.union g).broken ↔ l ∈ f.broken ∨ l ∈ g.broken :=
  Ordered.mem_union strictTotal_loopBefore

@[simp] theorem mem_continued_union {f g : PathFacts} {entry : Nat × Int} :
    entry ∈ (f.union g).continued ↔ entry ∈ f.continued ∨ entry ∈ g.continued :=
  Ordered.mem_union strictTotal_restartBefore

theorem mem_restarts {f : PathFacts} {loop : Nat} {restart : Int} :
    restart ∈ f.restarts loop ↔ (loop, restart) ∈ f.continued := by
  simp [restarts]

end PathFacts

end BytecodeFlow
