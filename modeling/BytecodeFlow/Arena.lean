import BytecodeFlow.Scope

/-!
# The arena of scopes

All scopes of one graph are kept in an arena, which only grows. A scope is named by its position;
its parent was there before it (`Arena.parent_lt`), so that every chain of parents ends.
-/

namespace BytecodeFlow

/-- The scopes created so far. -/
structure Arena where
  scopes : Array Scope
  parent_lt : ∀ {id : Nat} {s : Scope} {p : Nat},
    scopes[id]? = some s → s.parent = some p → p < id

namespace Arena

def empty : Arena where
  scopes := #[]
  parent_lt := by simp

instance : Inhabited Arena := ⟨empty⟩

def size (a : Arena) : Nat := a.scopes.size

def isEmpty (a : Arena) : Bool := a.scopes.isEmpty

/-- The scope of an id. -/
def get? (a : Arena) (id : Nat) : Option Scope := a.scopes[id]?

/-- Creates a scope; its id is the size so far. A parent that is not in the arena is no
parent. -/
def add (a : Arena) (kind : ScopeKind) (exit origin : Int) (parent : Option Nat) : Arena where
  scopes := a.scopes.push ⟨kind, exit, origin, parent.filter (· < a.size)⟩
  parent_lt := by
    intro id s p h hp
    rw [Array.getElem?_push] at h
    split at h
    · cases h
      simp only [Option.filter_eq_some_iff, decide_eq_true_eq] at hp
      simp only [size] at hp
      omega
    · exact a.parent_lt h hp

/-- How far a chain of parents can go on from an id, or from nowhere. -/
def rank : Option Nat → Nat
  | none => 0
  | some id => id + 1

theorem rank_parent_lt {a : Arena} {id : Nat} {s : Scope} (h : a.get? id = some s) :
    rank s.parent < rank (some id) := by
  cases hp : s.parent with
  | none => simp [rank]
  | some p =>
    have := a.parent_lt h hp
    simp only [rank]
    omega

@[ext] theorem ext {a b : Arena} (h : a.scopes = b.scopes) : a = b := by
  cases a
  cases b
  cases h
  rfl

@[simp] theorem size_empty : empty.size = 0 := rfl

@[simp] theorem get?_empty (id : Nat) : empty.get? id = none := rfl

@[simp] theorem size_add (a : Arena) (kind : ScopeKind) (exit origin : Int)
    (parent : Option Nat) : (a.add kind exit origin parent).size = a.size + 1 := by
  simp [add, size]

theorem get?_isSome_iff {a : Arena} {id : Nat} : (a.get? id).isSome ↔ id < a.size := by
  simp [get?, size]

theorem lt_size_of_get? {a : Arena} {id : Nat} {s : Scope} (h : a.get? id = some s) :
    id < a.size := by
  exact get?_isSome_iff.1 (by simp [h])

/-- Creating a scope leaves the earlier ones as they are. -/
theorem get?_add_of_lt {a : Arena} {id : Nat} (h : id < a.size) (kind : ScopeKind)
    (exit origin : Int) (parent : Option Nat) :
    (a.add kind exit origin parent).get? id = a.get? id := by
  have hne : id ≠ a.scopes.size := Nat.ne_of_lt h
  simp [get?, add, Array.getElem?_push, hne]

/-- The scope just created, when its parent is in the arena. -/
theorem get?_add_self (a : Arena) (kind : ScopeKind) (exit origin : Int) {parent : Option Nat}
    (h : ∀ p ∈ parent, p < a.size) :
    (a.add kind exit origin parent).get? a.size = some ⟨kind, exit, origin, parent⟩ := by
  have hf : parent.filter (· < a.size) = parent := by
    cases parent with
    | none => rfl
    | some p => simpa using h p rfl
  simp only [get?, add, hf]
  exact Array.getElem?_push_size

end Arena

end BytecodeFlow
