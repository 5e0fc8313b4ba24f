/-!
# Computations that can fail

How sequences of computations with errors go on: with the result of the first one, or not at all.
-/

namespace BytecodeFlow

variable {ε α β : Type}

@[simp] theorem ok_bind (v : α) (g : α → Except ε β) : (.ok v >>= g) = g v := rfl

@[simp] theorem error_bind (e : ε) (g : α → Except ε β) : (.error e >>= g) = .error e := rfl

@[simp] theorem pure_eq_ok (v : α) : (pure v : Except ε α) = .ok v := rfl

/-- A computation goes well exactly if its parts do. -/
theorem bind_eq_ok_iff {x : Except ε α} {g : α → Except ε β} {y : β} :
    x >>= g = .ok y ↔ ∃ v, x = .ok v ∧ g v = .ok y := by
  cases x with
  | error e => simp
  | ok v => simp

theorem map_eq_ok_iff {x : Except ε α} {f : α → β} {y : β} :
    x.map f = .ok y ↔ ∃ v, x = .ok v ∧ f v = y := by
  cases x with
  | error e => simp [Except.map]
  | ok v => simp [Except.map]

theorem mem_toOption_iff {x : Except ε α} {v : α} : v ∈ x.toOption ↔ x = .ok v := by
  cases x with
  | error e => simp [Except.toOption]
  | ok w => simp [Except.toOption]

end BytecodeFlow
