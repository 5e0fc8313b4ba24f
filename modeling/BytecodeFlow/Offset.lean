/-!
# Offsets

Instructions are addressed by signed 32-bit byte offsets. Code starts at `entry`; `exit` is no
instruction but stands for leaving the function.
-/

namespace BytecodeFlow.Offset

/-- The first instruction of every code unit. -/
def entry : Int := 0

/-- The point where the function has been left. -/
def exit : Int := -1

/-- The greatest offset. -/
def greatest : Nat := 0x7fffffff

/-- The least offset. -/
def least : Int := -0x80000000

def isExit (offset : Int) : Bool := offset == exit

/-- The offset that an unsigned number denotes, if it is in range. -/
def ofNat? (value : Nat) : Option Int :=
  if value ≤ greatest then some value else none

/-- The text for a number that is no offset. -/
def outOfRangeMessage (value : Nat) : String :=
  "offset " ++ toString value ++ " is out of range"

theorem ofNat?_eq_some_iff {value : Nat} {offset : Int} :
    ofNat? value = some offset ↔ value ≤ greatest ∧ (value : Int) = offset := by
  simp [ofNat?]

theorem nonneg_of_ofNat? {value : Nat} {offset : Int} (h : ofNat? value = some offset) :
    0 ≤ offset := by
  have := (ofNat?_eq_some_iff.1 h).2
  omega

end BytecodeFlow.Offset
