import BytecodeFlow.Text.Pieces

/-!
# Decimal numerals

Readers for unsigned and signed 32-bit numbers: an optional sign and at least one ASCII digit,
leading zeros allowed, and nothing else. A printed number is one word (`isWord_toString`), and
reading it gives the number back (`unsigned?_toString`, `signed?_toString`).
-/

namespace BytecodeFlow.Text

/-- The number that a non-empty run of ASCII digits denotes. -/
def digits? (cs : List Char) : Option Nat :=
  if !cs.isEmpty && cs.all Char.isDigit then some (Nat.ofDigitChars 10 cs 0) else none

/-- The text without one plus sign in front. -/
def dropPlus : List Char → List Char
  | '+' :: cs => cs
  | cs => cs

/-- Reads an unsigned 32-bit number, which one plus sign may precede. -/
def unsigned? (cs : List Char) : Option Nat :=
  (digits? (dropPlus cs)).filter (· < 0x100000000)

/-- Reads a signed 32-bit number, which one plus or minus sign may precede. -/
def signed? : List Char → Option Int
  | '-' :: cs => ((digits? cs).filter (· ≤ 0x80000000)).map fun n => -(n : Int)
  | cs => ((digits? (dropPlus cs)).filter (· < 0x80000000)).map fun n => (n : Int)

theorem isDigit_of_mem_toString {n : Nat} {c : Char} (h : c ∈ (toString n).toList) :
    c.isDigit = true := by
  rw [Nat.toString_eq_repr, Nat.toList_repr] at h
  exact Nat.isDigit_of_mem_toDigits (by decide) (by decide) h

theorem toList_toString_ne_nil (n : Nat) : (toString n).toList ≠ [] := by
  rw [Nat.toString_eq_repr, Nat.toList_repr]
  exact Nat.toDigits_ne_nil

theorem digits?_toString (n : Nat) : digits? (toString n).toList = some n := by
  have hne : (toString n).toList.isEmpty = false :=
    List.isEmpty_eq_false_iff.2 (toList_toString_ne_nil n)
  have hall : (toString n).toList.all Char.isDigit = true :=
    List.all_eq_true.2 fun _ hc => isDigit_of_mem_toString hc
  rw [digits?, hne, hall, Nat.toString_eq_repr, Nat.toList_repr]
  simp

/-- Digits have no plus sign to drop. -/
theorem dropPlus_of_isDigit {cs : List Char} (h : ∀ c ∈ cs, c.isDigit = true) :
    dropPlus cs = cs := by
  unfold dropPlus
  split
  · exact absurd (h '+' (by simp)) (by decide)
  · rfl

/-- A printed number below `0x100000000` reads back. -/
theorem unsigned?_toString {n : Nat} (h : n < 0x100000000) :
    unsigned? (toString n).toList = some n := by
  rw [unsigned?, dropPlus_of_isDigit fun _ hc => isDigit_of_mem_toString hc, digits?_toString]
  simpa using h

/-- A number that is not negative is printed without a sign. -/
theorem toString_of_nonneg {n : Int} (h : 0 ≤ n) : toString n = toString n.toNat := by
  obtain ⟨m, rfl⟩ := Int.eq_ofNat_of_zero_le h
  rfl

theorem toList_toString_negSucc (m : Nat) :
    (toString (Int.negSucc m)).toList = '-' :: (toString (m + 1)).toList := by
  simp [Int.toString_eq_repr, Int.repr, Nat.toString_eq_repr]

/-- A printed integer is made of digits and a minus sign. -/
theorem isDigit_or_eq_minus_of_mem_toString {n : Int} {c : Char} (h : c ∈ (toString n).toList) :
    c.isDigit = true ∨ c = '-' := by
  cases n with
  | ofNat m => exact .inl (isDigit_of_mem_toString (n := m) h)
  | negSucc m =>
    rw [toList_toString_negSucc, List.mem_cons] at h
    exact h.symm.imp_left isDigit_of_mem_toString

theorem isWord_toString (n : Int) : IsWord (toString n).toList := by
  constructor
  · cases n with
    | ofNat m => exact toList_toString_ne_nil m
    | negSucc m =>
      rw [toList_toString_negSucc]
      exact List.cons_ne_nil _ _
  · intro c hc
    rcases isDigit_or_eq_minus_of_mem_toString hc with h | rfl
    · exact isBlank_of_isDigit h
    · rfl

/-- A printed number of 32 bits reads back with its sign. -/
theorem signed?_toString {n : Int} (h : -0x80000000 ≤ n) (h' : n < 0x80000000) :
    signed? (toString n).toList = some n := by
  cases n with
  | ofNat m =>
    have hdigits : ∀ c ∈ (toString m).toList, c.isDigit = true :=
      fun c hc => isDigit_of_mem_toString hc
    have hm : m < 0x80000000 := Int.ofNat_lt.1 h'
    show signed? (toString m).toList = some (m : Int)
    unfold signed?
    split
    · rename_i cs heq
      rw [heq] at hdigits
      exact absurd (hdigits '-' (by simp)) (by decide)
    · rw [dropPlus_of_isDigit hdigits, digits?_toString,
        Option.filter_some_pos (by simpa using hm)]
      rfl
  | negSucc m =>
    have hm : m + 1 ≤ 0x80000000 := by omega
    rw [toList_toString_negSucc, signed?, digits?_toString,
      Option.filter_some_pos (by simpa using hm)]
    rfl

/-- A number that has been read is below `0x100000000`. -/
theorem lt_of_unsigned? {cs : List Char} {n : Nat} (h : unsigned? cs = some n) :
    n < 0x100000000 := by
  simpa using (Option.filter_eq_some_iff.1 h).2

end BytecodeFlow.Text
