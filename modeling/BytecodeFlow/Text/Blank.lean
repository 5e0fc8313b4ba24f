/-!
# Blank characters

The characters that separate words in a listing: the Unicode property White_Space. `isBlank`
decides it from a table of ranges, and `trim` removes blanks from both ends of a text. A text
without blanks at its ends (`IsTrimmed`) stays as it is.
-/

namespace BytecodeFlow.Text

/-- The code points of the property White_Space, as inclusive ranges in ascending order. -/
def blankRanges : List (Nat × Nat) :=
  [(0x09, 0x0D), (0x20, 0x20), (0x85, 0x85), (0xA0, 0xA0), (0x1680, 0x1680), (0x2000, 0x200A),
    (0x2028, 0x2029), (0x202F, 0x202F), (0x205F, 0x205F), (0x3000, 0x3000)]

/-- Whether a character separates words. -/
def isBlank (c : Char) : Bool :=
  blankRanges.any fun (low, high) => low ≤ c.toNat && c.toNat ≤ high

/-- The text without the blanks at its end. -/
def trimEnd (cs : List Char) : List Char :=
  (cs.reverse.dropWhile isBlank).reverse

/-- The text without the blanks at either end. -/
def trim (cs : List Char) : List Char :=
  trimEnd (cs.dropWhile isBlank)

@[simp] theorem isBlank_lineFeed : isBlank '\n' = true := rfl

@[simp] theorem isBlank_carriageReturn : isBlank '\r' = true := rfl

@[simp] theorem isBlank_space : isBlank ' ' = true := rfl

/-- The printable characters of ASCII separate no words. -/
theorem isBlank_of_printable {c : Char} (h : 0x20 < c.toNat) (h' : c.toNat < 0x7F) :
    isBlank c = false := by
  simp only [isBlank, blankRanges, List.any_cons, List.any_nil, Bool.or_false,
    Bool.or_eq_false_iff, Bool.and_eq_false_iff, decide_eq_false_iff_not]
  omega

theorem isBlank_of_isDigit {c : Char} (h : c.isDigit = true) : isBlank c = false := by
  simp only [Char.isDigit, Bool.and_eq_true, decide_eq_true_eq] at h
  have hlow : 48 ≤ c.toNat := h.1
  have hhigh : c.toNat ≤ 57 := h.2
  exact isBlank_of_printable (by omega) (by omega)

/-- The code points of upper-case letters. -/
theorem toNat_of_isUpper {c : Char} (h : c.isUpper = true) : 65 ≤ c.toNat ∧ c.toNat ≤ 90 :=
  of_decide_eq_true h

theorem isBlank_of_isUpper {c : Char} (h : c.isUpper = true) : isBlank c = false := by
  have := toNat_of_isUpper h
  exact isBlank_of_printable (by omega) (by omega)

/-- Blanks before a text do not show after trimming. -/
theorem trim_append_left {bs : List Char} (h : ∀ c ∈ bs, isBlank c = true) (cs : List Char) :
    trim (bs ++ cs) = trim cs := by
  rw [trim, trim, List.dropWhile_append_of_pos h]

theorem trimEnd_append_right {bs : List Char} (h : ∀ c ∈ bs, isBlank c = true) (cs : List Char) :
    trimEnd (cs ++ bs) = trimEnd cs := by
  rw [trimEnd, trimEnd, List.reverse_append, List.dropWhile_append_of_pos (by simpa using h)]

/-- Blanks after a text do not show after trimming. -/
theorem trim_append_right {bs : List Char} (h : ∀ c ∈ bs, isBlank c = true) (cs : List Char) :
    trim (cs ++ bs) = trim cs := by
  rw [trim, trim, List.dropWhile_append]
  split
  · rename_i hempty
    have hblank : (bs ++ []).dropWhile isBlank = [] := List.dropWhile_append_of_pos h
    rw [List.isEmpty_iff.1 hempty, ← List.append_nil bs, hblank]
  · exact trimEnd_append_right h _

/-- Only blanks are cut off at the end. -/
theorem exists_trimEnd_append (cs : List Char) :
    ∃ bs, cs = trimEnd cs ++ bs ∧ ∀ c ∈ bs, isBlank c = true := by
  refine ⟨(cs.reverse.takeWhile isBlank).reverse, ?_, ?_⟩
  · rw [trimEnd, ← List.reverse_append, List.takeWhile_append_dropWhile, List.reverse_reverse]
  · simpa using List.all_eq_true.1 List.all_takeWhile

/-- Nothing is cut off at the end from a character on that is not blank. -/
theorem trimEnd_append_cons {c : Char} (hc : isBlank c = false) (as cs : List Char) :
    trimEnd (as ++ c :: cs) = as ++ c :: trimEnd cs := by
  have hstop : ¬ isBlank c = true := by simp [hc]
  rw [trimEnd, trimEnd, List.reverse_append, List.reverse_cons, List.append_assoc,
    List.dropWhile_append]
  split
  · rename_i hempty
    rw [List.isEmpty_iff.1 hempty, List.singleton_append, List.dropWhile_cons_of_neg hstop]
    simp
  · simp

/-- A trimmed text starts with the first character that is not blank. -/
theorem head?_trim (cs : List Char) : (trim cs).head? = cs.find? fun c => !isBlank c := by
  induction cs with
  | nil => rfl
  | cons c cs ih =>
    cases hc : isBlank c with
    | true =>
      rw [← List.singleton_append, trim_append_left (by simpa using hc), ih]
      simp [hc]
    | false =>
      have htrim : trim (c :: cs) = c :: trimEnd cs := by
        rw [trim, List.dropWhile_cons_of_neg (by simp [hc])]
        exact trimEnd_append_cons hc [] cs
      simp [htrim, hc]

/-! ## Trimmed texts -/

/-- The text is not empty, and there is no blank at either end of it. -/
structure IsTrimmed (cs : List Char) : Prop where
  first : ∃ c rest, cs = c :: rest ∧ isBlank c = false
  last : ∃ before c, cs = before ++ [c] ∧ isBlank c = false

theorem IsTrimmed.ne_nil {cs : List Char} (h : IsTrimmed cs) : cs ≠ [] := by
  obtain ⟨c, rest, rfl, _⟩ := h.first
  simp

theorem IsTrimmed.trim_eq {cs : List Char} (h : IsTrimmed cs) : trim cs = cs := by
  obtain ⟨c, rest, hfirst, hc⟩ := h.first
  obtain ⟨before, d, hlast, hd⟩ := h.last
  have hstart : cs.dropWhile isBlank = cs := by
    rw [hfirst, List.dropWhile_cons_of_neg (by simp [hc])]
  rw [trim, hstart, trimEnd, hlast, List.reverse_append, List.reverse_singleton,
    List.singleton_append, List.dropWhile_cons_of_neg (by simp [hd])]
  simp

/-- What stands between two trimmed texts does not matter. -/
theorem IsTrimmed.append {as bs : List Char} (ha : IsTrimmed as) (mid : List Char)
    (hb : IsTrimmed bs) : IsTrimmed (as ++ mid ++ bs) := by
  obtain ⟨c, rest, rfl, hc⟩ := ha.first
  obtain ⟨before, d, rfl, hd⟩ := hb.last
  exact ⟨⟨c, _, rfl, hc⟩, ⟨_, d, (List.append_assoc _ _ _).symm, hd⟩⟩

theorem IsTrimmed.intercalate (sep : List Char) {ls : List (List Char)} (hne : ls ≠ [])
    (h : ∀ l ∈ ls, IsTrimmed l) : IsTrimmed (sep.intercalate ls) := by
  induction ls with
  | nil => exact absurd rfl hne
  | cons l rest ih =>
    have hl := h l (by simp)
    cases rest with
    | nil => simpa using hl
    | cons next rest =>
      rw [List.intercalate_cons_cons]
      exact hl.append sep (ih (by simp) fun m hm => h m (by simp [hm]))

end BytecodeFlow.Text
