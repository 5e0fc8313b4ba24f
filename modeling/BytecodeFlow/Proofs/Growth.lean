import BytecodeFlow.Resolution

/-!
# Arenas grow and stacks stay

While a graph is built its arena only gains scopes. A stack whose innermost scope is in an arena
reads the same in every arena that grew from it (`BlockStack.toList_of_growsTo`), so what is
found out about a stack at one visit stays true until the graph is finished.
-/

namespace BytecodeFlow

/-- Every scope of the first arena is in the second, under the same id. -/
def Arena.GrowsTo (a b : Arena) : Prop :=
  ∀ id scope, a.get? id = some scope → b.get? id = some scope

namespace Arena

theorem GrowsTo.refl (a : Arena) : a.GrowsTo a := fun _ _ h => h

theorem GrowsTo.trans {a b c : Arena} (hab : a.GrowsTo b) (hbc : b.GrowsTo c) : a.GrowsTo c :=
  fun id scope h => hbc id scope (hab id scope h)

theorem GrowsTo.lt_size {a b : Arena} (h : a.GrowsTo b) {id : Nat} (hid : id < a.size) :
    id < b.size := by
  obtain ⟨scope, hs⟩ := Option.isSome_iff_exists.1 (get?_isSome_iff.2 hid)
  exact lt_size_of_get? (h id scope hs)

theorem growsTo_add (a : Arena) (kind : ScopeKind) (exit origin : Int) (parent : Option Nat) :
    a.GrowsTo (a.add kind exit origin parent) := by
  intro id scope h
  rw [get?_add_of_lt (lt_size_of_get? h)]
  exact h

end Arena

namespace BlockStack

/-- The innermost scope is in the arena, and with it all others. -/
def Within (s : BlockStack) (a : Arena) : Prop := ∀ id ∈ s.top, id < a.size

theorem within_empty (a : Arena) : empty.Within a := by
  intro id h
  cases h

theorem Within.mono {s : BlockStack} {a b : Arena} (hs : s.Within a) (h : a.GrowsTo b) :
    s.Within b := fun id hid => h.lt_size (hs id hid)

/-- What is around a scope of the arena is in the arena. -/
theorem within_parent {a : Arena} {id : Nat} {scope : Scope} (h : a.get? id = some scope) :
    Within ⟨scope.parent⟩ a := by
  intro p hp
  exact Nat.lt_trans (a.parent_lt h hp) (Arena.lt_size_of_get? h)

theorem Within.get? {a : Arena} {id : Nat} (h : Within ⟨some id⟩ a) :
    ∃ scope, a.get? id = some scope :=
  Option.isSome_iff_exists.1 (Arena.get?_isSome_iff.2 (h id rfl))

/-- A stack reads the same in an arena that has grown. -/
theorem toList_of_growsTo {s : BlockStack} {a b : Arena} (hs : s.Within a) (h : a.GrowsTo b) :
    s.toList b = s.toList a := by
  induction s using induction (a := a) with
  | none => simp
  | dangling id hg =>
    -- a cursor to no scope is not within the arena
    obtain ⟨scope, hscope⟩ := hs.get?
    simp [hg] at hscope
  | some id scope hg ih =>
    rw [toList_some hg, toList_some (h id scope hg), ih (within_parent hg)]

/-- Leaving the scopes that end on the way to an offset leaves the same ones later. -/
theorem popUntil_of_growsTo {s : BlockStack} {a b : Arena} (hs : s.Within a)
    (h : a.GrowsTo b) (offset : Int) : s.popUntil b offset = s.popUntil a offset := by
  induction s using induction (a := a) with
  | none => simp
  | dangling id hg =>
    obtain ⟨scope, hscope⟩ := hs.get?
    simp [hg] at hscope
  | some id scope hg ih =>
    by_cases ho : offset < scope.exit
    · rw [popUntil_open hg ho, popUntil_open (h id scope hg) ho]
    · rw [popUntil_left hg ho, popUntil_left (h id scope hg) ho, ih (within_parent hg)]

theorem Within.popUntil {s : BlockStack} {a : Arena} (hs : s.Within a) (offset : Int) :
    (s.popUntil a offset).Within a := by
  induction s using induction (a := a) with
  | none => simpa using within_empty a
  | dangling id hg =>
    rw [popUntil_dangling hg]
    exact within_empty a
  | some id scope hg ih =>
    by_cases ho : offset < scope.exit
    · rw [popUntil_open hg ho]
      exact hs
    · rw [popUntil_left hg ho]
      exact ih (within_parent hg)

/-! ## The scopes of a stack -/

theorem get?_of_mem_toList {s : BlockStack} {a : Arena} {x : Nat × Scope}
    (h : x ∈ s.toList a) : a.get? x.1 = some x.2 := by
  induction s using induction (a := a) with
  | none => simp at h
  | dangling id hg => simp [toList_dangling hg] at h
  | some id scope hg ih =>
    rw [toList_some hg, List.mem_cons] at h
    rcases h with rfl | h
    · exact hg
    · exact ih h

/-- No id on a stack is greater than the top. -/
theorem le_top_of_mem_toList {s : BlockStack} {a : Arena} {x : Nat × Scope}
    (h : x ∈ s.toList a) : ∃ id ∈ s.top, x.1 ≤ id := by
  induction s using induction (a := a) with
  | none => simp at h
  | dangling id hg => simp [toList_dangling hg] at h
  | some id scope hg ih =>
    rw [toList_some hg, List.mem_cons] at h
    refine ⟨id, rfl, ?_⟩
    rcases h with rfl | h
    · exact Nat.le_refl _
    · obtain ⟨p, hp, hle⟩ := ih h
      have := a.parent_lt hg hp
      omega

/-- Ids descend from the inside outwards, so that no scope is on a stack twice. -/
theorem pairwise_toList (s : BlockStack) (a : Arena) :
    (s.toList a).Pairwise fun x y => y.1 < x.1 := by
  induction s using induction (a := a) with
  | none => simp
  | dangling id hg => simp [toList_dangling hg]
  | some id scope hg ih =>
    rw [toList_some hg, List.pairwise_cons]
    refine ⟨?_, ih⟩
    intro y hy
    obtain ⟨p, hp, hle⟩ := le_top_of_mem_toList hy
    exact Nat.lt_of_le_of_lt hle (a.parent_lt hg hp)

/-- What is around a scope of a stack is the rest of the stack. -/
theorem toList_parent {s : BlockStack} {a : Arena} {x : Nat × Scope}
    {inner outer : List (Nat × Scope)} (h : s.toList a = inner ++ x :: outer) :
    toList ⟨x.2.parent⟩ a = outer := by
  induction s using induction (a := a) generalizing inner with
  | none => simp at h
  | dangling id hg => simp [toList_dangling hg] at h
  | some id scope hg ih =>
    rw [toList_some hg] at h
    cases inner with
    | nil =>
      obtain ⟨rfl, hrest⟩ := List.cons.inj h
      exact hrest
    | cons y inner => exact ih (List.cons.inj h).2

end BlockStack

end BytecodeFlow
