/-!
# Ascending lists

A finite set kept as a strictly ascending list, so that equal sets are equal lists. `insert`
puts a member in its place; it adds that member and no other (`mem_insert`) and keeps the order
(`ascending_insert`). The order is any strict total order, given by its decision `before`.
-/

namespace BytecodeFlow.Ordered

variable {α : Type}

/-- The relation that `before` decides is a strict total order. -/
structure StrictTotal (before : α → α → Bool) : Prop where
  irrefl (a : α) : before a a = false
  trans {a b c : α} : before a b = true → before b c = true → before a c = true
  eq_of_not_before {a b : α} : before a b = false → before b a = false → a = b

/-- Every member is before all later ones. -/
def Ascending (before : α → α → Bool) (as : List α) : Prop :=
  as.Pairwise fun a b => before a b = true

/-- Puts a member into an ascending list, unless it is there. -/
def insert (before : α → α → Bool) (a : α) : List α → List α
  | [] => [a]
  | b :: bs =>
    if before a b then a :: b :: bs
    else if before b a then b :: insert before a bs
    else b :: bs

/-- The members of both lists. -/
def union (before : α → α → Bool) (as bs : List α) : List α :=
  bs.foldl (fun acc b => insert before b acc) as

variable {before : α → α → Bool}

theorem ascending_nil : Ascending before [] := List.Pairwise.nil

theorem mem_insert (h : StrictTotal before) {a c : α} {as : List α} :
    c ∈ insert before a as ↔ c = a ∨ c ∈ as := by
  induction as with
  | nil => simp [insert]
  | cons b bs ih =>
    rw [insert]
    split
    · simp
    · split
      · rw [List.mem_cons, List.mem_cons, ih, or_left_comm]
      · rename_i hab hba
        cases h.eq_of_not_before (Bool.eq_false_iff.2 hab) (Bool.eq_false_iff.2 hba)
        simp

theorem ascending_insert (h : StrictTotal before) (a : α) {as : List α}
    (has : Ascending before as) : Ascending before (insert before a as) := by
  induction as with
  | nil => exact List.pairwise_singleton _ _
  | cons b bs ih =>
    obtain ⟨hb, hbs⟩ := List.pairwise_cons.1 has
    rw [insert]
    split
    · rename_i hab
      refine List.pairwise_cons.2 ⟨fun c hc => ?_, has⟩
      rcases List.mem_cons.1 hc with rfl | hc
      · exact hab
      · exact h.trans hab (hb c hc)
    · split
      · rename_i hba
        refine List.pairwise_cons.2 ⟨fun c hc => ?_, ih hbs⟩
        rcases (mem_insert h).1 hc with rfl | hc
        · exact hba
        · exact hb c hc
      · exact has

theorem mem_union (h : StrictTotal before) {c : α} {as bs : List α} :
    c ∈ union before as bs ↔ c ∈ as ∨ c ∈ bs := by
  induction bs generalizing as with
  | nil => simp [union]
  | cons b bs ih =>
    have ih : c ∈ union before (insert before b as) bs ↔ c ∈ insert before b as ∨ c ∈ bs := ih
    simp only [union, List.foldl_cons] at ih ⊢
    rw [ih, mem_insert h, List.mem_cons]
    constructor
    · rintro ((rfl | hc) | hc)
      · exact .inr (.inl rfl)
      · exact .inl hc
      · exact .inr (.inr hc)
    · rintro (hc | rfl | hc)
      · exact .inl (.inr hc)
      · exact .inl (.inl rfl)
      · exact .inr hc

theorem ascending_union (h : StrictTotal before) {as : List α} (has : Ascending before as)
    (bs : List α) : Ascending before (union before as bs) := by
  induction bs generalizing as with
  | nil => exact has
  | cons b bs ih => exact ih (ascending_insert h b has)

/-- An ascending list is determined by its members. -/
theorem eq_of_ascending (h : StrictTotal before) {as bs : List α} (has : Ascending before as)
    (hbs : Ascending before bs) (hmem : ∀ c, c ∈ as ↔ c ∈ bs) : as = bs := by
  have asymm {a b : α} (hab : before a b = true) (hba : before b a = true) : False := by
    have := h.trans hab hba
    rw [h.irrefl] at this
    cases this
  induction as generalizing bs with
  | nil =>
    cases bs with
    | nil => rfl
    | cons b bs => exact absurd ((hmem b).2 (by simp)) (by simp)
  | cons a as ih =>
    cases bs with
    | nil => exact absurd ((hmem a).1 (by simp)) (by simp)
    | cons b bs =>
      obtain ⟨ha, has'⟩ := List.pairwise_cons.1 has
      obtain ⟨hb, hbs'⟩ := List.pairwise_cons.1 hbs
      have hab : a = b := by
        rcases List.mem_cons.1 ((hmem a).1 (by simp)) with hab | hab
        · exact hab
        rcases List.mem_cons.1 ((hmem b).2 (by simp)) with hba | hba
        · exact hba.symm
        exact (asymm (hb a hab) (ha b hba)).elim
      cases hab
      congr 1
      refine ih has' hbs' fun c => ⟨fun hc => ?_, fun hc => ?_⟩
      · rcases List.mem_cons.1 ((hmem c).1 (by simp [hc])) with rfl | h'
        · exact (asymm (ha c hc) (ha c hc)).elim
        · exact h'
      · rcases List.mem_cons.1 ((hmem c).2 (by simp [hc])) with rfl | h'
        · exact (asymm (hb c hc) (hb c hc)).elim
        · exact h'

end BytecodeFlow.Ordered
