import BytecodeFlow.Ordered

/-!
# Binary search in ascending lists

`search` gives the position of a member, or else the position where it belongs. Members can be
looked up and put into their place by position; in an ascending list this is the same as looking
through the list (`isOk_search_iff`) and as `insert` (`place_eq_insert`).
-/

namespace BytecodeFlow.Ordered

variable {α : Type}

/-- Searches the positions from `lo` on and before `hi`. -/
def searchIn (before : α → α → Bool) (a : α) (as : List α) (lo hi : Nat) (hhi : hi ≤ as.length) :
    Except Nat Nat :=
  if hlt : lo < hi then
    let mid := lo + (hi - lo) / 2
    have hmid : mid < as.length := by omega
    if before as[mid] a then searchIn before a as (mid + 1) hi hhi
    else if before a as[mid] then searchIn before a as lo mid (by omega)
    else .ok mid
  else .error lo
termination_by hi - lo

/-- The position of a member, or as an error the position where it belongs. -/
def search (before : α → α → Bool) (a : α) (as : List α) : Except Nat Nat :=
  searchIn before a as 0 as.length (Nat.le_refl _)

/-- Puts a member at the position where it belongs, unless it is there. -/
def place (before : α → α → Bool) (a : α) (as : List α) : List α :=
  match search before a as with
  | .ok _ => as
  | .error k => as.insertIdx k a

/-- Puts members in one after the other. -/
def placeAll (before : α → α → Bool) (as bs : List α) : List α :=
  bs.foldl (fun acc b => place before b acc) as

/-- A member belongs at a position: it is after all that stands before there, and before the
rest. -/
structure BelongsAt (before : α → α → Bool) (a : α) (as : List α) (k : Nat) : Prop where
  le_length : k ≤ as.length
  before_take (b : α) : b ∈ as.take k → before b a = true
  before_drop (b : α) : b ∈ as.drop k → before a b = true

variable {before : α → α → Bool} {a : α} {as : List α}

theorem Ascending.take_drop (has : Ascending before as) {k : Nat} (hk : k < as.length) :
    (∀ b ∈ as.take k, before b as[k] = true) ∧ ∀ b ∈ as.drop (k + 1), before as[k] b = true := by
  rw [Ascending, ← List.take_append_drop k as, ← List.getElem_cons_drop hk, List.pairwise_append,
    List.pairwise_cons] at has
  exact ⟨fun b hb => has.2.2 b hb as[k] List.mem_cons_self, has.2.1.1⟩

/-- What is before `lo` is before the member, and what is from `hi` on is after it, all along. -/
theorem searchIn_spec (h : StrictTotal before) (has : Ascending before as) {lo hi : Nat}
    {hhi : hi ≤ as.length} (hle : lo ≤ hi) (htake : ∀ b ∈ as.take lo, before b a = true)
    (hdrop : ∀ b ∈ as.drop hi, before a b = true) :
    match searchIn before a as lo hi hhi with
    | .ok k => as[k]? = some a
    | .error k => BelongsAt before a as k := by
  fun_induction searchIn before a as lo hi hhi with
  | case1 lo hi hhi hlt mid hmid hbefore ih =>
    refine ih (by omega) ?_ hdrop
    intro b hb
    rw [List.take_succ_eq_append_getElem hmid, List.mem_append, List.mem_singleton] at hb
    rcases hb with hb | rfl
    · exact h.trans ((has.take_drop hmid).1 b hb) hbefore
    · exact hbefore
  | case2 lo hi hhi hlt mid hmid _ hafter ih =>
    refine ih (by omega) htake ?_
    intro b hb
    rw [← List.getElem_cons_drop hmid, List.mem_cons] at hb
    rcases hb with rfl | hb
    · exact hafter
    · exact h.trans hafter ((has.take_drop hmid).2 b hb)
  | case3 lo hi hhi hlt mid hmid hbefore hafter =>
    have heq : as[mid] = a :=
      h.eq_of_not_before (Bool.eq_false_iff.2 hbefore) (Bool.eq_false_iff.2 hafter)
    exact List.getElem?_eq_some_iff.2 ⟨hmid, heq⟩
  | case4 lo hi hhi hge =>
    have hsame : lo = hi := by omega
    exact ⟨by omega, htake, hsame ▸ hdrop⟩

theorem search_spec (h : StrictTotal before) (has : Ascending before as) (a : α) :
    match search before a as with
    | .ok k => as[k]? = some a
    | .error k => BelongsAt before a as k :=
  searchIn_spec h has (Nat.zero_le _) (by simp) (by simp)

theorem BelongsAt.not_mem (h : StrictTotal before) {k : Nat} (hk : BelongsAt before a as k) :
    a ∉ as := by
  intro ha
  rw [← List.take_append_drop k as, List.mem_append] at ha
  have hself := h.irrefl a
  rcases ha with ha | ha
  · rw [hk.before_take a ha] at hself
    cases hself
  · rw [hk.before_drop a ha] at hself
    cases hself

/-- Exactly the members are found. -/
theorem isOk_search_iff (h : StrictTotal before) (has : Ascending before as) :
    (search before a as).isOk = true ↔ a ∈ as := by
  have hspec := search_spec h has a
  cases hs : search before a as with
  | ok k =>
    rw [hs] at hspec
    exact iff_of_true rfl (List.mem_of_getElem? hspec)
  | error k =>
    rw [hs] at hspec
    exact iff_of_false (fun hok => nomatch hok) (BelongsAt.not_mem h hspec)

theorem BelongsAt.insertIdx_eq (h : StrictTotal before) {k : Nat} (hk : BelongsAt before a as k) :
    as.insertIdx k a = insert before a as := by
  induction as generalizing k with
  | nil =>
    have hzero : k = 0 := Nat.le_zero.1 hk.le_length
    rw [hzero]
    rfl
  | cons b bs ih =>
    cases k with
    | zero =>
      have hab := hk.before_drop b (by simp)
      rw [insert, if_pos hab]
      rfl
    | succ k =>
      have hba := hk.before_take b (by simp)
      have hab : ¬ before a b = true := by
        intro hab
        have hself := h.trans hab hba
        rw [h.irrefl] at hself
        cases hself
      have hrest : BelongsAt before a bs k :=
        ⟨Nat.le_of_succ_le_succ hk.le_length, fun c hc => hk.before_take c (by simp [hc]),
          fun c hc => hk.before_drop c (by simpa using hc)⟩
      rw [insert, if_neg hab, if_pos hba, List.insertIdx_succ_cons, ih hrest]

/-- A member that is there is not put in again. -/
theorem insert_of_mem (h : StrictTotal before) (has : Ascending before as) (ha : a ∈ as) :
    insert before a as = as := by
  refine eq_of_ascending h (ascending_insert h a has) has ?_
  intro c
  rw [mem_insert h]
  constructor
  · rintro (rfl | hc)
    · exact ha
    · exact hc
  · exact Or.inr

/-- In an ascending list the place that the search gives is the right one. -/
theorem place_eq_insert (h : StrictTotal before) (has : Ascending before as) (a : α) :
    place before a as = insert before a as := by
  have hspec := search_spec h has a
  unfold place
  cases hs : search before a as with
  | ok k =>
    rw [hs] at hspec
    exact (insert_of_mem h has (List.mem_of_getElem? hspec)).symm
  | error k =>
    rw [hs] at hspec
    exact BelongsAt.insertIdx_eq h hspec

theorem placeAll_eq_union (h : StrictTotal before) (has : Ascending before as) (bs : List α) :
    placeAll before as bs = union before as bs := by
  induction bs generalizing as with
  | nil => rfl
  | cons b bs ih =>
    have hstep : placeAll before as (b :: bs) = placeAll before (place before b as) bs := rfl
    rw [hstep, place_eq_insert h has, ih (ascending_insert h b has)]
    rfl

end BytecodeFlow.Ordered
