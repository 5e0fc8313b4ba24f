import BytecodeFlow.Proofs.Growth

/-!
# Block stacks as lists of scopes

The walks along a stack are searches in the list of its scopes. What matters for them is where
the innermost loop is: `insideLoop` are the scopes in it and `outsideLoop` those around it.
-/

namespace BytecodeFlow

/-- A list is cut at one of its members. -/
theorem eq_take_append_of_getElem? {α : Type} {l : List α} {k : Nat} {x : α} (h : l[k]? = some x) :
    l = l.take k ++ x :: l.drop (k + 1) := by
  obtain ⟨hlt, hx⟩ := List.getElem?_eq_some_iff.1 h
  rw [← hx, List.getElem_cons_drop, List.take_append_drop]

namespace Blocks

/-- The innermost loop of a stack. -/
def innermostLoop? (stack : List (Nat × Scope)) : Option (Nat × Scope) :=
  stack.find? (·.2.kind.isLoop)

/-- The scopes in the innermost loop. Without a loop these are all scopes. -/
def insideLoop (stack : List (Nat × Scope)) : List (Nat × Scope) :=
  stack.takeWhile (!·.2.kind.isLoop)

/-- The scopes around the innermost loop. -/
def outsideLoop (stack : List (Nat × Scope)) : List (Nat × Scope) :=
  (stack.dropWhile (!·.2.kind.isLoop)).tail

/-- What is left of a stack on arrival at an offset. -/
def arrive (offset : Int) (stack : List (Nat × Scope)) : List (Nat × Scope) :=
  stack.dropWhile (·.2.exit ≤ offset)

/-- Whether a jump out of these scopes has to run a handler first. -/
def Intercepted (offset : Int) (scopes : List (Nat × Scope)) : Prop :=
  ∃ x ∈ scopes, x.2.intercepts offset = true

instance (offset : Int) (scopes : List (Nat × Scope)) : Decidable (Intercepted offset scopes) :=
  inferInstanceAs (Decidable (∃ x ∈ scopes, x.2.intercepts offset = true))

/-- Whether an exception raised in these scopes goes to a handler. -/
def Caught (offset : Int) (scopes : List (Nat × Scope)) : Prop :=
  ∃ x ∈ scopes, x.2.catches offset = true

instance (offset : Int) (scopes : List (Nat × Scope)) : Decidable (Caught offset scopes) :=
  inferInstanceAs (Decidable (∃ x ∈ scopes, x.2.catches offset = true))

/-- The handler that a jump out of these scopes runs first. -/
def handler? (offset : Int) (scopes : List (Nat × Scope)) : Option Int :=
  (scopes.find? (·.2.intercepts offset)).map (·.2.exit)

theorem eq_inside_append {stack : List (Nat × Scope)} {l : Nat × Scope}
    (h : innermostLoop? stack = some l) : stack = insideLoop stack ++ l :: outsideLoop stack := by
  induction stack with
  | nil => cases h
  | cons x rest ih =>
    cases hx : x.2.kind.isLoop with
    | true =>
      rw [innermostLoop?, List.find?_cons_of_pos (by simpa using hx)] at h
      cases h
      simp [insideLoop, outsideLoop, hx]
    | false =>
      rw [innermostLoop?, List.find?_cons_of_neg (by simp [hx])] at h
      have ih := ih h
      simp only [insideLoop, outsideLoop, List.takeWhile_cons, List.dropWhile_cons, hx,
        Bool.not_false, if_true, List.cons_append] at ih ⊢
      rw [← ih]

theorem isLoop_of_innermostLoop? {stack : List (Nat × Scope)} {l : Nat × Scope}
    (h : innermostLoop? stack = some l) : l.2.kind.isLoop = true := by
  simpa using List.find?_some h

theorem handler?_eq_none {offset : Int} {scopes : List (Nat × Scope)} :
    handler? offset scopes = none ↔ ¬ Intercepted offset scopes := by
  simp [handler?, Intercepted]

/-- A handler that is run belongs to a scope that intercepts. -/
theorem exists_of_handler? {offset handler : Int} {scopes : List (Nat × Scope)}
    (h : handler? offset scopes = some handler) :
    ∃ x ∈ scopes, x.2.intercepts offset = true ∧ x.2.exit = handler := by
  obtain ⟨x, hx, rfl⟩ := Option.map_eq_some_iff.1 h
  have hi : x.2.intercepts offset = true := by simpa using List.find?_some hx
  exact ⟨x, List.mem_of_find?_eq_some hx, hi, rfl⟩

theorem intercepted_of_handler? {offset handler : Int} {scopes : List (Nat × Scope)}
    (h : handler? offset scopes = some handler) : Intercepted offset scopes := by
  obtain ⟨x, hx, hi, _⟩ := exists_of_handler? h
  exact ⟨x, hx, hi⟩

end Blocks

namespace BlockStack

open Blocks

theorem innermostLoop?_eq (s : BlockStack) (a : Arena) :
    s.innermostLoop? a = Blocks.innermostLoop? (s.toList a) := rfl

theorem returnTarget_eq (s : BlockStack) (a : Arena) (offset : Int) :
    s.returnTarget a offset = (handler? offset (s.toList a)).getD Offset.exit := by
  have hcomp : (Scope.intercepts offset ∘ fun x : Nat × Scope => x.2) =
      fun x => x.2.intercepts offset := rfl
  rw [returnTarget, scopes, handler?, List.find?_map, hcomp]
  cases (s.toList a).find? (·.2.intercepts offset) with
  | none => rfl
  | some x => rfl

/-- The scopes in front of the innermost loop are those with another id than the loop. -/
theorem detour?_eq {s : BlockStack} {a : Arena} {l : Nat × Scope}
    (h : s.innermostLoop? a = some l) (offset : Int) :
    s.detour? a offset l.1 = handler? offset (insideLoop (s.toList a)) := by
  have hsplit : s.toList a = insideLoop (s.toList a) ++ l :: outsideLoop (s.toList a) :=
    eq_inside_append h
  have hids := s.pairwise_toList a
  rw [hsplit, List.pairwise_append] at hids
  have hne : ∀ x ∈ insideLoop (s.toList a), (x.1 != l.1) = true := by
    intro x hx
    have := hids.2.2 x hx l (by simp)
    simp only [bne_iff_ne]
    omega
  have htake : (s.toList a).takeWhile (·.1 != l.1) = insideLoop (s.toList a) := by
    conv => lhs; rw [hsplit, List.takeWhile_append_of_pos hne]
    simp
  rw [detour?, htake, handler?]

/-- The walk of an exception stops at the first scope that catches it. -/
theorem exceptionTarget_eq (s : BlockStack) (a : Arena) (offset : Int) :
    s.exceptionTarget a offset =
      ((s.toList a).find? (·.2.catches offset)).map (·.2.exit) := by
  induction s using induction (a := a) with
  | none => simp [exceptionTarget_empty]
  | dangling id h => simp [exceptionTarget_dangling h, toList_dangling h]
  | some id scope h ih =>
    rw [exceptionTarget_some h, toList_some h, List.find?_cons]
    cases hc : scope.catches offset with
    | true => simp
    | false => simpa [hc] using ih

theorem exceptionTarget_eq_none {s : BlockStack} {a : Arena} {offset : Int} :
    s.exceptionTarget a offset = none ↔ ¬ Caught offset (s.toList a) := by
  simp [exceptionTarget_eq, Caught]

/-- An exception that is caught goes forward to the handler of a scope. -/
theorem exists_of_exceptionTarget {s : BlockStack} {a : Arena} {offset handler : Int}
    (h : s.exceptionTarget a offset = some handler) :
    ∃ x ∈ s.toList a, x.2.catches offset = true ∧ x.2.exit = handler := by
  rw [exceptionTarget_eq] at h
  obtain ⟨x, hx, rfl⟩ := Option.map_eq_some_iff.1 h
  have hc : x.2.catches offset = true := by simpa using List.find?_some hx
  exact ⟨x, List.mem_of_find?_eq_some hx, hc, rfl⟩

/-- The top is the id of the innermost scope. -/
theorem head?_toList {s : BlockStack} {a : Arena} (hs : s.Within a) :
    (s.toList a).head?.map (·.1) = s.top := by
  obtain ⟨top⟩ := s
  cases top with
  | none => simp [toList_none]
  | some id =>
    obtain ⟨scope, hg⟩ := hs.get?
    simp [toList_some hg]

/-- The stack around the innermost loop. -/
theorem toList_parent_innermostLoop {s : BlockStack} {a : Arena} {l : Nat × Scope}
    (h : s.innermostLoop? a = some l) :
    toList ⟨l.2.parent⟩ a = outsideLoop (s.toList a) :=
  toList_parent (eq_inside_append h)

end BlockStack

/-- `POP_BLOCK` drops the head of the stack if that is a loop. -/
theorem Resolution.toList_closeLoop (a : Arena) (s : BlockStack) :
    (closeLoop a s).toList a =
      match s.toList a with
      | [] => []
      | x :: rest => if x.2.kind.isLoop then rest else x :: rest := by
  obtain ⟨top⟩ := s
  cases top with
  | none => simp [closeLoop, BlockStack.toList_none]
  | some id =>
    cases h : a.get? id with
    | none => simp [closeLoop, h, BlockStack.toList_dangling h]
    | some scope =>
      rw [BlockStack.toList_some h]
      simp only [closeLoop, Option.bind_some, h]
      split
      · rfl
      · exact BlockStack.toList_some h

theorem Resolution.within_closeLoop {a : Arena} {s : BlockStack} (hs : s.Within a) :
    (closeLoop a s).Within a := by
  unfold closeLoop
  split
  · rename_i scope h
    obtain ⟨id, _, hg⟩ := Option.bind_eq_some_iff.1 h
    split
    · exact BlockStack.within_parent hg
    · exact hs
  · exact hs

end BytecodeFlow
