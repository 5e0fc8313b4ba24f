import BytecodeFlow.Scope
import BytecodeFlow.Text.Numeral
import Std.Data.String.ToInt

/-!
# What a shown block stack tells

A stack is shown as the list of its scopes, from the innermost outwards, each by its kind and its
offsets. The words of the text begin with those of the innermost scope (`Scope.pieces_renderStack`),
so that stacks that are shown alike were opened last at one offset
(`Scope.origin_head?_of_renderStack_eq`).
-/

namespace BytecodeFlow

open Text

/-- The blank that parts the words of a shown stack. -/
def isSpace (c : Char) : Bool := c == ' '

/-- The numeral of an integer is one word. -/
theorem isSpace_of_mem_toString {n : Int} {c : Char} (h : c ∈ (toString n).toList) :
    isSpace c = false := by
  rw [isSpace, beq_eq_false_iff_ne]
  intro hc
  subst hc
  exact (isWord_toString n).not_mem rfl h

namespace Scope

/-- The first words of a stack that is not empty are the kind of the innermost scope, `at`, and
the offset that it was opened at. -/
theorem pieces_renderStack (x : Scope) (rest : List Scope) :
    ∃ more, pieces isSpace (renderStack (x :: rest)).toList =
      ('[' :: x.kind.name.toList) :: ['a', 't'] :: (toString x.origin).toList :: more := by
  let tail := ", ".intercalate (("(exit " ++ toString x.exit ++ ")") :: rest.map render) ++ "]"
  have htext : (renderStack (x :: rest)).toList = ('[' :: x.kind.name.toList) ++ ' ' ::
      (['a', 't'] ++ ' ' :: ((toString x.origin).toList ++ ' ' :: tail.toList)) := by
    simp [tail, renderStack, render, String.append_assoc]
  have hkind : ∀ c ∈ '[' :: x.kind.name.toList, isSpace c = false := by
    cases x.kind <;> simp [ScopeKind.name, isSpace]
  have hat : ∀ c ∈ ['a', 't'], isSpace c = false := by simp [isSpace]
  refine ⟨pieces isSpace tail.toList, ?_⟩
  rw [htext, pieces_append_cons rfl, pieces_append_cons rfl, pieces_append_cons rfl,
    pieces_of_forall_not hkind, pieces_of_forall_not hat,
    pieces_of_forall_not fun c hc => isSpace_of_mem_toString hc]
  rfl

theorem renderStack_cons_ne_nil (x : Scope) (rest : List Scope) :
    renderStack (x :: rest) ≠ renderStack [] := by
  intro h
  obtain ⟨more, hx⟩ := pieces_renderStack x rest
  have hnil : pieces isSpace (renderStack []).toList = [['[', ']']] := by decide
  rw [h, hnil] at hx
  have hlength := congrArg List.length hx
  simp at hlength

/-- Stacks that are shown alike were opened last at one offset. -/
theorem origin_head?_of_renderStack_eq {xs ys : List Scope} (h : renderStack xs = renderStack ys) :
    xs.head?.map origin = ys.head?.map origin := by
  cases xs with
  | nil =>
    cases ys with
    | nil => rfl
    | cons y ys => exact absurd h.symm (renderStack_cons_ne_nil y ys)
  | cons x xs =>
    cases ys with
    | nil => exact absurd h (renderStack_cons_ne_nil x xs)
    | cons y ys =>
      obtain ⟨moreX, hx⟩ := pieces_renderStack x xs
      obtain ⟨moreY, hy⟩ := pieces_renderStack y ys
      rw [h, hy] at hx
      simp only [List.cons.injEq, String.toList_inj, Int.toString_eq_repr, Int.repr_inj] at hx
      simp [hx]

end Scope

end BytecodeFlow
