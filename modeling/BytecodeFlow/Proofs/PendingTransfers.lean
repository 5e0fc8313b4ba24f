import BytecodeFlow.Proofs.DeferredTransfer

/-!
# Pending transfers at the end of a handler

An `END_FINALLY` neither loses nor invents a pending return, break or continue
(`Instruction.endFinally_carries_on`). What concerns the stack goes on: it arrives and is over, or
it goes to a handler in its way and stays pending. All else stays as it was.
-/

namespace BytecodeFlow

open BlockStack Blocks Resolution

namespace PathFacts

variable {f : PathFacts} {loop l : Nat}

theorem restarts_removeContinued_self : (f.removeContinued loop).restarts loop = [] := by
  simp [restarts, removeContinued, List.filter_filter]

theorem restarts_removeContinued_of_ne (h : l ≠ loop) :
    (f.removeContinued loop).restarts l = f.restarts l := by
  have hfilter : ∀ entry ∈ f.continued, (entry.1 == l && entry.1 != loop) = (entry.1 == l) := by
    intro entry _
    by_cases hl : entry.1 = l
    · simp [hl, h]
    · simp [hl]
  rw [restarts, restarts, removeContinued, List.filter_filter, List.filter_congr hfilter]

end PathFacts

namespace Resolution

variable {a : Arena} {s : BlockStack} {offset : Int} {f : PathFacts} {loop l : Nat}

/-! ## What the resumption of one kind of transfer leaves alone -/

theorem facts_resumeReturn :
    (resumeReturn a s offset f).2 =
      { f with returned := (resumeReturn a s offset f).2.returned } := by
  unfold resumeReturn
  split
  · simp only
    split
    · rfl
    · rfl
  · rfl

theorem facts_resumeBreak {exit : Int} {detour : Option Int} :
    (resumeBreak loop exit detour f).2 =
      { f with broken := (resumeBreak loop exit detour f).2.broken } := by
  unfold resumeBreak
  split
  · cases detour with
    | none => rfl
    | some handler => rfl
  · rfl

theorem facts_resumeContinue {detour : Option Int} :
    (resumeContinue loop detour f).2 =
      { f with continued := (resumeContinue loop detour f).2.continued } := by
  unfold resumeContinue
  split
  · rfl
  · cases detour with
    | none => rfl
    | some handler => rfl

/-- Where nothing is in the way, no restart of the loop is left. -/
theorem restarts_resumeContinue {detour : Option Int} :
    (resumeContinue loop detour f).2.restarts l =
      if l = loop ∧ detour = none then [] else f.restarts l := by
  unfold resumeContinue
  by_cases hr : (f.restarts loop).isEmpty = true
  · rw [if_pos hr]
    split
    · rename_i hl
      rw [hl.1]
      exact List.isEmpty_iff.1 hr
    · rfl
  · rw [if_neg hr]
    cases detour with
    | some handler => simp
    | none =>
      by_cases hl : l = loop
      · simp [hl, PathFacts.restarts_removeContinued_self]
      · simp [hl, PathFacts.restarts_removeContinued_of_ne hl]

theorem raised_resumeDeferred : (resumeDeferred a s offset f).2.raised = f.raised := by
  unfold resumeDeferred
  split
  · rw [facts_resumeReturn]
  · rw [facts_resumeContinue, facts_resumeBreak, facts_resumeReturn]

/-- Outside of all loops every break and continue stays as it is. -/
theorem facts_resumeDeferred_of_no_loop (h : s.innermostLoop? a = none) :
    (resumeDeferred a s offset f).2.broken = f.broken ∧
      (resumeDeferred a s offset f).2.continued = f.continued := by
  rw [resumeDeferred, h, facts_resumeReturn]
  exact ⟨rfl, rfl⟩

/-- An `END_FINALLY` restarts its innermost loop, unless a handler is in the way, and no other. -/
theorem restarts_resumeDeferred {scope : Scope} (h : s.innermostLoop? a = some (loop, scope)) :
    (resumeDeferred a s offset f).2.restarts l =
      if l = loop ∧ ¬ Intercepted offset (insideLoop (s.toList a)) then [] else f.restarts l := by
  have hsame : (resumeBreak loop scope.exit (s.detour? a offset loop)
      (resumeReturn a s offset f).2).2.restarts l = f.restarts l := by
    rw [facts_resumeBreak, facts_resumeReturn]
    rfl
  simp only [resumeDeferred, h]
  rw [restarts_resumeContinue, hsame, detour?_eq h]
  simp only [handler?_eq_none]

/-- One of the handlers in the way of a jump out of these scopes comes next. -/
def RunsHandler (r : Resolution) (offset : Int) (scopes : List (Nat × Scope)) : Prop :=
  ∃ x ∈ scopes, x.2.intercepts offset = true ∧ x.2.exit ∈ r.successors

end Resolution

namespace Instruction

variable {i : Instruction} {a : Arena} {next : Option Int} {s : BlockStack} {f : PathFacts}
  {r : Resolution} {fact : Fact} {crossed : List (Nat × Scope)} {final : Int}

section EndFinally

variable (hi : i.opcode.flow = .endFinally) (ho : 0 ≤ i.offset)
  (hr : i.resolve a next s f = .ok r) (hu : fact.Unwinds (s.toList a) crossed final)
  (hf : f.Holds fact)
include hi ho hr hu hf

/-- With no handler in its way a pending transfer arrives and is over. -/
theorem completed_of_not_intercepted (h : ¬ Intercepted i.offset crossed) :
    final ∈ r.successors ∧ ¬ r.facts.Holds fact := by
  obtain ⟨r', hr', hmem, hfact⟩ := exists_resolve_of_pending hi ho hu hf next
  cases hr.symm.trans hr'
  rw [handler?_eq_none.2 h, Option.getD_none] at hmem
  exact ⟨hmem, fun hholds => h (hfact.1 hholds)⟩

/-- With a handler in its way a pending transfer goes there and stays pending. -/
theorem runsHandler_of_intercepted (h : Intercepted i.offset crossed) :
    r.RunsHandler i.offset crossed ∧ r.facts.Holds fact := by
  obtain ⟨r', hr', hmem, hfact⟩ := exists_resolve_of_pending hi ho hu hf next
  cases hr.symm.trans hr'
  refine ⟨?_, hfact.2 h⟩
  cases hh : handler? i.offset crossed with
  | none => exact absurd h (handler?_eq_none.1 hh)
  | some handler =>
    obtain ⟨x, hx, hintercepts, rfl⟩ := exists_of_handler? hh
    rw [hh, Option.getD_some] at hmem
    exact ⟨x, hx, hintercepts, hmem⟩

theorem completed_or_runsHandler :
    final ∈ r.successors ∧ ¬ r.facts.Holds fact ∨
      r.RunsHandler i.offset crossed ∧ r.facts.Holds fact := by
  by_cases h : Intercepted i.offset crossed
  · exact .inr (runsHandler_of_intercepted hi ho hr hu hf h)
  · exact .inl (completed_of_not_intercepted hi ho hr hu hf h)

end EndFinally

/-- An `END_FINALLY` neither loses nor invents a pending transfer. It adds no fact. A return leaves
the function and is over, or goes to a handler on the stack and stays pending. A break and the
restarts of the innermost loop go where they are bound for and are over, or to a handler in that
loop and stay pending, all of the restarts alike. Nothing else changes. -/
theorem endFinally_carries_on (hi : i.opcode.flow = .endFinally) (ho : 0 ≤ i.offset) (a : Arena)
    (s : BlockStack) (next : Option Int) (f : PathFacts) :
    ∃ r, i.resolve a next s f = .ok r ∧
      (∀ fact, r.facts.Holds fact → f.Holds fact) ∧
      r.facts.raised = f.raised ∧
      (f.returned = true →
        Offset.exit ∈ r.successors ∧ r.facts.returned = false ∨
        r.RunsHandler i.offset (s.toList a) ∧ r.facts.returned = true) ∧
      match s.innermostLoop? a with
      | none => r.facts.broken = f.broken ∧ r.facts.continued = f.continued
      | some (loop, scope) =>
        (∀ l, l ≠ loop →
          r.facts.hasBroken l = f.hasBroken l ∧ r.facts.restarts l = f.restarts l) ∧
        (f.hasBroken loop = true →
          scope.exit ∈ r.successors ∧ r.facts.hasBroken loop = false ∨
          r.RunsHandler i.offset (insideLoop (s.toList a)) ∧ r.facts.hasBroken loop = true) ∧
        (f.restarts loop ≠ [] →
          (∀ restart ∈ f.restarts loop, restart ∈ r.successors) ∧ r.facts.restarts loop = [] ∨
          r.RunsHandler i.offset (insideLoop (s.toList a)) ∧
            r.facts.restarts loop = f.restarts loop) := by
  have hout : Outcome i a next s f _ := .endFinally hi
  have hr := resolve_of_outcome hout
  refine ⟨_, hr, fun fact h => ((holds_resumeDeferred ho).1 h).1, raised_resumeDeferred, ?_, ?_⟩
  · intro hreturned
    have hu : Fact.Unwinds (s.toList a) .returned (s.toList a) Offset.exit := .returned
    exact (completed_or_runsHandler hi ho hr hu hreturned).imp_left fun h =>
      ⟨h.1, Bool.eq_false_iff.2 h.2⟩
  · cases hl : s.innermostLoop? a with
    | none => exact facts_resumeDeferred_of_no_loop hl
    | some l =>
      obtain ⟨loop, scope⟩ := l
      have hl' : Blocks.innermostLoop? (s.toList a) = some (loop, scope) := hl
      refine ⟨?_, ?_, ?_⟩
      · intro l hne
        refine ⟨?_, ?_⟩
        · rw [Bool.eq_iff_iff, PathFacts.hasBroken_iff, PathFacts.hasBroken_iff,
            holds_resumeDeferred ho]
          simp [Fact.Completes, hl', Ne.symm hne]
        · rw [restarts_resumeDeferred hl, if_neg fun h => hne h.1]
      · intro hbroken
        have hf := PathFacts.hasBroken_iff.1 hbroken
        have hu : Fact.Unwinds (s.toList a) (.broken loop) _ scope.exit := .broken hl'
        have hgoes := completed_or_runsHandler hi ho hr hu hf
        rwa [← PathFacts.hasBroken_iff, Bool.not_eq_true] at hgoes
      · intro hne
        rw [restarts_resumeDeferred hl]
        have hu (restart : Int) :
            Fact.Unwinds (s.toList a) (.continued loop restart) _ restart := .continued hl'
        by_cases h : Intercepted i.offset (insideLoop (s.toList a))
        · -- one pending restart is enough for the handler to be run
          obtain ⟨restart, hmem⟩ := List.exists_mem_of_ne_nil _ hne
          have hf := PathFacts.mem_restarts_iff.1 hmem
          refine .inr ⟨(runsHandler_of_intercepted hi ho hr (hu restart) hf h).1, ?_⟩
          rw [if_neg fun hboth => hboth.2 h]
        · refine .inl ⟨?_, if_pos ⟨rfl, h⟩⟩
          intro restart hmem
          have hf := PathFacts.mem_restarts_iff.1 hmem
          exact (completed_of_not_intercepted hi ho hr (hu restart) hf h).1

/-- A loop in a `finally` block. -/
def loopInFinally : Arena × BlockStack :=
  let inFinally := BlockStack.empty.push .empty .finallyBlock 40 0
  inFinally.2.push inFinally.1 .loopBlock 30 2

/-- At 22 a return, a break and two continues of the loop are pending at once, and a break and a
continue of some other loop. The return goes on to the handler at 40. The break and the continues
arrive, at 30 and at 6 and 8. -/
theorem endFinally_carries_on_loopInFinally :
    ∃ r, resolve ⟨.endFinally, 22, none, none, false⟩ loopInFinally.1 (some 24) loopInFinally.2
        ⟨true, false, [1, 7], [(1, 6), (1, 8), (7, 2)]⟩ = .ok r ∧
      r.successors = [24, 40, 30, 6, 8] ∧ r.facts.returned = true ∧
      r.facts.hasBroken 1 = false ∧ r.facts.restarts 1 = [] ∧
      r.facts.hasBroken 7 = true ∧ r.facts.restarts 7 = [2] := by
  let f : PathFacts := ⟨true, false, [1, 7], [(1, 6), (1, 8), (7, 2)]⟩
  obtain ⟨r, hr, -, -, hreturn, hloop⟩ := endFinally_carries_on (i := ⟨.endFinally, 22, none, none,
    false⟩) rfl (by decide) loopInFinally.1 loopInFinally.2 (some 24) f
  have hinnermost : loopInFinally.2.innermostLoop? loopInFinally.1 =
      some (1, ⟨.loopBlock, 30, 2, some 0⟩) := by decide +kernel
  have hinside : insideLoop (loopInFinally.2.toList loopInFinally.1) = [] := by decide +kernel
  have hsuccessors : (resolve ⟨.endFinally, 22, none, none, false⟩ loopInFinally.1 (some 24)
      loopInFinally.2 f).toOption.map (·.successors) = some [24, 40, 30, 6, 8] := by decide +kernel
  rw [hr] at hsuccessors
  have hsuccessors : r.successors = [24, 40, 30, 6, 8] := Option.some.inj hsuccessors
  -- no handler is in the loop, so that nothing keeps the break or the continues pending
  have hnone : ¬ r.RunsHandler 22 (insideLoop (loopInFinally.2.toList loopInFinally.1)) := by
    rintro ⟨x, hx, _⟩
    rw [hinside] at hx
    cases hx
  simp only [hinnermost] at hloop
  obtain ⟨hothers, hbreak, hcontinue⟩ := hloop
  refine ⟨r, hr, hsuccessors, ?_, ?_, ?_, (hothers 7 (by decide)).1, (hothers 7 (by decide)).2⟩
  · refine ((hreturn rfl).resolve_left ?_).2
    rw [hsuccessors]
    exact fun h => absurd h.1 (by decide)
  · exact ((hbreak (by decide)).resolve_right fun h => hnone h.1).2
  · exact ((hcontinue (by decide)).resolve_right fun h => hnone h.1).2

end Instruction

end BytecodeFlow
