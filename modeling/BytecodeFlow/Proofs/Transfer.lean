import BytecodeFlow.Proofs.Outcome

/-!
# The transfer function of an instruction

What an instruction does to the facts of a path, to the block stack and to control, said about
the list of scopes that are active before it. A fact holds after an instruction that generates
it, and one that held before stays unless the instruction kills it (`Outcome.holds_facts`).
-/

namespace BytecodeFlow

open BlockStack Blocks Resolution

namespace Fact

/-- What is left to do for a pending fact at a stack: the scopes to leave, from the inside, and
where control ends up. A break or continue concerns only the innermost loop. -/
inductive Unwinds (stack : List (Nat × Scope)) : Fact → List (Nat × Scope) → Int → Prop where
  | returned : Unwinds stack .returned stack Offset.exit
  | broken {l : Nat × Scope} (loop : innermostLoop? stack = some l) :
      Unwinds stack (.broken l.1) (insideLoop stack) l.2.exit
  | continued {l : Nat × Scope} {restart : Int} (loop : innermostLoop? stack = some l) :
      Unwinds stack (.continued l.1 restart) (insideLoop stack) restart

/-- No handler is in the way of a pending fact, so that an `END_FINALLY` completes it. -/
def Completes (offset : Int) (stack : List (Nat × Scope)) : Fact → Prop
  | .returned => ¬ Intercepted offset stack
  | .raised => False
  | .broken loop | .continued loop _ =>
    (∃ scope, innermostLoop? stack = some (loop, scope)) ∧
      ¬ Intercepted offset (insideLoop stack)

theorem Unwinds.completes_iff {stack crossed : List (Nat × Scope)} {fact : Fact} {final : Int}
    (h : fact.Unwinds stack crossed final) (offset : Int) :
    fact.Completes offset stack ↔ ¬ Intercepted offset crossed := by
  cases h with
  | returned => rfl
  | @broken l loop => exact and_iff_right ⟨l.2, loop⟩
  | @continued l restart loop => exact and_iff_right ⟨l.2, loop⟩

end Fact

namespace Resolution

variable {a : Arena} {s : BlockStack} {offset : Int} {f : PathFacts} {fact : Fact}

/-! ## What `END_FINALLY` resumes -/

/-- A return that is over at an `END_FINALLY` goes out of the function, and no handler starts
outside of it. -/
theorem returnTarget_eq_exit_iff (ho : 0 ≤ offset) :
    s.returnTarget a offset = Offset.exit ↔ handler? offset (s.toList a) = none := by
  rw [returnTarget_eq]
  cases h : handler? offset (s.toList a) with
  | none => simp
  | some handler =>
    obtain ⟨x, _, hi, rfl⟩ := exists_of_handler? h
    have := Scope.lt_exit_of_catches (Scope.catches_of_intercepts hi)
    simp only [Option.getD_some, Offset.exit, reduceCtorEq, iff_false]
    omega

theorem holds_resumeReturn (ho : 0 ≤ offset) :
    (resumeReturn a s offset f).2.Holds fact ↔
      f.Holds fact ∧ ¬ (fact = .returned ∧ handler? offset (s.toList a) = none) := by
  rw [← returnTarget_eq_exit_iff ho]
  by_cases hr : f.returned = true
  · by_cases ht : s.returnTarget a offset = Offset.exit
    · simp [resumeReturn, hr, ht, and_comm]
    · simp [resumeReturn, hr, ht]
  · have hne : f.Holds fact → fact ≠ .returned := by
      rintro h rfl
      exact hr h
    simp only [resumeReturn, hr]
    exact ⟨fun h => ⟨h, fun hk => hne h hk.1⟩, fun h => h.1⟩

theorem holds_resumeBreak {loop : Nat} {exit : Int} {detour : Option Int} :
    (resumeBreak loop exit detour f).2.Holds fact ↔
      f.Holds fact ∧ ¬ (fact = .broken loop ∧ detour = none) := by
  by_cases hb : f.hasBroken loop = true
  · cases detour with
    | none => simp [resumeBreak, hb, and_comm]
    | some handler => simp [resumeBreak, hb]
  · have hne : f.Holds fact → fact ≠ .broken loop := by
      rintro h rfl
      exact hb (PathFacts.hasBroken_iff.2 h)
    simp only [resumeBreak, hb]
    exact ⟨fun h => ⟨h, fun hk => hne h hk.1⟩, fun h => h.1⟩

theorem holds_resumeContinue {loop : Nat} {detour : Option Int} :
    (resumeContinue loop detour f).2.Holds fact ↔
      f.Holds fact ∧ ¬ ((∃ restart, fact = .continued loop restart) ∧ detour = none) := by
  cases hr : (f.restarts loop).isEmpty with
  | true =>
    have hne : f.Holds fact → ¬ ∃ restart, fact = .continued loop restart := by
      rintro h ⟨restart, rfl⟩
      have hmem := PathFacts.mem_restarts_iff.2 h
      rw [List.isEmpty_iff.1 hr] at hmem
      cases hmem
    simp only [resumeContinue, hr, if_true]
    exact ⟨fun h => ⟨h, fun hk => hne h hk.1⟩, fun h => h.1⟩
  | false =>
    cases detour with
    | none => simp [resumeContinue, hr, and_comm]
    | some handler => simp [resumeContinue, hr]

theorem mem_resumeReturn {target : Int} :
    target ∈ (resumeReturn a s offset f).1 ↔
      f.Holds .returned ∧ target = (handler? offset (s.toList a)).getD Offset.exit := by
  by_cases hr : f.returned = true
  · simp [resumeReturn, hr, returnTarget_eq, PathFacts.Holds]
  · simp [resumeReturn, hr, PathFacts.Holds]

theorem mem_resumeBreak {loop : Nat} {exit target : Int} {detour : Option Int} :
    target ∈ (resumeBreak loop exit detour f).1 ↔
      f.Holds (.broken loop) ∧ target = detour.getD exit := by
  rw [← PathFacts.hasBroken_iff]
  by_cases hb : f.hasBroken loop = true
  · cases detour <;> simp [resumeBreak, hb]
  · simp [resumeBreak, hb]

theorem mem_resumeContinue {loop : Nat} {target : Int} {detour : Option Int} :
    target ∈ (resumeContinue loop detour f).1 ↔
      ∃ restart, f.Holds (.continued loop restart) ∧ target = detour.getD restart := by
  simp only [← PathFacts.mem_restarts_iff]
  cases hr : f.restarts loop with
  | nil => simp [resumeContinue, hr]
  | cons restart rest =>
    cases detour with
    | none => simp [resumeContinue, hr]
    | some handler =>
      simp only [resumeContinue, hr, List.isEmpty_cons, Bool.false_eq_true, if_false,
        List.mem_singleton, Option.getD_some]
      exact ⟨fun h => ⟨restart, by simp, h⟩, fun ⟨_, _, h⟩ => h⟩

/-- What is pending at an `END_FINALLY` stays, unless nothing is in the way of completing it. -/
theorem holds_resumeDeferred (ho : 0 ≤ offset) :
    (resumeDeferred a s offset f).2.Holds fact ↔
      f.Holds fact ∧ ¬ fact.Completes offset (s.toList a) := by
  cases hl : s.innermostLoop? a with
  | none =>
    have hl' : Blocks.innermostLoop? (s.toList a) = none := hl
    rw [resumeDeferred, hl]
    simp only [holds_resumeReturn ho, handler?_eq_none]
    cases fact <;> simp [Fact.Completes, hl']
  | some l =>
    have hl' : Blocks.innermostLoop? (s.toList a) = some l := hl
    rw [resumeDeferred, hl]
    simp only [holds_resumeContinue, holds_resumeBreak, holds_resumeReturn ho, detour?_eq hl,
      handler?_eq_none]
    cases fact with
    | returned => simp [Fact.Completes]
    | raised => simp [Fact.Completes]
    | broken loop => simp [Fact.Completes, hl', Prod.ext_iff, eq_comm]
    | continued loop restart => simp [Fact.Completes, hl', Prod.ext_iff, eq_comm]

/-- Every pending fact that concerns the stack at an `END_FINALLY` goes on from there: to the
handler in its way, or to where it ends. -/
theorem mem_resumeDeferred (ho : 0 ≤ offset) {target : Int} :
    target ∈ (resumeDeferred a s offset f).1 ↔
      ∃ fact crossed final, f.Holds fact ∧ fact.Unwinds (s.toList a) crossed final ∧
        target = (handler? offset crossed).getD final := by
  cases hl : s.innermostLoop? a with
  | none =>
    have hl' : Blocks.innermostLoop? (s.toList a) = none := hl
    rw [resumeDeferred, hl, mem_resumeReturn]
    constructor
    · intro hmem
      obtain ⟨hr, ht⟩ := hmem
      exact ⟨_, _, _, hr, .returned, ht⟩
    · intro hmem
      obtain ⟨fact, crossed, final, hf, hu, ht⟩ := hmem
      cases hu with
      | returned => exact ⟨hf, ht⟩
      | broken loop => simp [hl'] at loop
      | continued loop => simp [hl'] at loop
  | some l =>
    have hl' : Blocks.innermostLoop? (s.toList a) = some l := hl
    rw [resumeDeferred, hl]
    simp only [List.mem_append, mem_resumeReturn, mem_resumeBreak, mem_resumeContinue,
      holds_resumeReturn ho, holds_resumeBreak, detour?_eq hl]
    constructor
    · intro hmem
      rcases hmem with (⟨hr, ht⟩ | ⟨⟨hb, _⟩, ht⟩) | ⟨restart, ⟨⟨hc, _⟩, _⟩, ht⟩
      · exact ⟨_, _, _, hr, .returned, ht⟩
      · exact ⟨_, _, _, hb, .broken hl', ht⟩
      · exact ⟨_, _, _, hc, .continued hl', ht⟩
    · intro hmem
      obtain ⟨fact, crossed, final, hf, hu, ht⟩ := hmem
      cases hu with
      | returned => exact .inl (.inl ⟨hf, ht⟩)
      | broken loop =>
        cases hl'.symm.trans loop
        exact .inl (.inr ⟨⟨hf, by simp⟩, ht⟩)
      | continued loop =>
        cases hl'.symm.trans loop
        exact .inr ⟨_, ⟨⟨hf, by simp⟩, by simp⟩, ht⟩

end Resolution

namespace Instruction

variable {i : Instruction} {a : Arena} {next : Option Int} {s : BlockStack} {f : PathFacts}
  {r : Resolution} {fact : Fact}

/-! ## The facts after an instruction -/

/-- The instruction makes a fact hold, whatever held before. A continue is pending only if a
handler is in its way. -/
def Generates (i : Instruction) (stack : List (Nat × Scope)) : Fact → Prop
  | .returned => i.opcode.flow = .returnValue
  | .raised => i.opcode.flow = .raise
  | .broken loop =>
    i.opcode.flow = .breakLoop ∧ ∃ scope, innermostLoop? stack = some (loop, scope)
  | .continued loop restart =>
    i.opcode.flow = .continueLoop ∧ i.jumpTarget = some restart ∧
      (∃ scope, innermostLoop? stack = some (loop, scope)) ∧
      Intercepted i.offset (insideLoop stack)

/-- The instruction ends a fact that held before. -/
def Kills (i : Instruction) (stack : List (Nat × Scope)) (fact : Fact) : Prop :=
  i.opcode.flow = .endFinally ∧ fact.Completes i.offset stack

/-- After an instruction holds what it generates, and what held before and is not killed. -/
theorem Outcome.holds_facts (h : i.Outcome a next s f r) (ho : 0 ≤ i.offset) :
    r.facts.Holds fact ↔
      i.Generates (s.toList a) fact ∨ f.Holds fact ∧ ¬ i.Kills (s.toList a) fact := by
  -- a break is pending also where it leaves the loop at once, a continue only where it is deferred
  cases h with
  | breakThrough flow loop detour =>
    rw [innermostLoop?_eq] at loop
    cases fact <;> simp [Generates, Kills, flow, loop, Prod.ext_iff, eq_comm]
  | breakOut flow loop direct =>
    rw [innermostLoop?_eq] at loop
    cases fact <;> simp [Generates, Kills, flow, loop, Prod.ext_iff, eq_comm]
  | continueThrough flow jump loop detour =>
    rw [innermostLoop?_eq] at loop
    have hi := intercepted_of_handler? detour
    cases fact <;> simp [Generates, Kills, flow, jump, loop, hi, Prod.ext_iff, eq_comm, and_comm]
  | continueOut flow jump loop direct =>
    have hi := handler?_eq_none.1 direct
    cases fact <;> simp [Generates, Kills, flow, hi]
  | endFinally flow =>
    rw [holds_resumeDeferred ho]
    cases fact <;> simp [Generates, Kills, flow]
  | returnValue flow | raise flow | sequential flow | jump flow | branch flow | setup flow
  | popBlock flow | popExcept flow =>
    cases fact <;> simp [Generates, Kills, flow]

/-! ## The block stack after an instruction -/

/-- The stack after an instruction. A scope that it opens gets the id `fresh`. -/
def stackAfter (i : Instruction) (fresh : Nat) (stack : List (Nat × Scope)) :
    List (Nat × Scope) :=
  match i.opcode.flow, i.jumpTarget with
  | .setup kind, some exit => (fresh, ⟨kind, exit, i.offset, stack.head?.map (·.1)⟩) :: stack
  | .popBlock, _ =>
    match stack with
    | [] => []
    | x :: rest => if x.2.kind.isLoop then rest else x :: rest
  | .breakLoop, _ =>
    if Intercepted i.offset (insideLoop stack) then stack else outsideLoop stack
  | _, _ => stack

/-- No instruction forgets a scope. -/
theorem Outcome.growsTo (h : i.Outcome a next s f r) : a.GrowsTo r.arena := by
  cases h with
  | setup => exact Arena.growsTo_add a _ _ _ _
  | _ => exact .refl a

theorem Outcome.within_stack (h : i.Outcome a next s f r) (hs : s.Within a) :
    r.stack.Within r.arena := by
  cases h with
  | breakOut flow loop direct =>
    exact within_parent (get?_of_mem_toList (List.mem_of_find?_eq_some loop))
  | setup =>
    rintro id ⟨⟩
    simp [push]
  | popBlock => exact within_closeLoop hs
  | _ => exact hs

/-- The stack that an instruction hands on, read in the arena that it leaves. -/
theorem Outcome.toList_stack (h : i.Outcome a next s f r) (hs : s.Within a) :
    r.stack.toList r.arena = i.stackAfter a.size (s.toList a) := by
  cases h with
  | breakThrough flow loop detour =>
    simp [stackAfter, flow, intercepted_of_handler? detour]
  | breakOut flow loop direct =>
    simp [stackAfter, flow, handler?_eq_none.1 direct, toList_parent_innermostLoop loop]
  | setup flow fall jump =>
    simp only [stackAfter, flow, jump, head?_toList hs]
    exact toList_push hs _ _ _
  | popBlock flow fall =>
    simp only [stackAfter, flow]
    exact toList_closeLoop a s
  | sequential flow | jump flow | branch flow | continueThrough flow | continueOut flow
  | popExcept flow | returnValue flow | raise flow | endFinally flow =>
    simp [stackAfter, flow]

end Instruction

end BytecodeFlow
