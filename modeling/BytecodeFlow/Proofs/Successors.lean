import BytecodeFlow.Proofs.Transfer

/-!
# The successors of an instruction

Where an edge can come from (`Outcome.reason`), which instructions leave the function
(`Outcome.exit_mem_successors`), that the successors of an instruction are distinct
(`Outcome.nodup_successors`), and that the next instruction is the first of them where control
falls through (`Outcome.head?_successors`).
-/

namespace BytecodeFlow

open BlockStack Blocks Resolution

/-- Control goes on to the next instruction, which there has to be. -/
def Flow.fallsThrough : Flow → Bool
  | sequential | branch | setup _ | popBlock | popExcept => true
  | _ => false

/-- Control goes on to the next instruction if there is one. -/
def Flow.mayFallThrough : Flow → Bool
  | raise | endFinally => true
  | _ => false

theorem nodup_eraseDups {α : Type} [BEq α] [LawfulBEq α] (l : List α) : l.eraseDups.Nodup := by
  match l with
  | [] => simp
  | x :: rest =>
    -- the recursion is on the filtered tail, which is no longer than the tail
    have hlen : (rest.filter fun y => !y == x).length ≤ rest.length := List.length_filter_le _ _
    rw [List.eraseDups_cons, List.nodup_cons]
    refine ⟨?_, nodup_eraseDups _⟩
    intro hx
    have hx := (List.mem_filter.1 (List.mem_eraseDups.1 hx)).2
    simp at hx
termination_by l.length
decreasing_by
  simp only [List.length_cons]
  omega

namespace Blocks

/-- A handler in the way of a jump starts later, and belongs to a scope that is no loop. -/
theorem forward_of_handler? {offset target : Int} {scopes : List (Nat × Scope)}
    (h : handler? offset scopes = some target) :
    offset < target ∧ ∃ x ∈ scopes, x.2.kind ≠ .loopBlock ∧ x.2.exit = target := by
  obtain ⟨x, hx, hi, rfl⟩ := exists_of_handler? h
  have hc := Scope.catches_of_intercepts hi
  exact ⟨Scope.lt_exit_of_catches hc, x, hx, Scope.kind_ne_loopBlock_of_catches hc, rfl⟩

theorem mem_of_mem_insideLoop {stack : List (Nat × Scope)} {x : Nat × Scope}
    (h : x ∈ insideLoop stack) : x ∈ stack :=
  (List.takeWhile_sublist _).subset h

end Blocks

/-- The handler of an exception starts later, and belongs to a scope that is no loop. -/
theorem BlockStack.forward_of_exceptionTarget {s : BlockStack} {a : Arena} {offset target : Int}
    (h : s.exceptionTarget a offset = some target) :
    offset < target ∧ ∃ x ∈ s.toList a, x.2.kind ≠ .loopBlock ∧ x.2.exit = target := by
  obtain ⟨x, hx, hc, rfl⟩ := exists_of_exceptionTarget h
  exact ⟨Scope.lt_exit_of_catches hc, x, hx, Scope.kind_ne_loopBlock_of_catches hc, rfl⟩

namespace Instruction

variable {i : Instruction} {a : Arena} {next : Option Int} {s : BlockStack} {f : PathFacts}
  {r : Resolution}

/-- The instruction leaves the function: by a return, or by an exception, that no handler is in
the way of. -/
def Leaves (i : Instruction) (stack : List (Nat × Scope)) (f : PathFacts) : Prop :=
  i.opcode.flow = .returnValue ∧ ¬ Intercepted i.offset stack ∨
  i.opcode.flow = .raise ∧ ¬ Caught i.offset stack ∨
  i.opcode.flow = .endFinally ∧ f.returned = true ∧ ¬ Intercepted i.offset stack

/-- The ways in which an offset becomes a successor. A restart of an `END_FINALLY` is known by the
continue that is pending for its innermost loop. -/
inductive Reason (i : Instruction) (a : Arena) (next : Option Int) (s : BlockStack)
    (f : PathFacts) (target : Int) : Prop where
  | exit (leaves : i.Leaves (s.toList a) f) (exit : target = Offset.exit)
  | next (fall : next = some target)
  | jump (flow : i.opcode.flow = .jump ∨ i.opcode.flow = .branch ∨ i.opcode.flow = .continueLoop)
      (jump : i.jumpTarget = some target)
  | handler (forward : i.offset < target) (x : Nat × Scope) (active : x ∈ s.toList a)
      (handles : x.2.kind ≠ .loopBlock) (exit : x.2.exit = target)
  | loopExit (flow : i.opcode.flow = .breakLoop ∨ i.opcode.flow = .endFinally) (l : Nat × Scope)
      (loop : s.innermostLoop? a = some l) (exit : l.2.exit = target)
  | restart (flow : i.opcode.flow = .endFinally) (l : Nat × Scope)
      (loop : s.innermostLoop? a = some l) (pending : f.Holds (.continued l.1 target))

theorem Reason.of_exceptionTarget {target : Int}
    (h : s.exceptionTarget a i.offset = some target) : i.Reason a next s f target := by
  obtain ⟨hlt, x, hx, hk, he⟩ := forward_of_exceptionTarget h
  exact .handler hlt x hx hk he

theorem Reason.of_handler? {target : Int} {scopes : List (Nat × Scope)}
    (hsub : ∀ x ∈ scopes, x ∈ s.toList a) (h : handler? i.offset scopes = some target) :
    i.Reason a next s f target := by
  obtain ⟨hlt, x, hx, hk, he⟩ := forward_of_handler? h
  exact .handler hlt x (hsub x hx) hk he

/-- A reason lies in the scopes of the stack, wherever these are kept. -/
theorem Reason.of_toList_eq {a' : Arena} {target : Int} (h : i.Reason a next s f target)
    (hs : s.toList a = s.toList a') : i.Reason a' next s f target := by
  cases h with
  | exit leaves exit => exact .exit (hs ▸ leaves) exit
  | next fall => exact .next fall
  | jump flow jump => exact .jump flow jump
  | handler forward x active handles exit => exact .handler forward x (hs ▸ active) handles exit
  | loopExit flow l loop exit =>
    rw [innermostLoop?_eq, hs] at loop
    exact .loopExit flow l loop exit
  | restart flow l loop pending =>
    rw [innermostLoop?_eq, hs] at loop
    exact .restart flow l loop pending

/-- Every successor has a reason. -/
theorem Outcome.reason (h : i.Outcome a next s f r) (ho : 0 ≤ i.offset) {b : Int}
    (hb : b ∈ r.successors) : i.Reason a next s f b := by
  cases h with
  | sequential flow fall =>
    simp only [List.mem_eraseDups, List.mem_append, List.mem_singleton, Option.mem_toList] at hb
    rcases hb with rfl | hb
    · exact .next fall
    · exact .of_exceptionTarget hb
  | jump flow jump =>
    cases List.mem_singleton.1 hb
    exact .jump (.inl flow) jump
  | branch flow fall jump =>
    simp only [List.mem_eraseDups, List.mem_cons, List.not_mem_nil, or_false] at hb
    rcases hb with rfl | rfl
    · exact .next fall
    · exact .jump (.inr (.inl flow)) jump
  | breakThrough flow loop detour | continueThrough flow jump loop detour =>
    cases List.mem_singleton.1 hb
    exact .of_handler? (fun _ => mem_of_mem_insideLoop) detour
  | breakOut flow loop direct =>
    cases List.mem_singleton.1 hb
    exact .loopExit (.inl flow) _ loop rfl
  | continueOut flow jump loop direct =>
    cases List.mem_singleton.1 hb
    exact .jump (.inr (.inr flow)) jump
  | setup flow fall jump =>
    cases List.mem_singleton.1 hb
    exact .next fall
  | popBlock flow fall | popExcept flow fall =>
    cases List.mem_singleton.1 hb
    exact .next fall
  | returnValue flow =>
    rw [List.mem_singleton, returnTarget_eq] at hb
    cases hh : handler? i.offset (s.toList a) with
    | none => exact .exit (.inl ⟨flow, handler?_eq_none.1 hh⟩) (by simpa [hh] using hb)
    | some handler =>
      rw [hh, Option.getD_some] at hb
      exact .of_handler? (fun _ hx => hx) (hb ▸ hh)
  | raise flow =>
    simp only [List.mem_eraseDups, List.mem_append, List.mem_singleton, Option.mem_toList] at hb
    rcases hb with hb | hb
    · exact .next hb
    · cases hh : s.exceptionTarget a i.offset with
      | none =>
        refine .exit (.inr (.inl ⟨flow, ?_⟩)) (by simpa [hh] using hb)
        exact exceptionTarget_eq_none.1 hh
      | some handler =>
        rw [hh, Option.getD_some] at hb
        exact .of_exceptionTarget (hb ▸ hh)
  | endFinally flow =>
    simp only [List.mem_eraseDups, List.mem_append, Option.mem_toList,
      mem_resumeDeferred ho] at hb
    rcases hb with (hb | hb) | ⟨fact, crossed, final, hf, hu, hb⟩
    · exact .next hb
    · exact .of_exceptionTarget hb
    · have hsub : ∀ x ∈ crossed, x ∈ s.toList a := by
        cases hu with
        | returned => exact fun _ hx => hx
        | broken => exact fun _ => mem_of_mem_insideLoop
        | continued => exact fun _ => mem_of_mem_insideLoop
      cases hh : handler? i.offset crossed with
      | some handler =>
        rw [hh, Option.getD_some] at hb
        exact .of_handler? hsub (hb ▸ hh)
      | none =>
        -- nothing is in the way, so that control goes to where the pending fact ends
        rw [hh, Option.getD_none] at hb
        cases hu with
        | returned => exact .exit (.inr (.inr ⟨flow, hf, handler?_eq_none.1 hh⟩)) hb
        | broken loop => exact .loopExit (.inr flow) _ loop hb.symm
        | continued loop =>
          cases hb
          exact .restart flow _ loop hf

/-- An instruction that leaves the function has the exit as a successor. -/
theorem Outcome.exit_mem_successors (h : i.Outcome a next s f r) (ho : 0 ≤ i.offset)
    (hleaves : i.Leaves (s.toList a) f) : Offset.exit ∈ r.successors := by
  cases h with
  | returnValue flow =>
    have hfree : ¬ Intercepted i.offset (s.toList a) := by simpa [Leaves, flow] using hleaves
    rw [returnTarget_eq, handler?_eq_none.2 hfree]
    exact List.mem_singleton_self _
  | raise flow =>
    have hfree : ¬ Caught i.offset (s.toList a) := by simpa [Leaves, flow] using hleaves
    rw [exceptionTarget_eq_none.2 hfree]
    simp
  | endFinally flow =>
    have hfree : f.returned = true ∧ ¬ Intercepted i.offset (s.toList a) := by
      simpa [Leaves, flow] using hleaves
    have hresumed : Offset.exit ∈ (resumeDeferred a s i.offset f).1 := by
      refine (mem_resumeDeferred ho).2 ⟨.returned, _, _, hfree.1, .returned, ?_⟩
      rw [handler?_eq_none.2 hfree.2, Option.getD_none]
    simp [hresumed]
  | sequential flow | jump flow | branch flow | breakThrough flow | breakOut flow
  | continueThrough flow | continueOut flow | setup flow | popBlock flow | popExcept flow =>
    simp [Leaves, flow] at hleaves

theorem Outcome.nodup_successors (h : i.Outcome a next s f r) : r.successors.Nodup := by
  cases h with
  | sequential | branch | raise | endFinally => exact nodup_eraseDups _
  | _ => exact List.pairwise_singleton _ _

/-- Where control falls through, the next instruction is there and comes first. -/
theorem Outcome.head?_successors (h : i.Outcome a next s f r)
    (hfall : i.opcode.flow.fallsThrough = true ∨
      i.opcode.flow.mayFallThrough = true ∧ next ≠ none) :
    ∃ following, next = some following ∧ r.successors.head? = some following := by
  cases h with
  | sequential flow fall | branch flow fall =>
    refine ⟨_, fall, ?_⟩
    simp [List.eraseDups_cons]
  | setup flow fall | popBlock flow fall | popExcept flow fall => exact ⟨_, fall, rfl⟩
  | raise flow | endFinally flow =>
    cases next with
    | none => simp [flow, Flow.fallsThrough] at hfall
    | some following =>
      refine ⟨following, rfl, ?_⟩
      simp [List.eraseDups_cons]
  | jump flow | breakThrough flow | breakOut flow | continueThrough flow | continueOut flow
  | returnValue flow =>
    simp [flow, Flow.fallsThrough, Flow.mayFallThrough] at hfall

end Instruction

end BytecodeFlow
