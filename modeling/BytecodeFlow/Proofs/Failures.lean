import BytecodeFlow.Proofs.Pass

/-!
# Why a visit fails

An instruction that cannot be resolved lacks a next instruction, a jump target or a loop, and these
are looked for in this order (`Instruction.resolve_eq_error_iff`). Before that its predecessors have
to hand over one innermost scope. `Construction.Fault` gives the failure of a visit for each of
these, and a step fails exactly with a fault of a live instruction (`advance_eq_some_iff`).
-/

namespace BytecodeFlow

open BlockStack Blocks Resolution

/-! ## Instructions that cannot be resolved -/

namespace Instruction

/-- Control would go on after the last instruction. -/
def RunsOff (i : Instruction) (next : Option Int) : Prop :=
  i.opcode.flow.fallsThrough = true ∧ next = none

/-- The instruction is a jump to nowhere. -/
def LacksTarget (i : Instruction) : Prop :=
  i.opcode.hasJumpTarget = true ∧ i.jumpTarget = none

/-- The instruction leaves or restarts a loop, and there is none. -/
def LacksLoop (i : Instruction) (stack : List (Nat × Scope)) : Prop :=
  (i.opcode.flow = .breakLoop ∨ i.opcode.flow = .continueLoop) ∧
    ∀ x ∈ stack, x.2.kind ≠ .loopBlock

/-- The failures of an instruction. Each is for something that it needs and does not have, when
all that it needs before is there. -/
inductive Lacks (i : Instruction) (next : Option Int) (stack : List (Nat × Scope)) :
    BuildError → Prop where
  | next (runsOff : i.RunsOff next) : Lacks i next stack (.fallsOffEnd i.offset i.opcode)
  | jumpTarget (goesOn : ¬ i.RunsOff next) (lacksTarget : i.LacksTarget) :
      Lacks i next stack (.missingJumpTarget i.offset i.opcode)
  | loop (goesOn : ¬ i.RunsOff next) (hasTarget : ¬ i.LacksTarget)
      (lacksLoop : i.LacksLoop stack) : Lacks i next stack (.missingLoop i.offset i.opcode)

variable {i : Instruction} {a : Arena} {next : Option Int} {s : BlockStack} {f : PathFacts}
  {e : BuildError}

theorem exists_lacks_iff {stack : List (Nat × Scope)} :
    (∃ e, i.Lacks next stack e) ↔ i.RunsOff next ∨ i.LacksTarget ∨ i.LacksLoop stack := by
  constructor
  · intro h
    obtain ⟨e, h⟩ := h
    cases h with
    | next runsOff => exact .inl runsOff
    | jumpTarget goesOn lacksTarget => exact .inr (.inl lacksTarget)
    | loop goesOn hasTarget lacksLoop => exact .inr (.inr lacksLoop)
  · intro h
    by_cases hnext : i.RunsOff next
    · exact ⟨_, .next hnext⟩
    by_cases htarget : i.LacksTarget
    · exact ⟨_, .jumpTarget hnext htarget⟩
    · exact ⟨_, .loop hnext htarget ((h.resolve_left hnext).resolve_left htarget)⟩

/-- An instruction that lacks nothing can be resolved. -/
theorem exists_outcome (hnext : ¬ i.RunsOff next) (htarget : ¬ i.LacksTarget)
    (hloop : ¬ i.LacksLoop (s.toList a)) : ∃ r, i.Outcome a next s f r := by
  have hfall (hf : i.opcode.flow.fallsThrough = true) : ∃ following, next = some following := by
    cases next with
    | none => exact absurd ⟨hf, rfl⟩ hnext
    | some following => exact ⟨following, rfl⟩
  have hjump (hf : i.opcode.flow.hasJumpTarget = true) : ∃ target, i.jumpTarget = some target := by
    cases ht : i.jumpTarget with
    | none => exact absurd ⟨hf, ht⟩ htarget
    | some target => exact ⟨target, rfl⟩
  have hinner (hf : i.opcode.flow = .breakLoop ∨ i.opcode.flow = .continueLoop) :
      ∃ l, s.innermostLoop? a = some l := by
    cases hl : s.innermostLoop? a with
    | none =>
      have hnone : ∀ x ∈ s.toList a, x.2.kind ≠ .loopBlock := by
        simpa [BlockStack.innermostLoop?, ScopeKind.isLoop] using hl
      exact absurd ⟨hf, hnone⟩ hloop
    | some l => exact ⟨l, rfl⟩
  cases hf : i.opcode.flow with
  | sequential =>
    obtain ⟨following, hn⟩ := hfall (by rw [hf]; rfl)
    exact ⟨_, .sequential hf hn⟩
  | jump =>
    obtain ⟨target, ht⟩ := hjump (by rw [hf]; rfl)
    exact ⟨_, .jump hf ht⟩
  | branch =>
    obtain ⟨following, hn⟩ := hfall (by rw [hf]; rfl)
    obtain ⟨target, ht⟩ := hjump (by rw [hf]; rfl)
    exact ⟨_, .branch hf hn ht⟩
  | breakLoop =>
    obtain ⟨l, hl⟩ := hinner (.inl hf)
    cases hh : handler? i.offset (insideLoop (s.toList a)) with
    | none => exact ⟨_, .breakOut hf hl hh⟩
    | some handler => exact ⟨_, .breakThrough hf hl hh⟩
  | continueLoop =>
    obtain ⟨restart, ht⟩ := hjump (by rw [hf]; rfl)
    obtain ⟨l, hl⟩ := hinner (.inr hf)
    cases hh : handler? i.offset (insideLoop (s.toList a)) with
    | none => exact ⟨_, .continueOut hf ht hl hh⟩
    | some handler => exact ⟨_, .continueThrough hf ht hl hh⟩
  | setup kind =>
    obtain ⟨following, hn⟩ := hfall (by rw [hf]; rfl)
    obtain ⟨exit, ht⟩ := hjump (by rw [hf]; rfl)
    exact ⟨_, .setup hf hn ht⟩
  | popBlock =>
    obtain ⟨following, hn⟩ := hfall (by rw [hf]; rfl)
    exact ⟨_, .popBlock hf hn⟩
  | popExcept =>
    obtain ⟨following, hn⟩ := hfall (by rw [hf]; rfl)
    exact ⟨_, .popExcept hf hn⟩
  | returnValue => exact ⟨_, .returnValue hf⟩
  | raise => exact ⟨_, .raise hf⟩
  | endFinally => exact ⟨_, .endFinally hf⟩

/-- What is looked for first is reported. -/
theorem resolve_of_lacks (h : i.Lacks next (s.toList a) e) : i.resolve a next s f = .error e := by
  cases h with
  | next runsOff =>
    obtain ⟨hfall, rfl⟩ := runsOff
    cases hf : i.opcode.flow with
    | sequential | branch | setup kind | popBlock | popExcept => simp [resolve, hf, fallThrough]
    | _ => simp [hf, Flow.fallsThrough] at hfall
  | jumpTarget goesOn lacksTarget =>
    obtain ⟨hjump, hnone⟩ := lacksTarget
    rw [Opcode.hasJumpTarget] at hjump
    cases hf : i.opcode.flow with
    | jump | continueLoop => simp [resolve, hf, jumpTo, hnone]
    | branch | setup kind =>
      cases next with
      | none => exact absurd ⟨by rw [hf]; rfl, rfl⟩ goesOn
      | some following => simp [resolve, hf, fallThrough, jumpTo, hnone]
    | _ => simp [hf, Flow.hasJumpTarget] at hjump
  | loop goesOn hasTarget lacksLoop =>
    obtain ⟨hflow, hnone⟩ := lacksLoop
    have hnone : s.innermostLoop? a = none := by
      simpa [BlockStack.innermostLoop?, ScopeKind.isLoop] using hnone
    rcases hflow with hf | hf
    · simp [resolve, hf, enclosingLoop, hnone]
    · cases ht : i.jumpTarget with
      | none => exact absurd ⟨by rw [Opcode.hasJumpTarget, hf]; rfl, ht⟩ hasTarget
      | some restart => simp [resolve, hf, jumpTo, ht, enclosingLoop, hnone]

/-- An instruction fails exactly for what it lacks. -/
theorem resolve_eq_error_iff : i.resolve a next s f = .error e ↔ i.Lacks next (s.toList a) e := by
  constructor
  · intro h
    by_cases hlacks : ∃ e', i.Lacks next (s.toList a) e'
    · obtain ⟨e', hlacks⟩ := hlacks
      rw [resolve_of_lacks hlacks] at h
      cases h
      exact hlacks
    · rw [exists_lacks_iff, not_or, not_or] at hlacks
      obtain ⟨r, hr⟩ := exists_outcome hlacks.1 hlacks.2.1 hlacks.2.2
      rw [resolve_of_outcome hr] at h
      cases h
  · exact resolve_of_lacks

end Instruction

/-! ## Visits that fail -/

namespace Construction

variable {c : Construction} {i : Instruction} {next : Option Int} {e : BuildError}

/-- Two predecessors hand over block stacks with different innermost scopes. -/
def Disagreement (c : Construction) (i : Instruction) : Prop :=
  ∃ m ∈ c.incoming i.offset, ∃ n ∈ c.incoming i.offset,
    (c.handedOver m i.offset).top ≠ (c.handedOver n i.offset).top

/-- The failures of a visit. Predecessors that disagree come before all that the instruction can
lack; the first of them is named, and the first that differs from it. -/
inductive Fault (c : Construction) (i : Instruction) (next : Option Int) : BuildError → Prop where
  | disagreement {m n : Node} (expected : m ∈ c.incoming i.offset)
      (first : ∀ p ∈ c.incoming i.offset, m.offset ≤ p.offset)
      (found : n ∈ c.incoming i.offset)
      (differs : (c.handedOver m i.offset).top ≠ (c.handedOver n i.offset).top)
      (firstDiffering : ∀ p ∈ c.incoming i.offset,
        (c.handedOver m i.offset).top ≠ (c.handedOver p i.offset).top → n.offset ≤ p.offset) :
      Fault c i next (.inconsistentStack i.offset i.opcode
        ((c.handedOver m i.offset).scopes c.arena) m.offset
        ((c.handedOver n i.offset).scopes c.arena) n.offset)
  | lacks {s : BlockStack} {e : BuildError} (agreement : ¬ c.Disagreement i)
      (joined : c.joinStacks i = .ok s) (lacks : i.Lacks next (s.toList c.arena) e) :
      Fault c i next e

/-- The first predecessor is compared with the others in turn. -/
theorem joinStacks_eq_error_iff :
    c.joinStacks i = .error e ↔
      ∃ m n, (c.incoming i.offset).head? = some m ∧
        (c.incoming i.offset).find? (fun p =>
          (c.handedOver m i.offset).top != (c.handedOver p i.offset).top) = some n ∧
        e = .inconsistentStack i.offset i.opcode ((c.handedOver m i.offset).scopes c.arena)
          m.offset ((c.handedOver n i.offset).scopes c.arena) n.offset := by
  have hne (s t : BlockStack) : (s != t) = (t.top != s.top) := by
    rw [bne, bne, Bool.not_inj_iff, Bool.eq_iff_iff, beq_iff_eq, beq_iff_eq, eq_comm,
      BlockStack.mk.injEq]
  unfold joinStacks
  cases hin : c.incoming i.offset with
  | nil => simp
  | cons first rest =>
    simp only [hne, List.head?_cons, Option.some.injEq, exists_and_left, exists_eq_left']
    rw [List.find?_cons_of_neg (by simp)]
    cases rest.find? fun p =>
      (c.handedOver first i.offset).top != (c.handedOver p i.offset).top with
    | none => simp
    | some other => simp [eq_comm]

theorem not_disagreement_of_joinStacks {s : BlockStack} (hs : c.joinStacks i = .ok s) :
    ¬ c.Disagreement i := by
  intro h
  obtain ⟨m, hm, n, hn, hne⟩ := h
  rcases joinStacks_ok hs with ⟨hnil, _⟩ | ⟨_, hall⟩
  · rw [hnil] at hm
    cases hm
  · rw [← hall m hm, ← hall n hn] at hne
    exact hne rfl

theorem disagreement_of_joinStacks (hs : c.joinStacks i = .error e) : c.Disagreement i := by
  obtain ⟨m, n, hm, hn, _⟩ := joinStacks_eq_error_iff.1 hs
  refine ⟨m, List.mem_of_head? hm, n, List.mem_of_find?_eq_some hn, ?_⟩
  simpa using List.find?_some hn

/-- In ascending order the first node with a property is the one at the least offset. -/
theorem find?_eq_some_iff_least {nodes : List Node}
    (hasc : nodes.Pairwise fun m n => m.offset < n.offset) {p : Node → Bool} {n : Node} :
    nodes.find? p = some n ↔
      n ∈ nodes ∧ p n = true ∧ ∀ m ∈ nodes, p m = true → n.offset ≤ m.offset := by
  induction nodes with
  | nil => simp
  | cons x rest ih =>
    obtain ⟨hx, hrest⟩ := List.pairwise_cons.1 hasc
    cases hp : p x with
    | true =>
      rw [List.find?_cons_of_pos hp, Option.some.injEq]
      constructor
      · rintro rfl
        refine ⟨by simp, hp, ?_⟩
        intro m hm _
        rcases List.mem_cons.1 hm with rfl | hm
        · exact Int.le_refl _
        · exact Int.le_of_lt (hx m hm)
      · rintro ⟨hn, _, hleast⟩
        rcases List.mem_cons.1 hn with rfl | hn
        · rfl
        · have hlt := hx n hn
          have hle := hleast x (by simp) hp
          omega
    | false =>
      have hno : ∀ m, p m = true → (m ∈ x :: rest ↔ m ∈ rest) := by
        intro m hm
        have hne : m ≠ x := by
          rintro rfl
          rw [hp] at hm
          cases hm
        simp [hne]
      rw [List.find?_cons_of_neg (by simp [hp]), ih hrest]
      constructor
      · rintro ⟨hn, hpn, hleast⟩
        exact ⟨(hno n hpn).2 hn, hpn, fun m hm hpm => hleast m ((hno m hpm).1 hm) hpm⟩
      · rintro ⟨hn, hpn, hleast⟩
        exact ⟨(hno n hpn).1 hn, hpn, fun m hm hpm => hleast m ((hno m hpm).2 hm) hpm⟩

/-- A visit fails with the first fault that it finds. -/
theorem visit_eq_some_iff
    (hasc : (c.incoming i.offset).Pairwise fun m n => m.offset < n.offset) :
    (c.visit i next).2 = some e ↔ c.Fault i next e := by
  have hfirst (m : Node) : (c.incoming i.offset).head? = some m ↔
      m ∈ c.incoming i.offset ∧ ∀ p ∈ c.incoming i.offset, m.offset ≤ p.offset := by
    have htrue : (c.incoming i.offset).find? (fun _ => true) = (c.incoming i.offset).head? := by
      cases c.incoming i.offset <;> rfl
    rw [← htrue, find?_eq_some_iff_least hasc]
    simp
  constructor
  · intro h
    unfold visit at h
    cases hs : c.joinStacks i with
    | error e' =>
      simp only [hs, Option.some.injEq] at h
      obtain ⟨m, n, hm, hn, rfl⟩ := joinStacks_eq_error_iff.1 (h ▸ hs)
      obtain ⟨hm, hleast⟩ := (hfirst m).1 hm
      obtain ⟨hn, hne, hleast'⟩ := (find?_eq_some_iff_least hasc).1 hn
      simp only [bne_iff_ne] at hne hleast'
      exact .disagreement hm hleast hn hne hleast'
    | ok s =>
      cases hr : i.resolve c.arena next s (c.joinFacts i.offset) with
      | ok r => simp [hs, hr] at h
      | error e' =>
        simp only [hs, hr, Option.some.injEq] at h
        have hlacks := Instruction.resolve_eq_error_iff.1 (h ▸ hr)
        exact .lacks (not_disagreement_of_joinStacks hs) hs hlacks
  · intro h
    unfold visit
    cases h with
    | @disagreement m n expected first found differs firstDiffering =>
      have hm := (hfirst m).2 ⟨expected, first⟩
      have hn : (c.incoming i.offset).find? (fun p =>
          (c.handedOver m i.offset).top != (c.handedOver p i.offset).top) = some n := by
        refine (find?_eq_some_iff_least hasc).2 ⟨found, by simpa using differs, ?_⟩
        intro p hp hne
        exact firstDiffering p hp (by simpa using hne)
      rw [joinStacks_eq_error_iff.2 ⟨m, n, hm, hn, rfl⟩]
    | lacks agreement joined lacks =>
      simp [joined, Instruction.resolve_eq_error_iff.2 lacks]

/-- An instruction is visited, and its visit finds a fault: two predecessors disagree, or the
instruction lacks something. -/
def Offends (c : Construction) (i : Instruction) (next : Option Int) : Prop :=
  c.isLive i = true ∧ (c.Disagreement i ∨ i.RunsOff next ∨ i.LacksTarget ∨
    ∃ s, c.joinStacks i = .ok s ∧ i.LacksLoop (s.toList c.arena))

theorem exists_fault_iff
    (hasc : (c.incoming i.offset).Pairwise fun m n => m.offset < n.offset) :
    (∃ e, c.Fault i next e) ↔ c.Disagreement i ∨ i.RunsOff next ∨ i.LacksTarget ∨
      ∃ s, c.joinStacks i = .ok s ∧ i.LacksLoop (s.toList c.arena) := by
  cases hs : c.joinStacks i with
  | error e =>
    have hfault : c.Fault i next e := (visit_eq_some_iff hasc).1 (by simp [visit, hs])
    have hdisagree := disagreement_of_joinStacks hs
    exact ⟨fun _ => .inl hdisagree, fun _ => ⟨e, hfault⟩⟩
  | ok s =>
    have hagree := not_disagreement_of_joinStacks hs
    simp only [hagree, false_or, Except.ok.injEq, exists_eq_left', ← Instruction.exists_lacks_iff]
    constructor
    · intro h
      obtain ⟨e, h⟩ := h
      cases h with
      | disagreement hm _ hn hne _ => exact absurd ⟨_, hm, _, hn, hne⟩ hagree
      | lacks _ joined lacks =>
        cases hs.symm.trans joined
        exact ⟨e, lacks⟩
    · intro h
      obtain ⟨e, h⟩ := h
      exact ⟨e, .lacks hagree hs h⟩

/-- A step fails exactly for an instruction that offends, with its fault. -/
theorem advance_eq_some_iff
    (hasc : (c.incoming i.offset).Pairwise fun m n => m.offset < n.offset) :
    (c.advance i next).2 = some e ↔ c.Offends i next ∧ c.Fault i next e := by
  rw [Offends, ← exists_fault_iff hasc, and_assoc]
  unfold advance
  cases hlive : c.isLive i with
  | false => simp
  | true =>
    simp only [if_true, visit_eq_some_iff hasc, true_and]
    exact ⟨fun h => ⟨⟨e, h⟩, h⟩, fun h => h.2⟩

theorem advance_eq_none_iff
    (hasc : (c.incoming i.offset).Pairwise fun m n => m.offset < n.offset) :
    (c.advance i next).2 = none ↔ ¬ c.Offends i next := by
  rw [Option.eq_none_iff_forall_ne_some]
  simp only [ne_eq, advance_eq_some_iff hasc]
  constructor
  · intro h hoffends
    obtain ⟨e, he⟩ := (exists_fault_iff hasc).2 hoffends.2
    exact h e ⟨hoffends, he⟩
  · intro h e he
    exact h he.1

end Construction

end BytecodeFlow
