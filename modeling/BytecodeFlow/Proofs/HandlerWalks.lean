import BytecodeFlow.Proofs.DeferredTransfer

/-!
# The walks to a handler agree

An exception, a return and a break or continue look for their handlers in different ways: going
from parent to parent, searching all scopes, and searching the scopes in front of the innermost
loop. Each way stops at the first scope with a property (`Blocks.StopsAt`). What stops a return is
never further in than what stops an exception, and what stops a break is what stops a return
(`BlockStack.handler_walks_agree`).
-/

namespace BytecodeFlow

open BlockStack Blocks Resolution

namespace Blocks

/-- Going outwards from the innermost scope, the first one with a property is at this depth. -/
inductive StopsAt (p : Scope → Bool) : List (Nat × Scope) → Nat → Nat × Scope → Prop where
  | here {x : Nat × Scope} {outer : List (Nat × Scope)} (stops : p x.2 = true) :
      StopsAt p (x :: outer) 0 x
  | outwards {x y : Nat × Scope} {outer : List (Nat × Scope)} {depth : Nat}
      (passes : p x.2 = false) (further : StopsAt p outer depth y) :
      StopsAt p (x :: outer) (depth + 1) y

variable {p q : Scope → Bool} {stack : List (Nat × Scope)} {d e : Nat} {x y : Nat × Scope}
  {offset handler : Int}

theorem StopsAt.find?_eq (h : StopsAt p stack d x) : stack.find? (fun z => p z.2) = some x := by
  induction h with
  | here stops => exact List.find?_cons_of_pos stops
  | outwards passes _ ih => rw [List.find?_cons_of_neg (by simp [passes]), ih]

theorem exists_stopsAt (h : stack.find? (fun z => p z.2) = some x) : ∃ d, StopsAt p stack d x := by
  induction stack with
  | nil => cases h
  | cons y outer ih =>
    cases hy : p y.2 with
    | true =>
      rw [List.find?_cons_of_pos (by simpa using hy)] at h
      cases h
      exact ⟨0, .here hy⟩
    | false =>
      rw [List.find?_cons_of_neg (by simp [hy])] at h
      obtain ⟨d, hd⟩ := ih h
      exact ⟨d + 1, .outwards hy hd⟩

/-- A property that more scopes have stops no further out. -/
theorem StopsAt.exists_le (h : StopsAt p stack e y) (himp : ∀ s, p s = true → q s = true) :
    ∃ d x, d ≤ e ∧ StopsAt q stack d x := by
  induction h with
  | here stops => exact ⟨0, _, Nat.le_refl 0, .here (himp _ stops)⟩
  | @outwards x _ _ depth _ _ ih =>
    cases hx : q x.2 with
    | true => exact ⟨0, x, Nat.zero_le _, .here hx⟩
    | false =>
      obtain ⟨d, z, hle, hz⟩ := ih
      exact ⟨d + 1, z, Nat.succ_le_succ hle, .outwards hx hz⟩

/-- A property that no scope has up to where another one stops stops further out. -/
theorem StopsAt.lt (hp : StopsAt p stack d x) (hq : StopsAt q stack e y) (hx : q x.2 = false)
    (hpassed : ∀ z ∈ stack.takeWhile (fun z => !p z.2), q z.2 = false) : d < e := by
  induction hp generalizing e with
  | here _ =>
    cases hq with
    | here stops => simp [hx] at stops
    | outwards _ _ => exact Nat.succ_pos _
  | @outwards z _ outer depth passes _ ih =>
    rw [List.takeWhile_cons_of_pos (by simp [passes]), List.forall_mem_cons] at hpassed
    cases hq with
    | here stops => simp [hpassed.1] at stops
    | outwards _ further => exact Nat.succ_lt_succ (ih further hx hpassed.2)

/-- The handler that a jump runs first is that of the scope where it is stopped. -/
theorem exists_stopsAt_of_handler? (h : handler? offset stack = some handler) :
    ∃ e y, StopsAt (Scope.intercepts offset) stack e y ∧ y.2.exit = handler := by
  obtain ⟨y, hy, hexit⟩ := Option.map_eq_some_iff.1 h
  obtain ⟨e, he⟩ := exists_stopsAt hy
  exact ⟨e, y, he, hexit⟩

/-- A handler in the loop is in the way out of the whole stack. -/
theorem handler?_of_insideLoop (h : handler? offset (insideLoop stack) = some handler) :
    handler? offset stack = some handler := by
  obtain ⟨y, hy, hexit⟩ := Option.map_eq_some_iff.1 h
  have hfind : stack.find? (·.2.intercepts offset) = some y := by
    rw [← List.takeWhile_append_dropWhile (p := (!·.2.kind.isLoop)) (l := stack),
      List.find?_append, ← insideLoop, hy, Option.some_or]
  rw [handler?, hfind, Option.map_some, hexit]

end Blocks

/-- Whatever a pending fact has to leave, the first handler in the innermost loop is the first in
its way. -/
theorem Fact.Unwinds.handler?_eq {stack crossed : List (Nat × Scope)} {fact : Fact}
    {final offset handler : Int} (h : fact.Unwinds stack crossed final)
    (hd : handler? offset (insideLoop stack) = some handler) :
    handler? offset crossed = some handler := by
  cases h with
  | returned => exact handler?_of_insideLoop hd
  | broken | continued => exact hd

namespace BlockStack

variable {s : BlockStack} {a : Arena} {offset handler : Int} {l : Nat × Scope}

/-- Where a return is stopped, an exception is stopped at the same scope or further in. -/
theorem exists_stops_of_returnTarget (h : s.returnTarget a offset ≠ Offset.exit) :
    ∃ d x e y, d ≤ e ∧
      StopsAt (Scope.catches offset) (s.toList a) d x ∧
      s.exceptionTarget a offset = some x.2.exit ∧
      StopsAt (Scope.intercepts offset) (s.toList a) e y ∧
      s.returnTarget a offset = y.2.exit := by
  rw [returnTarget_eq] at h ⊢
  cases hh : handler? offset (s.toList a) with
  | none => simp [hh] at h
  | some handler =>
    obtain ⟨e, y, hy, hexit⟩ := exists_stopsAt_of_handler? hh
    obtain ⟨d, x, hle, hx⟩ := hy.exists_le fun _ => Scope.catches_of_intercepts
    have hexception : s.exceptionTarget a offset = some x.2.exit := by
      rw [exceptionTarget_eq, hx.find?_eq, Option.map_some]
    exact ⟨d, x, e, y, hle, hx, hexception, hy, hexit.symm⟩

theorem returnTarget_of_detour? (hl : s.innermostLoop? a = some l)
    (hd : s.detour? a offset l.1 = some handler) : s.returnTarget a offset = handler := by
  rw [detour?_eq hl] at hd
  rw [returnTarget_eq, handler?_of_insideLoop hd, Option.getD_some]

/-- A return that is stopped where a break out of the innermost loop is not, is stopped outside of
that loop. -/
theorem lt_of_detour?_eq_none {e : Nat} {y : Nat × Scope} (hl : s.innermostLoop? a = some l)
    (hd : s.detour? a offset l.1 = none)
    (hy : StopsAt (Scope.intercepts offset) (s.toList a) e y) :
    ∃ d, d < e ∧ StopsAt (·.kind.isLoop) (s.toList a) d l := by
  obtain ⟨d, hloop⟩ := exists_stopsAt (p := (·.kind.isLoop)) hl
  refine ⟨d, hloop.lt hy ?_ ?_, hloop⟩
  · have hkind : l.2.kind = .loopBlock := by simpa [ScopeKind.isLoop] using List.find?_some hl
    exact Bool.eq_false_iff.2 fun hstops =>
      Scope.kind_ne_loopBlock_of_catches (Scope.catches_of_intercepts hstops) hkind
  · intro z hz
    rw [detour?_eq hl, handler?_eq_none] at hd
    exact Bool.eq_false_iff.2 fun hstops => hd ⟨z, hz, hstops⟩

/-- Where a handler in the innermost loop is in the way, all that leave the loop go to it: a return,
break or continue, and what is pending of one at an `END_FINALLY`. -/
theorem exists_resolve_of_detour? {fact : Fact} {crossed : List (Nat × Scope)} {final : Int}
    {i : Instruction} (ho : 0 ≤ i.offset) (hl : s.innermostLoop? a = some l)
    (hd : s.detour? a i.offset l.1 = some handler)
    (hu : fact.Unwinds (s.toList a) crossed final) (next : Option Int) (f : PathFacts) :
    (i.Transfers fact → ∃ r, i.resolve a next s f = .ok r ∧ r.successors = [handler]) ∧
    (i.opcode.flow = .endFinally → f.Holds fact →
      ∃ r, i.resolve a next s f = .ok r ∧ handler ∈ r.successors) := by
  rw [detour?_eq hl] at hd
  have hcrossed := hu.handler?_eq hd
  constructor
  · intro hi
    obtain ⟨r, hr, hsuccessors, _⟩ := Instruction.exists_resolve_of_transfers hi hu next f
    rw [hcrossed, Option.getD_some] at hsuccessors
    exact ⟨r, hr, hsuccessors⟩
  · intro hi hf
    obtain ⟨r, hr, hmem, _⟩ := Instruction.exists_resolve_of_pending hi ho hu hf next
    rw [hcrossed, Option.getD_some] at hmem
    exact ⟨r, hr, hmem⟩

/-- An exception goes to the first scope that catches it. A return is stopped exactly if a scope
intercepts it, and then an exception is stopped at the same scope or further in. A break or
continue that is stopped is stopped where a return is; otherwise a return is stopped only outside
of the innermost loop. So whatever leaves the loop goes to the same handler if there is one in the
loop. -/
theorem handler_walks_agree (s : BlockStack) (a : Arena) (ho : 0 ≤ offset) :
    s.exceptionTarget a offset = ((s.toList a).find? (·.2.catches offset)).map (·.2.exit) ∧
    (s.returnTarget a offset ≠ Offset.exit ↔ Intercepted offset (s.toList a)) ∧
    (s.returnTarget a offset ≠ Offset.exit → ∃ d x e y, d ≤ e ∧
      StopsAt (Scope.catches offset) (s.toList a) d x ∧
      s.exceptionTarget a offset = some x.2.exit ∧
      StopsAt (Scope.intercepts offset) (s.toList a) e y ∧
      s.returnTarget a offset = y.2.exit) ∧
    (s.exceptionTarget a offset = none → s.returnTarget a offset = Offset.exit) ∧
    ∀ l, s.innermostLoop? a = some l →
      (∀ handler, s.detour? a offset l.1 = some handler → s.returnTarget a offset = handler) ∧
      (s.detour? a offset l.1 = none → s.returnTarget a offset ≠ Offset.exit →
        ∃ d e y, d < e ∧ StopsAt (·.kind.isLoop) (s.toList a) d l ∧
          StopsAt (Scope.intercepts offset) (s.toList a) e y ∧
          s.returnTarget a offset = y.2.exit) ∧
      (Intercepted offset (insideLoop (s.toList a)) →
        ∃ handler, s.detour? a offset l.1 = some handler ∧
          ∀ (i : Instruction) fact crossed final, i.offset = offset →
            fact.Unwinds (s.toList a) crossed final → ∀ next f,
            (i.Transfers fact → ∃ r, i.resolve a next s f = .ok r ∧ r.successors = [handler]) ∧
            (i.opcode.flow = .endFinally → f.Holds fact →
              ∃ r, i.resolve a next s f = .ok r ∧ handler ∈ r.successors)) := by
  refine ⟨exceptionTarget_eq s a offset, ?_, exists_stops_of_returnTarget, ?_, ?_⟩
  · rw [Ne, returnTarget_eq_exit_iff ho, handler?_eq_none, Decidable.not_not]
  · intro hnone
    by_contra hstopped
    obtain ⟨_, _, _, _, _, _, hexception, _⟩ := exists_stops_of_returnTarget hstopped
    simp [hnone] at hexception
  · intro l hl
    refine ⟨fun handler => returnTarget_of_detour? hl, ?_, ?_⟩
    · intro hd hstopped
      obtain ⟨_, _, e, y, _, _, _, hy, hreturn⟩ := exists_stops_of_returnTarget hstopped
      obtain ⟨d, hlt, hloop⟩ := lt_of_detour?_eq_none hl hd hy
      exact ⟨d, e, y, hlt, hloop, hy, hreturn⟩
    · intro hintercepted
      cases hd : s.detour? a offset l.1 with
      | none =>
        rw [detour?_eq hl, handler?_eq_none] at hd
        exact absurd hintercepted hd
      | some handler =>
        refine ⟨handler, rfl, ?_⟩
        rintro i fact crossed final rfl hu next f
        exact exists_resolve_of_detour? ho hl hd hu next f

/-- A loop in a `with` block, and in the loop an `except` block in a `finally` block. -/
def guardedLoop : Arena × BlockStack :=
  let inWith := BlockStack.empty.push .empty .withBlock 40 0
  let inLoop := inWith.2.push inWith.1 .loopBlock 30 2
  let inFinally := inLoop.2.push inLoop.1 .finallyBlock 26 4
  inFinally.2.push inFinally.1 .exceptBlock 20 6

/-- At 10 an exception goes to 20, and a return and a break go to 26. At 28 a break leaves the loop
and a return is stopped outside of it. -/
theorem handler_walks_agree_guardedLoop :
    guardedLoop.2.exceptionTarget guardedLoop.1 10 = some 20 ∧
      guardedLoop.2.returnTarget guardedLoop.1 10 = 26 ∧
      (∃ r, Instruction.resolve ⟨.returnValue, 10, none, none, false⟩ guardedLoop.1 none
        guardedLoop.2 {} = .ok r ∧ r.successors = [26]) ∧
      (∃ r, Instruction.resolve ⟨.breakLoop, 10, none, none, false⟩ guardedLoop.1 none
        guardedLoop.2 {} = .ok r ∧ r.successors = [26]) ∧
      guardedLoop.2.detour? guardedLoop.1 28 1 = none ∧
      ∃ d e y, d < e ∧
        StopsAt (·.kind.isLoop) (guardedLoop.2.toList guardedLoop.1) d
          (1, ⟨.loopBlock, 30, 2, some 0⟩) ∧
        StopsAt (Scope.intercepts 28) (guardedLoop.2.toList guardedLoop.1) e y ∧
        guardedLoop.2.returnTarget guardedLoop.1 28 = y.2.exit := by
  have hlist : guardedLoop.2.toList guardedLoop.1 =
      [(3, ⟨.exceptBlock, 20, 6, some 2⟩), (2, ⟨.finallyBlock, 26, 4, some 1⟩),
        (1, ⟨.loopBlock, 30, 2, some 0⟩), (0, ⟨.withBlock, 40, 0, none⟩)] := by decide +kernel
  have hloop : guardedLoop.2.innermostLoop? guardedLoop.1 =
      some (1, ⟨.loopBlock, 30, 2, some 0⟩) := by decide +kernel
  have hdetour : guardedLoop.2.detour? guardedLoop.1 10 1 = some 26 := by decide +kernel
  have hdirect : guardedLoop.2.detour? guardedLoop.1 28 1 = none := by decide +kernel
  obtain ⟨hexception, -, -, -, hjumps⟩ :=
    handler_walks_agree guardedLoop.2 guardedLoop.1 (by decide : (0 : Int) ≤ 10)
  obtain ⟨hreturn, -, hall⟩ := hjumps _ hloop
  obtain ⟨handler, hhandler, hgo⟩ := hall (by rw [hlist]; decide)
  cases hdetour.symm.trans hhandler
  obtain ⟨-, hstopped, -, -, hjumpsOut⟩ :=
    handler_walks_agree guardedLoop.2 guardedLoop.1 (by decide : (0 : Int) ≤ 28)
  refine ⟨?_, hreturn 26 hdetour, ?_, ?_, hdirect, ?_⟩
  · rw [hexception, hlist]
    rfl
  · exact (hgo ⟨.returnValue, 10, none, none, false⟩ _ _ _ rfl .returned none {}).1 rfl
  · exact (hgo ⟨.breakLoop, 10, none, none, false⟩ _ _ _ rfl (.broken hloop) none {}).1 rfl
  · apply (hjumpsOut _ hloop).2.1 hdirect
    rw [hstopped, hlist]
    decide

end BlockStack

end BytecodeFlow
