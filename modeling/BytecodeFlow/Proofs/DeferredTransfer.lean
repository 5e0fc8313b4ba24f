import BytecodeFlow.Proofs.Successors
import Mathlib.Data.List.Find
import Mathlib.Data.List.TakeWhile

/-!
# The way of a deferred transfer

A return, break or continue that has to run handlers goes to the innermost of them, and from the
`END_FINALLY` of each to the next one. After the last it arrives where it was going, and is no
longer pending (`deferred_transfer_completes`).
-/

namespace BytecodeFlow

open BlockStack Blocks Resolution

namespace Blocks

/-- The scopes whose handlers a jump runs. -/
def handlers (scopes : List (Nat × Scope)) : List (Nat × Scope) :=
  scopes.filter (·.2.kind.interceptsUnwinding)

/-- Before the exits of all scopes, the first handler in the way is the first handler. -/
theorem handler?_of_open {offset : Int} {scopes : List (Nat × Scope)}
    (hopen : ∀ x ∈ scopes, offset < x.2.exit) :
    handler? offset scopes = (handlers scopes).head?.map (·.2.exit) := by
  have hfind : scopes.find? (·.2.intercepts offset) =
      scopes.find? (·.2.kind.interceptsUnwinding) := by
    apply List.find?_congr
    intro x hx
    simp [Scope.intercepts, hopen x hx]
  rw [handler?, hfind, handlers, List.head?_filter]

/-- A handler splits the scopes, and the one after it is the first of what comes after it. -/
theorem exists_append_of_handlers {scopes : List (Nat × Scope)} {k : Nat} {x : Nat × Scope}
    (h : (handlers scopes)[k]? = some x) :
    ∃ inner rest, scopes = inner ++ x :: rest ∧
      (handlers scopes)[k + 1]? = (handlers rest).head? := by
  have hsplit := eq_take_append_of_getElem? h
  obtain ⟨first, later, hscopes, _, hlater⟩ := List.filter_eq_append_iff.1 hsplit
  obtain ⟨between, rest, rfl, _, _, hrest⟩ := List.filter_eq_cons_iff.1 hlater
  refine ⟨first ++ between, rest, by simp [hscopes], ?_⟩
  rw [← List.head?_drop, ← hrest]
  rfl

theorem innermostLoop?_append {inner outer : List (Nat × Scope)} {l : Nat × Scope}
    (hinner : ∀ x ∈ inner, x.2.kind.isLoop = false) (hl : l.2.kind.isLoop = true) :
    innermostLoop? (inner ++ l :: outer) = some l := by
  have hnone : inner.find? (·.2.kind.isLoop) = none := by simpa using hinner
  simp [innermostLoop?, List.find?_append, hnone, hl]

theorem insideLoop_append {inner outer : List (Nat × Scope)} {l : Nat × Scope}
    (hinner : ∀ x ∈ inner, x.2.kind.isLoop = false) (hl : l.2.kind.isLoop = true) :
    insideLoop (inner ++ l :: outer) = inner := by
  rw [insideLoop, List.takeWhile_append_of_pos]
  · simp [hl]
  · simpa using hinner

theorem isLoop_of_mem_insideLoop {stack : List (Nat × Scope)} {x : Nat × Scope}
    (h : x ∈ insideLoop stack) : x.2.kind.isLoop = false := by
  simpa using List.mem_takeWhile_imp h

end Blocks

/-- When some of the scopes have been left, those that remain are left to do. -/
theorem Fact.Unwinds.append {stack crossed : List (Nat × Scope)} {fact : Fact} {final : Int}
    (h : fact.Unwinds stack crossed final) :
    ∃ outer, stack = crossed ++ outer ∧
      ∀ left rest, crossed = left ++ rest → fact.Unwinds (rest ++ outer) rest final := by
  -- no scope inside of a loop is a loop, so that it stays the innermost one
  have hloop {l : Nat × Scope} (hl : innermostLoop? stack = some l)
      {left rest : List (Nat × Scope)} (hsplit : insideLoop stack = left ++ rest) :
      innermostLoop? (rest ++ l :: outsideLoop stack) = some l ∧
        insideLoop (rest ++ l :: outsideLoop stack) = rest := by
    have hrest : ∀ x ∈ rest, x.2.kind.isLoop = false := by
      intro x hx
      apply isLoop_of_mem_insideLoop
      rw [hsplit]
      exact List.mem_append_right left hx
    have hkind := isLoop_of_innermostLoop? hl
    exact ⟨innermostLoop?_append hrest hkind, insideLoop_append hrest hkind⟩
  cases h with
  | returned =>
    refine ⟨[], by simp, ?_⟩
    intro left rest _
    rw [List.append_nil]
    exact .returned
  | @broken l loop =>
    refine ⟨l :: outsideLoop stack, eq_inside_append loop, ?_⟩
    intro left rest hsplit
    obtain ⟨hinnermost, hinside⟩ := hloop loop hsplit
    have hu := Unwinds.broken hinnermost
    rwa [hinside] at hu
  | @continued l _ loop =>
    refine ⟨l :: outsideLoop stack, eq_inside_append loop, ?_⟩
    intro left rest hsplit
    obtain ⟨hinnermost, hinside⟩ := hloop loop hsplit
    have hu : Unwinds _ (.continued l.1 final) _ final := .continued hinnermost
    rwa [hinside] at hu

variable {a : Arena} {s : BlockStack} {i j : Instruction} {f : PathFacts} {fact : Fact}
  {crossed : List (Nat × Scope)} {final : Int}

/-- Before the exit of the scope around a scope, all scopes around it are open. -/
theorem BlockStack.lt_exit_of_between {x : Nat × Scope} {inner outer : List (Nat × Scope)}
    {offset : Int} (hs : s.toList a = inner ++ x :: outer)
    (hexits : (s.toList a).Pairwise fun x y => x.2.exit < y.2.exit)
    (hbelow : ∀ y, [x, y] <:+: s.toList a → offset < y.2.exit) :
    ∀ y ∈ outer, offset < y.2.exit := by
  intro y hy
  cases outer with
  | nil => cases hy
  | cons z rest =>
    have hz : offset < z.2.exit := hbelow z ⟨inner, rest, by simp [hs]⟩
    rw [hs, List.pairwise_append, List.pairwise_cons, List.pairwise_cons] at hexits
    rcases List.mem_cons.1 hy with rfl | hy
    · exact hz
    · exact Int.lt_trans hz (hexits.2.1.2.1 y hy)

/-- After the exit of a scope and before those of the scopes around it, these are what is left of
a stack. -/
theorem BlockStack.toList_popUntil_of_between {x : Nat × Scope}
    {inner outer : List (Nat × Scope)} {offset : Int} (hs : s.toList a = inner ++ x :: outer)
    (hexits : (s.toList a).Pairwise fun x y => x.2.exit < y.2.exit) (hx : x.2.exit ≤ offset)
    (hopen : ∀ y ∈ outer, offset < y.2.exit) :
    (s.popUntil a offset).toList a = outer := by
  rw [hs, List.pairwise_append] at hexits
  have hleft : ∀ y ∈ inner, y.2.exit ≤ offset := by
    intro y hy
    have := hexits.2.2 y hy x (by simp)
    omega
  rw [toList_popUntil, hs, List.dropWhile_append_of_pos (by simpa using hleft),
    List.dropWhile_cons_of_pos (by simpa using hx)]
  cases outer with
  | nil => rfl
  | cons y rest =>
    have hy : offset < y.2.exit := hopen y (by simp)
    rw [List.dropWhile_cons_of_neg (by simpa using hy)]

namespace Instruction

/-- The instruction is a return, a break or a continue, with the fact that is pending while it is
deferred. -/
def Transfers (i : Instruction) : Fact → Prop
  | .returned => i.opcode.flow = .returnValue
  | .raised => False
  | .broken _ => i.opcode.flow = .breakLoop
  | .continued _ restart => i.opcode.flow = .continueLoop ∧ i.jumpTarget = some restart

/-- A transfer goes to the handler in its way with its fact pending, or where it ends. -/
theorem exists_resolve_of_transfers (hi : i.Transfers fact)
    (hu : fact.Unwinds (s.toList a) crossed final) (next : Option Int) (f : PathFacts) :
    ∃ r, i.resolve a next s f = .ok r ∧
      r.successors = [(handler? i.offset crossed).getD final] ∧
      (Intercepted i.offset crossed → r.facts.Holds fact) := by
  cases hu with
  | returned =>
    refine ⟨_, resolve_of_outcome (.returnValue hi), ?_, ?_⟩
    · rw [returnTarget_eq]
    · intro _
      simp
  | broken loop =>
    cases hd : handler? i.offset (insideLoop (s.toList a)) with
    | none => exact ⟨_, resolve_of_outcome (.breakOut hi loop hd), rfl, by simp⟩
    | some handler => exact ⟨_, resolve_of_outcome (.breakThrough hi loop hd), rfl, by simp⟩
  | continued loop =>
    cases hd : handler? i.offset (insideLoop (s.toList a)) with
    | none =>
      refine ⟨_, resolve_of_outcome (.continueOut hi.1 hi.2 loop hd), rfl, ?_⟩
      intro hintercepted
      exact absurd hintercepted (handler?_eq_none.1 hd)
    | some handler =>
      exact ⟨_, resolve_of_outcome (.continueThrough hi.1 hi.2 loop hd), rfl, by simp⟩

/-- An `END_FINALLY` lets a pending transfer go on to the handler in its way with its fact still
pending, or to where it ends. -/
theorem exists_resolve_of_pending (hj : j.opcode.flow = .endFinally) (ho : 0 ≤ j.offset)
    (hu : fact.Unwinds (s.toList a) crossed final) (hf : f.Holds fact) (next : Option Int) :
    ∃ r, j.resolve a next s f = .ok r ∧ (handler? j.offset crossed).getD final ∈ r.successors ∧
      (r.facts.Holds fact ↔ Intercepted j.offset crossed) := by
  refine ⟨_, resolve_of_outcome (.endFinally hj), ?_, ?_⟩
  · have hmem : (handler? j.offset crossed).getD final ∈ (resumeDeferred a s j.offset f).1 :=
      (mem_resumeDeferred ho).2 ⟨fact, crossed, final, hf, hu, rfl⟩
    simp [hmem]
  · show (resumeDeferred a s j.offset f).2.Holds fact ↔ _
    rw [holds_resumeDeferred ho, hu.completes_iff, Decidable.not_not]
    exact and_iff_right hf

/-- A transfer goes to the innermost handler in its way, from the `END_FINALLY` of each handler
to the next one with its fact pending all along, and from the last one to where it ends, where
its fact is no longer pending. -/
theorem deferred_transfer_completes (ho : 0 ≤ i.offset)
    (hexits : (s.toList a).Pairwise fun x y => x.2.exit < y.2.exit)
    (hopen : ∀ x ∈ s.toList a, i.offset < x.2.exit) (hi : i.Transfers fact)
    (hu : fact.Unwinds (s.toList a) crossed final) :
    (∀ next f, ∃ r, i.resolve a next s f = .ok r ∧
      match (handlers crossed).head? with
      | some x => r.successors = [x.2.exit] ∧ r.facts.Holds fact
      | none => r.successors = [final]) ∧
    ∀ k x, (handlers crossed)[k]? = some x →
      ∀ j : Instruction, j.opcode.flow = .endFinally → x.2.exit ≤ j.offset →
        (∀ y, [x, y] <:+: s.toList a → j.offset < y.2.exit) →
      ∀ next f, f.Holds fact → ∃ r, j.resolve a next (s.popUntil a j.offset) f = .ok r ∧
        match (handlers crossed)[k + 1]? with
        | some y => y.2.exit ∈ r.successors ∧ r.facts.Holds fact
        | none => final ∈ r.successors ∧ ¬ r.facts.Holds fact := by
  obtain ⟨outer, hstack, hrest⟩ := hu.append
  have hcrossed : ∀ x ∈ crossed, x ∈ s.toList a := by
    intro x hx
    rw [hstack]
    exact List.mem_append_left outer hx
  refine ⟨?_, ?_⟩
  · intro next f
    obtain ⟨r, hr, hsuccessors, hfact⟩ := exists_resolve_of_transfers hi hu next f
    refine ⟨r, hr, ?_⟩
    have hhandler := handler?_of_open fun x hx => hopen x (hcrossed x hx)
    rw [hhandler] at hsuccessors
    cases hhead : (handlers crossed).head? with
    | none => simpa [hhead] using hsuccessors
    | some x =>
      rw [hhead] at hhandler
      exact ⟨by simpa [hhead] using hsuccessors, hfact (intercepted_of_handler? hhandler)⟩
  · intro k x hx j hj hle hbelow next f hf
    -- on arrival at the handler's end just the scopes up to the handler's own are gone
    obtain ⟨inner, rest, hsplit, hnext⟩ := exists_append_of_handlers hx
    have hlist : s.toList a = inner ++ x :: (rest ++ outer) := by
      rw [hstack, hsplit]
      simp
    have hopen' := lt_exit_of_between hlist hexits hbelow
    have hleft := toList_popUntil_of_between hlist hexits hle hopen'
    have hu' : fact.Unwinds ((s.popUntil a j.offset).toList a) rest final := by
      rw [hleft]
      exact hrest (inner ++ [x]) rest (by simp [hsplit])
    have hxo : i.offset < x.2.exit := hopen x (by simp [hlist])
    obtain ⟨r, hr, hmem, hfact⟩ := exists_resolve_of_pending hj (by omega) hu' hf next
    refine ⟨r, hr, ?_⟩
    have hhandler := handler?_of_open fun y hy => hopen' y (List.mem_append_left outer hy)
    rw [hnext]
    cases hhead : (handlers rest).head? with
    | none =>
      rw [hhead] at hhandler
      rw [hhandler] at hmem
      exact ⟨hmem, fun h => handler?_eq_none.1 hhandler (hfact.1 h)⟩
    | some y =>
      rw [hhead] at hhandler
      rw [hhandler] at hmem
      exact ⟨hmem, hfact.2 (intercepted_of_handler? hhandler)⟩

/-- A `finally` block in a `with` block in a loop. -/
def nestedHandlers : Arena × BlockStack :=
  let inLoop := BlockStack.empty.push .empty .loopBlock 22 0
  let inWith := inLoop.2.push inLoop.1 .withBlock 16 4
  inWith.2.push inWith.1 .finallyBlock 12 6

/-- A continue at 8 goes by the handlers at 12 and 16 to the restart of the loop at 2. -/
theorem deferred_transfer_completes_nestedHandlers :
    (∃ r, resolve ⟨.continueLoop, 8, some 2, some 2, false⟩ nestedHandlers.1 none nestedHandlers.2
        {} = .ok r ∧ r.successors = [12] ∧ r.facts.Holds (.continued 0 2)) ∧
    ∀ f : PathFacts, f.Holds (.continued 0 2) →
      (∃ r, resolve ⟨.endFinally, 14, none, none, false⟩ nestedHandlers.1 none
        (nestedHandlers.2.popUntil nestedHandlers.1 14) f = .ok r ∧
        16 ∈ r.successors ∧ r.facts.Holds (.continued 0 2)) ∧
      ∃ r, resolve ⟨.endFinally, 18, none, none, false⟩ nestedHandlers.1 none
        (nestedHandlers.2.popUntil nestedHandlers.1 18) f = .ok r ∧
        2 ∈ r.successors ∧ ¬ r.facts.Holds (.continued 0 2) := by
  have hlist : nestedHandlers.2.toList nestedHandlers.1 =
      [(2, ⟨.finallyBlock, 12, 6, some 1⟩), (1, ⟨.withBlock, 16, 4, some 0⟩),
        (0, ⟨.loopBlock, 22, 0, none⟩)] := by decide +kernel
  have hu : Fact.Unwinds (nestedHandlers.2.toList nestedHandlers.1) (.continued 0 2)
      [(2, ⟨.finallyBlock, 12, 6, some 1⟩), (1, ⟨.withBlock, 16, 4, some 0⟩)] 2 := by
    rw [hlist]
    exact .continued (l := (0, ⟨.loopBlock, 22, 0, none⟩)) rfl
  have hi : Transfers ⟨.continueLoop, 8, some 2, some 2, false⟩ (.continued 0 2) := ⟨rfl, rfl⟩
  obtain ⟨hstart, hresume⟩ := deferred_transfer_completes (by decide) (by rw [hlist]; decide)
    (by rw [hlist]; decide) hi hu
  refine ⟨hstart none {}, ?_⟩
  intro f hf
  refine ⟨?_, ?_⟩
  · apply hresume 0 _ rfl ⟨.endFinally, 14, none, none, false⟩ rfl (by decide) ?_ none f hf
    intro y hy
    have hwith : y = (1, ⟨.withBlock, 16, 4, some 0⟩) := by
      simpa [hlist, List.infix_cons_iff] using hy
    rw [hwith]
    decide
  · apply hresume 1 _ rfl ⟨.endFinally, 18, none, none, false⟩ rfl (by decide) ?_ none f hf
    intro y hy
    have hloop : y = (0, ⟨.loopBlock, 22, 0, none⟩) := by
      simpa [hlist, List.infix_cons_iff] using hy
    rw [hloop]
    decide

end Instruction

end BytecodeFlow
