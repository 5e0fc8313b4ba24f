import BytecodeFlow.Proofs.Built

/-!
# The arena is the log of the scopes that were opened

The scope with id `k` is the one that the `k`-th node with a `SETUP_*` instruction opened
(`Node.Opened`), and there are no others. This holds after any number of code units, whether or
not they fail (`Construction.arena_logs_setups`), so that every id that a node knows of is one of
the arena, and what a break or a continue is pending for is a loop (`PathFacts.NamesLoops`).
-/

namespace BytecodeFlow

open BlockStack Blocks Resolution Construction

/-! ## Ids of scopes -/

/-- An id stands for a loop. -/
def Arena.HasLoop (a : Arena) (id : Nat) : Prop :=
  ∃ scope, a.get? id = some scope ∧ scope.kind = .loopBlock

/-- An id is that of the innermost scope of a stack, or of one around it. -/
inductive BlockStack.Mentions (a : Arena) : BlockStack → Nat → Prop where
  | top (id : Nat) : Mentions a ⟨some id⟩ id
  | around {top id : Nat} {scope : Scope} (innermost : a.get? top = some scope)
      (outer : Mentions a ⟨scope.parent⟩ id) : Mentions a ⟨some top⟩ id

/-- The loop that a fact is about. -/
def Fact.loop? : Fact → Option Nat
  | .returned | .raised => none
  | .broken loop | .continued loop _ => some loop

/-- Whatever is pending for a loop, that is a loop of the arena. -/
def PathFacts.NamesLoops (f : PathFacts) (a : Arena) : Prop :=
  ∀ fact, f.Holds fact → ∀ loop ∈ fact.loop?, a.HasLoop loop

/-- The node opened the scope with an id. The scope has the kind, the jump target and the offset
of its instruction and lies in the innermost scope before it. After the node it is the innermost
one. -/
def Node.Opened (n : Node) (a : Arena) (id : Nat) : Prop :=
  ∃ i kind exit, n.instruction = some i ∧ n.offset = i.offset ∧ i.opcode.flow = .setup kind ∧
    i.jumpTarget = some exit ∧ a.get? id = some ⟨kind, exit, n.offset, n.stack.top⟩ ∧
    n.outStack = ⟨some id⟩

section Growth

variable {a b : Arena}

theorem Arena.HasLoop.mono {id : Nat} (h : a.HasLoop id) (hab : a.GrowsTo b) : b.HasLoop id := by
  obtain ⟨scope, hscope, hkind⟩ := h
  exact ⟨scope, hab id scope hscope, hkind⟩

theorem PathFacts.NamesLoops.mono {f : PathFacts} (h : f.NamesLoops a) (hab : a.GrowsTo b) :
    f.NamesLoops b :=
  fun fact hfact loop hloop => (h fact hfact loop hloop).mono hab

theorem Node.Opened.mono {n : Node} {id : Nat} (h : n.Opened a id) (hab : a.GrowsTo b) :
    n.Opened b id := by
  obtain ⟨i, kind, exit, hi, ho, hflow, hjump, hscope, hout⟩ := h
  exact ⟨i, kind, exit, hi, ho, hflow, hjump, hab id _ hscope, hout⟩

end Growth

/-- A stack within the arena has no id from outside of it. -/
theorem BlockStack.Mentions.lt_size {a : Arena} {s : BlockStack} {id : Nat}
    (h : s.Mentions a id) (hs : s.Within a) : id < a.size := by
  induction h with
  | top id => exact hs id rfl
  | around innermost _ ih => exact ih (within_parent innermost)

theorem BlockStack.hasLoop_of_innermostLoop? {a : Arena} {s : BlockStack} {l : Nat × Scope}
    (h : s.innermostLoop? a = some l) : a.HasLoop l.1 := by
  have hkind := isLoop_of_innermostLoop? h
  rw [ScopeKind.isLoop, beq_iff_eq] at hkind
  exact ⟨l.2, get?_of_mem_toList (List.mem_of_find?_eq_some h), hkind⟩

/-! ## One instruction -/

namespace Resolution

variable {a : Arena} {s : BlockStack} {offset : Int} {f : PathFacts} {fact : Fact}

theorem holds_of_holds_resumeReturn (h : (resumeReturn a s offset f).2.Holds fact) :
    f.Holds fact := by
  unfold resumeReturn at h
  split at h
  · simp only at h
    split at h
    · exact (PathFacts.holds_clearFlag_returned.1 h).2
    · exact h
  · exact h

/-- Nothing starts to be pending at an `END_FINALLY`. -/
theorem holds_of_holds_resumeDeferred (h : (resumeDeferred a s offset f).2.Holds fact) :
    f.Holds fact := by
  unfold resumeDeferred at h
  split at h
  · exact holds_of_holds_resumeReturn h
  · simp only [holds_resumeContinue, holds_resumeBreak] at h
    exact holds_of_holds_resumeReturn h.1.1

end Resolution

namespace Instruction

variable {i : Instruction} {a : Arena} {next : Option Int} {s : BlockStack} {f : PathFacts}
  {r : Resolution}

/-- An instruction makes a break or a continue pending only for the innermost loop. -/
theorem Outcome.namesLoops (h : i.Outcome a next s f r) (hf : f.NamesLoops a) :
    r.facts.NamesLoops a := by
  intro fact hfact
  cases h with
  | breakThrough flow loop detour | breakOut flow loop direct =>
    rcases PathFacts.holds_insertBroken.1 hfact with rfl | hfact
    · rintro _ ⟨⟩
      exact hasLoop_of_innermostLoop? loop
    · exact hf fact hfact
  | continueThrough flow jump loop detour =>
    rcases PathFacts.holds_insertContinued.1 hfact with rfl | hfact
    · rintro _ ⟨⟩
      exact hasLoop_of_innermostLoop? loop
    · exact hf fact hfact
  | returnValue flow =>
    rcases PathFacts.holds_setFlag_returned.1 hfact with rfl | hfact
    · rintro _ ⟨⟩
    · exact hf fact hfact
  | raise flow =>
    rcases PathFacts.holds_setFlag_raised.1 hfact with rfl | hfact
    · rintro _ ⟨⟩
    · exact hf fact hfact
  | endFinally flow => exact hf fact (holds_of_holds_resumeDeferred hfact)
  | sequential | jump | branch | continueOut | setup | popBlock | popExcept => exact hf fact hfact

/-- A `SETUP_*` instruction opens the scope that the arena gets next. -/
theorem Outcome.opened (h : i.Outcome a next s f r) (hs : s.Within a)
    (hsetup : i.isSetup = true) : (nodeOf i s f r).Opened r.arena a.size := by
  cases h with
  | @setup kind following exit flow fall jump =>
    exact ⟨i, kind, exit, rfl, rfl, flow, jump, Arena.get?_add_self a kind exit i.offset hs, rfl⟩
  | sequential flow | jump flow | branch flow | breakThrough flow | breakOut flow
  | continueThrough flow | continueOut flow | popBlock flow | popExcept flow | returnValue flow
  | raise flow | endFinally flow => simp [isSetup, flow] at hsetup

end Instruction

/-! ## All code units -/

namespace Construction

variable {c c' : Construction} {i : Instruction} {next : Option Int} {e : Option BuildError}

/-- The nodes that open a scope, in order of construction. -/
def setups (c : Construction) : List Node := c.nodes.toList.filter (·.isSetup)

/-- The scopes of the arena are those that the nodes opened, in order, and what is pending names
loops among them. -/
structure Logged (c : Construction) : Prop where
  opened (k : Nat) (n : Node) : c.setups[k]? = some n → n.Opened c.arena k
  loops (n : Node) : n ∈ c.nodes → n.facts.NamesLoops c.arena ∧ n.outFacts.NamesLoops c.arena

theorem logged_start : start.Logged where
  opened k n h := by simp [setups, start] at h
  loops n hn := by simp [start] at hn

theorem Coherent.size_eq_length_setups (h : c.Coherent) : c.arena.size = c.setups.length := by
  rw [h.size, List.countP_eq_length_filter, setups]

/-- What is pending when an instruction is visited names loops. -/
theorem Logged.namesLoops_joinFacts (h : c.Logged) (hc : c.Coherent) (offset : Int) :
    (c.joinFacts offset).NamesLoops c.arena := by
  intro fact hfact
  obtain ⟨n, hn, hout⟩ := hc.exists_node_of_holds_joinFacts hfact
  exact (h.loops n hn).2 fact hout

/-- A new node that opens a scope is the last of those that do. -/
theorem getElem?_setups_push {n m : Node} {k : Nat} (hnodes : c'.nodes = c.nodes.push n)
    (hget : c'.setups[k]? = some m) :
    c.setups[k]? = some m ∨ k = c.setups.length ∧ m = n ∧ n.isSetup = true := by
  cases hsetup : n.isSetup with
  | false =>
    have hsame : c'.setups = c.setups := by simp [setups, hnodes, hsetup]
    exact .inl (hsame ▸ hget)
  | true =>
    have hmore : c'.setups = c.setups ++ [n] := by simp [setups, hnodes, hsetup]
    rw [hmore, List.getElem?_append] at hget
    split at hget
    · exact .inl hget
    · rename_i hk
      rw [List.getElem?_singleton, Option.ite_none_right_eq_some] at hget
      obtain ⟨hlast, hm⟩ := hget
      exact .inr ⟨by omega, (Option.some.inj hm).symm, rfl⟩

theorem Logged.visit (h : c.Logged) (hc : c.Coherent) {s : BlockStack} {r : Resolution}
    (hs : s.Within c.arena) (hr : i.Outcome c.arena next s (c.joinFacts i.offset) r) :
    ((c.declareHandler i s).record i s (c.joinFacts i.offset) r).Logged where
  opened k n hget := by
    rw [arena_record]
    rcases getElem?_setups_push (nodes_visited c i s _ r) hget with hbefore | ⟨hk, hn, hsetup⟩
    · exact (h.opened k n hbefore).mono hr.growsTo
    · rw [hk, ← hc.size_eq_length_setups, hn]
      exact hr.opened hs hsetup
  loops n hn := by
    rw [arena_record]
    rw [nodes_visited, Array.mem_push] at hn
    rcases hn with hn | rfl
    · obtain ⟨hin, hout⟩ := h.loops n hn
      exact ⟨hin.mono hr.growsTo, hout.mono hr.growsTo⟩
    · have hin := h.namesLoops_joinFacts hc i.offset
      exact ⟨hin.mono hr.growsTo, (hr.namesLoops hin).mono hr.growsTo⟩

/-- Every step keeps the log, also one that fails. -/
theorem Logged.step (h : c.Logged) (hc : c.Coherent) (hstep : Step c i next (c', e)) :
    c'.Logged := by
  cases hstep with
  | skipped dead => exact ⟨by simpa [setups] using h.opened, by simpa using h.loops⟩
  | disagreed live joined => exact h
  | unresolved live joined resolved =>
    exact ⟨by simpa [setups] using h.opened, by simpa using h.loops⟩
  | visited live joined resolved =>
    exact h.visit hc (hc.within_joinStacks joined) (Instruction.outcome_of_resolve resolved)

theorem coherent_and_logged_step (c : Construction) (i : Instruction) (next : Option Int)
    (c' : Construction) (e : Option BuildError) (h : c.Coherent ∧ c.Logged)
    (hstep : Step c i next (c', e)) : c'.Coherent ∧ c'.Logged :=
  ⟨h.1.step hstep, h.2.step h.1 hstep⟩

/-- A run keeps the log up to where it ends or fails. -/
theorem logged_run (steps : List (Instruction × Option Int)) : (start.run steps).1.Logged :=
  (run_keeps coherent_and_logged_step ⟨coherent_start, logged_start⟩ steps).2

theorem logged_processAll (batches : List (List Instruction)) :
    (start.processAll batches).1.Logged :=
  (processAll_keeps coherent_and_logged_step ⟨coherent_start, logged_start⟩ batches).2

/-- After any number of code units, in any order and whether or not they fail, the arena has one
scope for each node with a `SETUP_*` instruction, in the order of the nodes, and no other. So what
is around a scope was opened before it, every id on a block stack is one of the arena, and breaks
and continues are pending for loops. -/
theorem arena_logs_setups (batches : List (List Instruction)) :
    let c := (start.processAll batches).1
    c.arena.size = c.setups.length ∧
    (∀ k (n : Node), c.setups[k]? = some n → n.Opened c.arena k) ∧
    (∀ id scope parent, c.arena.get? id = some scope → scope.parent = some parent →
      parent < id) ∧
    ∀ n ∈ c.nodes,
      (∀ id, n.stack.Mentions c.arena id ∨ n.outStack.Mentions c.arena id → id < c.arena.size) ∧
      n.facts.NamesLoops c.arena ∧ n.outFacts.NamesLoops c.arena := by
  intro c
  have hc : c.Coherent := coherent_processAll batches
  have hlogged : c.Logged := logged_processAll batches
  refine ⟨hc.size_eq_length_setups, hlogged.opened, fun _ _ _ => c.arena.parent_lt, ?_⟩
  intro n hn
  obtain ⟨hstack, hout⟩ := hc.within n hn
  refine ⟨?_, hlogged.loops n hn⟩
  rintro id (hid | hid)
  · exact hid.lt_size hstack
  · exact hid.lt_size hout

/-- A code unit that ends with its `SETUP_LOOP` opens nothing. The whole one opens two scopes, and
given again it opens another loop before it fails. -/
theorem arena_logs_setups_continueInFinally :
    ∃ c n, (start.processAll [Instruction.continueInFinally.take 1, Instruction.continueInFinally,
        Instruction.continueInFinally]).1 = c ∧
      c.arena.size = 3 ∧ c.setups[2]? = some n ∧ n.offset = 0 ∧ n.Opened c.arena 2 := by
  have hlog := arena_logs_setups [Instruction.continueInFinally.take 1,
    Instruction.continueInFinally, Instruction.continueInFinally]
  have hsetups : (start.processAll [Instruction.continueInFinally.take 1,
      Instruction.continueInFinally, Instruction.continueInFinally]).1.setups.map (·.offset) =
        [0, 2, 0] := by decide +kernel
  generalize (start.processAll [Instruction.continueInFinally.take 1,
    Instruction.continueInFinally, Instruction.continueInFinally]).1 = c at hlog hsetups
  obtain ⟨hsize, hopened, _⟩ := hlog
  have hlast : (c.setups[2]?).map (·.offset) = some 0 := by rw [← List.getElem?_map, hsetups]; rfl
  obtain ⟨n, hn, ho⟩ := Option.map_eq_some_iff.1 hlast
  refine ⟨c, n, rfl, ?_, hn, ho, hopened 2 n hn⟩
  rw [hsize, ← List.length_map (·.offset), hsetups]
  rfl

end Construction

end BytecodeFlow
