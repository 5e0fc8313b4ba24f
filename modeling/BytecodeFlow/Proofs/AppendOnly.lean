import BytecodeFlow.Proofs.FirstFailure

/-!
# Constructions only grow

Whatever a construction is given, it keeps what it has (`Construction.GrowsTo`): nodes and scopes
stay at their positions, so that a stack is shown as before. A call that fails stops at one
instruction and has what the instructions before that leave. The instruction itself leaves at most
a handler entry (`Construction.Remnant`), since the entry is made before the instruction is
resolved.
-/

namespace BytecodeFlow

open BlockStack

/-- An instruction of a code unit, with the offset of the one after it. -/
theorem Instruction.getElem?_withNext (code : List Instruction) (k : Nat) :
    (withNext code)[k]? = code[k]?.map fun i => (i, code[k + 1]?.map offset) := by
  induction code generalizing k with
  | nil => rfl
  | cons i rest ih =>
    cases k with
    | zero => simp [withNext, List.head?_eq_getElem?]
    | succ k => simpa [withNext] using ih k

/-- A stack from before an arena has grown is shown as before. -/
theorem BlockStack.render_of_growsTo {s : BlockStack} {a b : Arena} (hs : s.Within a)
    (h : a.GrowsTo b) : s.render b = s.render a := by
  rw [render, render, scopes, scopes, toList_of_growsTo hs h]

namespace Construction

/-- All that a construction has is in a later one, at its old place. -/
structure GrowsTo (c d : Construction) : Prop where
  nodes : c.nodes.toList <+: d.nodes.toList
  arena : c.arena.GrowsTo d.arena
  predecessors (offset : Int) : c.predecessors offset <+: d.predecessors offset
  reachable (offset : Int) : offset ∈ c.reachable → offset ∈ d.reachable
  unreachable (offset : Int) : offset ∈ c.unreachable → offset ∈ d.unreachable
  handlers (offset : Int) (s : BlockStack) :
    c.handlerEntries[offset]? = some s → d.handlerEntries[offset]? = some s

/-- A stack that a construction holds, at a node or for a handler. -/
def Knows (c : Construction) (s : BlockStack) : Prop :=
  (∃ n ∈ c.nodes, s = n.stack ∨ s = n.outStack) ∨ ∃ offset : Int, c.handlerEntries[offset]? = some s

/-- The trace of a failed instruction: a `SETUP_*` instruction that falls off the end of the code
unit leaves the stack before it at its handler, if that had none. -/
structure Remnant (c : Construction) (i : Instruction) (e : BuildError) (c' : Construction)
    (handler : Int) (s : BlockStack) : Prop where
  setup : i.isSetup = true
  target : i.jumpTarget = some handler
  fellOff : e = .fallsOffEnd i.offset i.opcode
  joined : c.joinStacks i = .ok s
  fresh : c.handlerEntries[handler]? = none
  entries (offset : Int) :
    c'.handlerEntries[offset]? = if offset = handler then some s else c.handlerEntries[offset]?

variable {c c' d : Construction} {i : Instruction} {next : Option Int} {s : BlockStack}

/-! ## Growth -/

theorem GrowsTo.refl (c : Construction) : c.GrowsTo c where
  nodes := List.prefix_refl _
  arena := .refl _
  predecessors _ := List.prefix_refl _
  reachable _ h := h
  unreachable _ h := h
  handlers _ _ h := h

theorem GrowsTo.trans {b : Construction} (hbc : b.GrowsTo c) (hcd : c.GrowsTo d) :
    b.GrowsTo d where
  nodes := hbc.nodes.trans hcd.nodes
  arena := hbc.arena.trans hcd.arena
  predecessors offset := (hbc.predecessors offset).trans (hcd.predecessors offset)
  reachable offset h := hcd.reachable offset (hbc.reachable offset h)
  unreachable offset h := hcd.unreachable offset (hbc.unreachable offset h)
  handlers offset s h := hcd.handlers offset s (hbc.handlers offset s h)

theorem growsTo_skip (c : Construction) (i : Instruction) : c.GrowsTo (c.skip i) where
  nodes := by simp
  arena := by rw [arena_skip]; exact .refl _
  predecessors offset := by simp
  reachable offset h := by rw [skip_eq]; exact h
  unreachable offset h := mem_unreachable_skip.2 (.inr h)
  handlers offset s h := by rwa [handlerEntries_skip]

/-- A handler that has a stack keeps it. -/
theorem growsTo_declareHandler (c : Construction) (i : Instruction) (s : BlockStack) :
    c.GrowsTo (c.declareHandler i s) where
  nodes := by simp
  arena := by rw [arena_declareHandler]; exact .refl _
  predecessors offset := by simp
  reachable offset h := by rw [declareHandler_eq]; exact h
  unreachable offset h := by rw [declareHandler_eq]; exact h
  handlers offset t h := by rw [handlerEntries_declareHandler, h]; rfl

theorem growsTo_visited {f : PathFacts} {r : Resolution} (hr : c.arena.GrowsTo r.arena) :
    c.GrowsTo ((c.declareHandler i s).record i s f r) where
  nodes := by rw [nodes_visited, Array.toList_push]; exact List.prefix_append _ _
  arena := hr
  predecessors offset := by
    rw [predecessors_record, predecessors_declareHandler]
    exact List.prefix_append _ _
  reachable offset h := mem_reachable_visited.2 (.inr h)
  unreachable offset h := by rwa [unreachable_visited]
  handlers offset t h := by
    rw [handlerEntries_record]
    exact (growsTo_declareHandler c i s).handlers offset t h

/-- No step takes anything away, also not one that fails. -/
theorem Step.growsTo {e : Option BuildError} (h : Step c i next (c', e)) : c.GrowsTo c' := by
  cases h with
  | skipped dead => exact growsTo_skip c i
  | disagreed live joined => exact .refl c
  | unresolved live joined resolved => exact growsTo_declareHandler c i _
  | visited live joined resolved =>
    exact growsTo_visited (Instruction.outcome_of_resolve resolved).growsTo

theorem growsTo_process (c : Construction) (code : List Instruction) :
    c.GrowsTo (c.process code).1 := by
  refine process_keeps ?_ (.refl c) code
  intro d i next d' e hd hstep
  exact hd.trans hstep.growsTo

theorem Coherent.within_of_knows (h : c.Coherent) (hs : c.Knows s) : s.Within c.arena := by
  rcases hs with ⟨n, hn, rfl | rfl⟩ | ⟨offset, hs⟩
  · exact (h.within n hn).1
  · exact (h.within n hn).2
  · exact h.handlers offset s hs

/-! ## Failures -/

/-- A `SETUP_*` instruction with a target needs only an instruction after it. -/
theorem fellOff_of_setup {a : Arena} {f : PathFacts} {e : BuildError} {handler : Int}
    (hsetup : i.isSetup = true) (htarget : i.jumpTarget = some handler)
    (h : i.resolve a next s f = .error e) :
    next = none ∧ e = .fallsOffEnd i.offset i.opcode := by
  cases Instruction.resolve_eq_error_iff.1 h with
  | next runsOff => exact ⟨runsOff.2, rfl⟩
  | jumpTarget goesOn lacksTarget =>
    rw [lacksTarget.2] at htarget
    cases htarget
  | loop goesOn hasTarget lacksLoop =>
    rcases lacksLoop.1 with hflow | hflow
    · simp [Instruction.isSetup, hflow] at hsetup
    · simp [Instruction.isSetup, hflow] at hsetup

/-- Declaring a handler gives it an entry, if it has none, and changes no other. -/
theorem handlerEntries_declareHandler_cases (c : Construction) (i : Instruction) (s : BlockStack) :
    (∀ offset : Int,
      (c.declareHandler i s).handlerEntries[offset]? = c.handlerEntries[offset]?) ∨
    ∃ handler, i.isSetup = true ∧ i.jumpTarget = some handler ∧ c.handlerEntries[handler]? = none ∧
      ∀ offset : Int, (c.declareHandler i s).handlerEntries[offset]? =
        if offset = handler then some s else c.handlerEntries[offset]? := by
  simp only [handlerEntries_declareHandler, Instruction.declares, Bool.and_eq_true, beq_iff_eq]
  by_cases hdeclares : ∃ handler, (i.isSetup = true ∧ i.jumpTarget = some handler) ∧
      c.handlerEntries[handler]? = none
  · obtain ⟨handler, ⟨hsetup, htarget⟩, hfresh⟩ := hdeclares
    refine .inr ⟨handler, hsetup, htarget, hfresh, ?_⟩
    intro offset
    by_cases ho : offset = handler
    · simp [ho, hfresh, hsetup, htarget]
    · simp [ho, htarget, Ne.symm ho]
  · left
    intro offset
    cases hold : c.handlerEntries[offset]? with
    | some t => rfl
    | none => rw [Option.none_or, if_neg fun hyes => hdeclares ⟨offset, hyes, hold⟩]

/-- A failed step changes nothing but the handler entries, and these only by its remnant. -/
theorem Step.undone {e : BuildError} (h : Step c i next (c', some e)) :
    c' = { c with handlerEntries := c'.handlerEntries } ∧
      ((∀ offset : Int, c'.handlerEntries[offset]? = c.handlerEntries[offset]?) ∨
        next = none ∧ ∃ handler s, c.Remnant i e c' handler s) := by
  cases h with
  | disagreed live joined => exact ⟨rfl, .inl fun _ => rfl⟩
  | @unresolved s e live joined resolved =>
    refine ⟨declareHandler_eq c i s, ?_⟩
    rcases handlerEntries_declareHandler_cases c i s with
      hsame | ⟨handler, hsetup, htarget, hfresh, hentries⟩
    · exact .inl hsame
    · obtain ⟨hlast, hfellOff⟩ := fellOff_of_setup hsetup htarget resolved
      exact .inr ⟨hlast, handler, s, hsetup, htarget, hfellOff, joined, hfresh, hentries⟩

/-- A run that fails does so at one step, after the run of those before it. -/
theorem exists_of_run_eq_some {steps : List (Instruction × Option Int)} {e : BuildError}
    (h : (c.run steps).2 = some e) :
    ∃ k i next d, steps[k]? = some (i, next) ∧ c.run (steps.take k) = (d, none) ∧
      d.advance i next = c.run steps := by
  obtain ⟨k, hk, hbefore⟩ := run_eq_some_iff.1 h
  obtain ⟨⟨i, next⟩, hget, hfails⟩ := Option.bind_eq_some_iff.1 hk
  have htake : c.run (steps.take k) = ((c.run (steps.take k)).1, none) :=
    Prod.ext rfl (run_take_eq_none hbefore)
  refine ⟨k, i, next, (c.run (steps.take k)).1, hget, htake, ?_⟩
  conv => rhs; rw [eq_take_append_of_getElem? hget, run_append, htake]
  simp only [run]
  split
  · rename_i d' hadv
    simp [hadv] at hfails
  · rename_i d' e' hadv
    rw [hadv]

/-- A call that fails does so before its first instruction or in its run. -/
theorem process_eq_some_cases {code : List Instruction} {e : BuildError}
    (h : (c.process code).2 = some e) :
    (c.process code).1 = c ∧ (code = [] ∧ e = .emptyCode ∨
      ∃ first rest, code = first :: rest ∧ first.offset ≠ Offset.entry ∧
        e = .missingEntry first.offset) ∨
    c.process code = c.run (Instruction.withNext code) := by
  cases code with
  | nil =>
    cases h
    exact .inl ⟨rfl, .inl ⟨rfl, rfl⟩⟩
  | cons first rest =>
    by_cases hentry : first.offset = Offset.entry
    · exact .inr (if_pos hentry)
    · have hprocess : c.process (first :: rest) = (c, some (.missingEntry first.offset)) :=
        if_neg hentry
      rw [hprocess] at h ⊢
      cases h
      exact .inl ⟨rfl, .inr ⟨first, rest, rfl, hentry, rfl⟩⟩

/-- A code unit that fails in its run does so at one instruction, which leaves what those before it
left, but for its remnant. -/
theorem run_undone {code : List Instruction} {e : BuildError}
    (h : (c.run (Instruction.withNext code)).2 = some e) :
    ∃ k i d, code[k]? = some i ∧ c.run ((Instruction.withNext code).take k) = (d, none) ∧
      d.advance i (code[k + 1]?.map (·.offset)) = c.run (Instruction.withNext code) ∧
      let after := (c.run (Instruction.withNext code)).1
      after = { d with handlerEntries := after.handlerEntries } ∧
      ((∀ offset : Int, after.handlerEntries[offset]? = d.handlerEntries[offset]?) ∨
        k + 1 = code.length ∧ ∃ handler s, d.Remnant i e after handler s) := by
  obtain ⟨k, i, next, d, hk, hbefore, hfails⟩ := exists_of_run_eq_some h
  rw [Instruction.getElem?_withNext, Option.map_eq_some_iff] at hk
  obtain ⟨_, hi, hpair⟩ := hk
  cases hpair
  have hstep : Step d i (code[k + 1]?.map (·.offset))
      ((c.run (Instruction.withNext code)).1, some e) := by
    rw [← h, ← hfails]
    exact step_advance d i _
  obtain ⟨hsame, hhandlers⟩ := hstep.undone
  refine ⟨k, i, d, hi, hbefore, hfails, hsame, hhandlers.imp_right ?_⟩
  intro hlast
  obtain ⟨hlast, hremnant⟩ := hlast
  refine ⟨?_, hremnant⟩
  rw [Option.map_eq_none_iff, List.getElem?_eq_none_iff] at hlast
  have hlt := (List.getElem?_eq_some_iff.1 hi).1
  omega

/-- Whatever code units came before, one more leaves all nodes, scopes, predecessors, offsets and
handlers that are there as they are, so that every older stack is shown the same. If it fails
before its first instruction, nothing changes. If it fails at an instruction, that leaves what the
instructions before it left, but for its remnant. -/
theorem process_only_adds (batches : List (List Instruction)) (code : List Instruction) :
    let c := (start.processAll batches).1
    let after := c.process code
    c.GrowsTo after.1 ∧
    (∀ s, c.Knows s → s.Within c.arena) ∧
    (∀ s : BlockStack, s.Within c.arena → s.toList after.1.arena = s.toList c.arena ∧
      s.render after.1.arena = s.render c.arena) ∧
    ∀ e, after.2 = some e →
      after.1 = c ∧ (code = [] ∧ e = .emptyCode ∨
        ∃ first rest, code = first :: rest ∧ first.offset ≠ Offset.entry ∧
          e = .missingEntry first.offset) ∨
      ∃ k i d, code[k]? = some i ∧ c.run ((Instruction.withNext code).take k) = (d, none) ∧
        d.advance i (code[k + 1]?.map (·.offset)) = after ∧
        after.1 = { d with handlerEntries := after.1.handlerEntries } ∧
        ((∀ offset : Int, after.1.handlerEntries[offset]? = d.handlerEntries[offset]?) ∨
          k + 1 = code.length ∧ ∃ handler s, d.Remnant i e after.1 handler s) := by
  intro c after
  have hc : c.Coherent := coherent_processAll batches
  have hgrows : c.GrowsTo after.1 := growsTo_process c code
  refine ⟨hgrows, fun _ => hc.within_of_knows, ?_, ?_⟩
  · intro s hs
    exact ⟨toList_of_growsTo hs hgrows.arena, render_of_growsTo hs hgrows.arena⟩
  · intro e he
    rcases process_eq_some_cases he with hbefore | hrun
    · exact .inl hbefore
    · right
      have hafter : after = c.run (Instruction.withNext code) := hrun
      rw [hafter] at he ⊢
      exact run_undone he

end Construction

/-- A code unit that ends with the `SETUP_FINALLY` of a handler at 40. -/
def Instruction.setupAtEnd : List Instruction :=
  [⟨.loadConst, 0, some 0, none, false⟩, ⟨.setupFinally, 30, some 8, some 40, false⟩]

/-- It fails at 30. The node of 0 stays, as the last of eight, and the handler at 40 has an entry. -/
theorem Construction.process_only_adds_setupAtEnd :
    let c := (start.processAll [Instruction.continueInFinally]).1
    let after := c.process Instruction.setupAtEnd
    after.2 = some (.fallsOffEnd 30 .setupFinally) ∧ c.GrowsTo after.1 ∧
      ∃ k d, c.run ((Instruction.withNext Instruction.setupAtEnd).take k) = (d, none) ∧
        d.nodes.size = 8 ∧ after.1 = { d with handlerEntries := after.1.handlerEntries } ∧
        after.1.handlerEntries[(40 : Int)]? = some .empty := by
  intro c after
  have hfails : after.2 = some (.fallsOffEnd 30 .setupFinally) := by decide +kernel
  have hsize : after.1.nodes.size = 8 ∧ c.nodes.size = 7 := by decide +kernel
  obtain ⟨hgrows, _, _, hundone⟩ :=
    process_only_adds [Instruction.continueInFinally] Instruction.setupAtEnd
  refine ⟨hfails, hgrows, ?_⟩
  rcases hundone _ hfails with ⟨hsame, _⟩ | ⟨k, i, d, _, hbefore, _, hsame, _⟩
  · have hnodes : after.1.nodes.size = c.nodes.size := by rw [hsame]
    omega
  · have hnodes : after.1.nodes = d.nodes := congrArg (·.nodes) hsame
    exact ⟨k, d, hbefore, hnodes ▸ hsize.1, hsame, by decide +kernel⟩

end BytecodeFlow
