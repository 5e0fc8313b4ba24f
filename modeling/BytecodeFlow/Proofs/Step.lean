import BytecodeFlow.Graph.Construction
import BytecodeFlow.Proofs.Successors

/-!
# The steps of a construction

`Construction.Step` lists what one instruction can do to a graph in the making: it is dead and
passed, its predecessors disagree, it cannot be resolved, or it gets a node. Each field of the
state after a step follows from the list, and what every successful step keeps holds after a
successful run (`run_induction`). What failing steps keep too holds after any number of code
units, whether or not they fail (`processAll_keeps`).
-/

namespace BytecodeFlow

namespace Construction

/-! ## The fields that a part of a step leaves alone -/

section Frames

variable (c : Construction) (i : Instruction) (s : BlockStack) (f : PathFacts) (r : Resolution)

theorem skip_eq : c.skip i = { c with unreachable := (c.skip i).unreachable } := by
  unfold skip
  split <;> rfl

theorem declareHandler_eq :
    c.declareHandler i s = { c with handlerEntries := (c.declareHandler i s).handlerEntries } := by
  unfold declareHandler
  split <;> rfl

@[simp] theorem index_skip : (c.skip i).index = c.index := by rw [skip_eq]

@[simp] theorem arena_skip : (c.skip i).arena = c.arena := by rw [skip_eq]

@[simp] theorem handlerEntries_skip : (c.skip i).handlerEntries = c.handlerEntries := by
  rw [skip_eq]

@[simp] theorem predecessors_skip (offset : Int) :
    (c.skip i).predecessors offset = c.predecessors offset := by
  rw [skip_eq, predecessors, predecessors]

@[simp] theorem index_declareHandler : (c.declareHandler i s).index = c.index := by
  rw [declareHandler_eq]

@[simp] theorem arena_declareHandler : (c.declareHandler i s).arena = c.arena := by
  rw [declareHandler_eq]

@[simp] theorem predecessors_declareHandler (offset : Int) :
    (c.declareHandler i s).predecessors offset = c.predecessors offset := by
  rw [declareHandler_eq, predecessors, predecessors]

@[simp] theorem arena_record : (c.record i s f r).arena = r.arena := rfl

@[simp] theorem index_record :
    (c.record i s f r).index = c.index.insert i.offset c.nodes.size := by
  simp [record, addNode]

@[simp] theorem handlerEntries_record :
    (c.record i s f r).handlerEntries = c.handlerEntries := by
  simp only [record, addNode]
  rw [addEdges_eq]

theorem predecessors_record (offset : Int) :
    (c.record i s f r).predecessors offset =
      c.predecessors offset ++ List.replicate (r.successors.count offset) i.offset :=
  predecessors_addEdges c i.offset r.successors offset

end Frames

/-! ## Steps and runs -/

/-- The node of an instruction with its resolution. -/
def nodeOf (i : Instruction) (s : BlockStack) (f : PathFacts) (r : Resolution) : Node :=
  ⟨i.offset, some i, r.successors, s, f, r.stack, r.facts⟩

/-- A visited instruction is the last node. -/
theorem nodes_visited (c : Construction) (i : Instruction) (s : BlockStack) (f : PathFacts)
    (r : Resolution) :
    ((c.declareHandler i s).record i s f r).nodes = c.nodes.push (nodeOf i s f r) := by
  rw [nodes_record, nodes_declareHandler]
  rfl

/-- The results of one step. Each gives what was found out about the instruction. -/
inductive Step (c : Construction) (i : Instruction) (next : Option Int) :
    Construction × Option BuildError → Prop where
  | skipped (dead : c.isLive i = false) : Step c i next (c.skip i, none)
  | disagreed {e : BuildError} (live : c.isLive i = true) (joined : c.joinStacks i = .error e) :
      Step c i next (c, some e)
  | unresolved {s : BlockStack} {e : BuildError} (live : c.isLive i = true)
      (joined : c.joinStacks i = .ok s)
      (resolved : i.resolve c.arena next s (c.joinFacts i.offset) = .error e) :
      Step c i next (c.declareHandler i s, some e)
  | visited {s : BlockStack} {r : Resolution} (live : c.isLive i = true)
      (joined : c.joinStacks i = .ok s)
      (resolved : i.resolve c.arena next s (c.joinFacts i.offset) = .ok r) :
      Step c i next ((c.declareHandler i s).record i s (c.joinFacts i.offset) r, none)

theorem step_advance (c : Construction) (i : Instruction) (next : Option Int) :
    Step c i next (c.advance i next) := by
  unfold advance
  split
  · rename_i live
    unfold visit
    split
    · rename_i e joined
      exact .disagreed live joined
    · rename_i s joined
      simp only
      split
      · rename_i e resolved
        exact .unresolved live joined resolved
      · rename_i r resolved
        exact .visited live joined resolved
  · rename_i dead
    exact .skipped (Bool.eq_false_iff.2 dead)

/-- A run that went well has what holds at its start and is kept by every step that goes well.
The property can speak of the instructions that are done. -/
theorem run_induction {P : List (Instruction × Option Int) → Construction → Prop}
    {steps : List (Instruction × Option Int)} {c c' : Construction} (start : P [] c)
    (step : ∀ done i next rest d d', steps = done ++ (i, next) :: rest → P done d →
      Step d i next (d', none) → P (done ++ [(i, next)]) d')
    (h : c.run steps = (c', none)) : P steps c' := by
  -- what is done grows at its end while the run takes instructions from the front
  have hgen : ∀ todo done d, steps = done ++ todo → P done d → d.run todo = (c', none) →
      P steps c' := by
    intro todo
    induction todo with
    | nil =>
      intro done d hsteps hd hrun
      cases hrun
      rwa [hsteps, List.append_nil]
    | cons x rest ih =>
      intro done d hsteps hd hrun
      obtain ⟨i, next⟩ := x
      have hstep := step_advance d i next
      rw [run] at hrun
      split at hrun
      · rename_i d' hadv
        rw [hadv] at hstep
        exact ih (done ++ [(i, next)]) d' (by simp [hsteps])
          (step done i next rest d d' hsteps hd hstep) hrun
      · cases hrun
  exact hgen steps [] c rfl start h

section Keeps

variable {P : Construction → Prop} {c : Construction}
  (step : ∀ c i next c' e, P c → Step c i next (c', e) → P c') (h : P c)
include step h

/-- A run has what holds at its start and is kept by every step, also by one that fails. -/
theorem run_keeps (steps : List (Instruction × Option Int)) : P (c.run steps).1 := by
  induction steps generalizing c with
  | nil => exact h
  | cons x rest ih =>
    obtain ⟨i, next⟩ := x
    have hstep := step_advance c i next
    rw [run]
    split
    · rename_i c' hadv
      rw [hadv] at hstep
      exact ih (step c i next c' none h hstep)
    · rename_i c' e hadv
      rw [hadv] at hstep
      exact step c i next c' (some e) h hstep

theorem process_keeps (code : List Instruction) : P (c.process code).1 := by
  unfold process
  split
  · exact h
  · split
    · exact run_keeps step h _
    · exact h

theorem processAll_keeps (batches : List (List Instruction)) : P (c.processAll batches).1 := by
  induction batches generalizing c with
  | nil => exact h
  | cons code rest ih => exact ih (process_keeps step h code)

end Keeps

end Construction

end BytecodeFlow
