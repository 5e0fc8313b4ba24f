import BytecodeFlow.Proofs.Pruning
import Mathlib.Data.List.Sort

/-!
# Dead code has no influence

A dead instruction adds nothing to the state of a pass but its jump target, which is then known to
be unreachable. Without the dead instructions another instruction may come next after a live one,
but only where control does not go on to the next one (`Instruction.Outcome.next_cases`). So a
pass over the live instructions alone does the same to the rest of the state
(`Construction.exists_run_forgetDead`), and the live instructions of a code unit have its graph
(`Graph.build_live`).
-/

namespace BytecodeFlow

open Construction

/-- An instruction that does not go on to the next one has the same outcome whatever comes
next. -/
theorem Instruction.Outcome.next_cases {i : Instruction} {a : Arena} {next : Option Int}
    {s : BlockStack} {f : PathFacts} {r : Resolution} (h : i.Outcome a next s f r) :
    (∀ next', i.Outcome a next' s f r) ∨ ∀ following ∈ next, following ∈ r.successors := by
  cases h with
  | jump flow jump => exact .inl fun _ => .jump flow jump
  | breakThrough flow loop detour => exact .inl fun _ => .breakThrough flow loop detour
  | breakOut flow loop direct => exact .inl fun _ => .breakOut flow loop direct
  | continueThrough flow jump loop detour =>
    exact .inl fun _ => .continueThrough flow jump loop detour
  | continueOut flow jump loop direct => exact .inl fun _ => .continueOut flow jump loop direct
  | returnValue flow => exact .inl fun _ => .returnValue flow
  | sequential flow fall | branch flow fall | setup flow fall | popBlock flow fall
  | popExcept flow fall =>
    right
    intro following hnext
    cases hnext.symm.trans fall
    simp
  | raise flow | endFinally flow =>
    right
    intro following hnext
    cases hnext
    simp

/-- Two lists of instructions in ascending order are the same if they have the same members. -/
theorem Instruction.Ascending.eq_of_mem_iff {xs ys : List Instruction} (hxs : Ascending xs)
    (hys : Ascending ys) (h : ∀ i, i ∈ xs ↔ i ∈ ys) : xs = ys := by
  have : Std.Irrefl fun i j : Instruction => i.offset < j.offset := ⟨fun i => Int.lt_irrefl _⟩
  have : Std.Antisymm fun i j : Instruction => i.offset < j.offset :=
    ⟨fun i j hij hji => (Int.lt_irrefl _ (Int.lt_trans hij hji)).elim⟩
  exact List.Pairwise.eq_of_mem_iff hxs hys h

namespace Construction

variable {c c' : Construction} {i : Instruction} {next : Option Int}

/-! ## What is known of dead code -/

/-- The state without what is known of dead code. -/
def forgetDead (c : Construction) : Construction := { c with unreachable := ∅ }

@[simp] theorem forgetDead_skip (c : Construction) (i : Instruction) :
    (c.skip i).forgetDead = c.forgetDead := by
  rw [skip_eq]
  rfl

theorem declareHandler_forgetDead (c : Construction) (i : Instruction) (s : BlockStack) :
    c.forgetDead.declareHandler i s = (c.declareHandler i s).forgetDead := by
  unfold declareHandler
  split <;> rfl

theorem addEdges_forgetDead (c : Construction) (source : Int) (targets : List Int) :
    c.forgetDead.addEdges source targets = (c.addEdges source targets).forgetDead := by
  induction targets generalizing c with
  | nil => rfl
  | cons target rest ih => exact ih (c.addEdge source target)

theorem record_forgetDead (c : Construction) (i : Instruction) (s : BlockStack) (f : PathFacts)
    (r : Resolution) : c.forgetDead.record i s f r = (c.record i s f r).forgetDead := by
  rw [record, addEdges_forgetDead]
  rfl

theorem isLive_forgetDead (h : c.isLive i = true) : c.forgetDead.isLive i = true := by
  simp only [isLive, Bool.or_eq_true, Bool.and_eq_true] at h
  rcases h with hreachable | ⟨hflag, _⟩
  · simp [isLive, forgetDead, hreachable]
  · simp [isLive, forgetDead, hflag]

/-- A visited instruction can be visited without what is known of dead code, before any
instruction that it has the same outcome before. -/
theorem run_forgetDead_cons {s : BlockStack} {r : Resolution} {next' : Option Int}
    {steps : List (Instruction × Option Int)} (live : c.isLive i = true)
    (joined : c.joinStacks i = .ok s)
    (outcome : i.Outcome c.arena next' s (c.joinFacts i.offset) r) :
    c.forgetDead.run ((i, next') :: steps) =
      ((c.declareHandler i s).record i s (c.joinFacts i.offset) r).forgetDead.run steps := by
  -- neither what is joined nor the outcome looks at dead code
  have hjoined : c.forgetDead.joinStacks i = .ok s := joined
  have hresolved : i.resolve c.forgetDead.arena next' s (c.forgetDead.joinFacts i.offset) = .ok r :=
    Instruction.resolve_of_outcome outcome
  have hadvance : c.forgetDead.advance i next' =
      (((c.declareHandler i s).record i s (c.joinFacts i.offset) r).forgetDead, none) := by
    rw [advance, if_pos (isLive_forgetDead live), visit, hjoined]
    simp only [hresolved]
    rw [declareHandler_forgetDead, record_forgetDead]
    rfl
  rw [run, hadvance]

/-! ## The run over the live instructions -/

/-- A run that went well can be made on the instructions that get a node alone, if what is known
of dead code is forgotten. An instruction that is reachable at the start is one of them. -/
theorem exists_run_forgetDead {code : List Instruction}
    (h : c.run (Instruction.withNext code) = (c', none)) :
    ∃ visited : List Instruction, visited.Sublist code ∧
      (∀ i ∈ code.head?, i.offset ∈ c.reachable → visited.head? = some i) ∧
      c'.nodes.toList.map (·.instruction) = c.nodes.toList.map (·.instruction) ++ visited.map some ∧
      c.forgetDead.run (Instruction.withNext visited) = (c'.forgetDead, none) := by
  induction code generalizing c with
  | nil =>
    cases h
    exact ⟨[], List.Sublist.refl _, by simp, by simp, rfl⟩
  | cons i rest ih =>
    have hstep := step_advance c i (rest.head?.map Instruction.offset)
    rw [Instruction.withNext, run] at h
    split at h
    · rename_i d hadvance
      rw [hadvance] at hstep
      obtain ⟨visited, hsub, hhead, hnodes, hrun⟩ := ih h
      cases hstep with
      | skipped dead =>
        refine ⟨visited, hsub.cons i, ?_, by simpa using hnodes, by simpa using hrun⟩
        intro j hj hreachable
        cases hj
        -- what is reachable is not dead
        simp [isLive, Std.TreeSet.mem_iff_contains.1 hreachable] at dead
      | @visited s r live joined resolved =>
        have hr := Instruction.outcome_of_resolve resolved
        refine ⟨i :: visited, hsub.cons_cons i, ?_, ?_, ?_⟩
        · intro j hj _
          simpa using hj
        · rw [hnodes, nodes_visited]
          simp [nodeOf]
        · rw [Instruction.withNext, run_forgetDead_cons live joined]
          · exact hrun
          rcases hr.next_cases with hany | hnext
          · exact hany _
          · -- control goes on to the next instruction, so that it is not dead
            have hsame : visited.head? = rest.head? := by
              cases rest with
              | nil =>
                rw [List.sublist_nil.1 hsub]
              | cons j rest =>
                apply hhead j rfl
                exact mem_reachable_visited.2 (.inl (hnext j.offset rfl))
            rwa [hsame]
    · cases h

end Construction

namespace Graph

variable {code : List Instruction} {g : Graph} {i : Instruction}

/-- The instructions of a code unit that have a node. -/
def live (g : Graph) (code : List Instruction) : List Instruction :=
  code.filter fun i => g.nodes.toList.any fun n => n.instruction = some i

theorem mem_live : i ∈ g.live code ↔ i ∈ code ∧ ∃ n ∈ g.nodes, n.instruction = some i := by
  simp only [live, List.mem_filter, List.any_eq_true, Array.mem_toList_iff, decide_eq_true_eq]

/-- The instructions of the nodes are all the live ones. -/
theorem live_eq {visited : List Instruction} (hcode : Instruction.Ascending code)
    (hsub : visited.Sublist code)
    (hnodes : g.nodes.toList.map (·.instruction) = visited.map some ++ [none]) :
    g.live code = visited := by
  apply Instruction.Ascending.eq_of_mem_iff (hcode.filter _) (hcode.sublist hsub)
  intro i
  have hmem : (∃ n ∈ g.nodes, n.instruction = some i) ↔ i ∈ visited := by
    have hsome : some i ∈ g.nodes.toList.map (·.instruction) ↔ i ∈ visited := by simp [hnodes]
    rw [← hsome]
    simp
  rw [← live, mem_live, hmem]
  exact and_iff_right_of_imp fun hi => hsub.subset hi

/-- The live instructions of a code unit, without the dead ones between them, have the graph of
the code unit, and all of them are live in it. -/
theorem build_live (hcode : Instruction.Ascending code) (h : Graph.build code = .ok g) :
    Graph.build (g.live code) = .ok g ∧ g.live (g.live code) = g.live code := by
  obtain ⟨⟨first, rest, hfirst, hentry⟩, c, hrun, hfinish⟩ := run_of_build h
  obtain ⟨hgraph, _⟩ := finish_ok hfinish
  obtain ⟨visited, hsub, hhead, hnodes, hagain⟩ := exists_run_forgetDead hrun
  have hlive : g.live code = visited := by
    apply live_eq hcode hsub
    rw [hgraph, Array.toList_push, List.map_append, hnodes]
    simp [start, Node.exit]
  constructor
  · -- the entry is live
    have hstart : visited.head? = some first := by
      apply hhead first (by simp [hfirst])
      simp [start, hentry]
    obtain ⟨others, hvisited⟩ := List.head?_eq_some_iff.1 hstart
    have hforget : start.forgetDead = start := rfl
    have hprocess : start.process visited = (c.forgetDead, none) := by
      rw [hvisited, process, if_pos hentry, ← hvisited, ← hforget]
      exact hagain
    rw [hlive, build, hprocess]
    exact hfinish
  · simp [live]

end Graph

/-- A jump to 6 over two dead instructions, which both name 10. -/
def Instruction.jumpOverDead : List Instruction :=
  [⟨.jumpAbsolute, 0, some 6, some 6, false⟩, ⟨.jumpAbsolute, 2, some 10, some 10, false⟩,
    ⟨.setupLoop, 4, some 10, some 10, false⟩, ⟨.loadConst, 6, some 0, none, true⟩,
    ⟨.returnValue, 8, none, none, false⟩, ⟨.nop, 10, none, none, true⟩]

/-- The target of the dead instructions is dead too. Without all of them the graph is the same. -/
theorem Graph.build_live_jumpOverDead :
    ∃ g, Graph.build Instruction.jumpOverDead = .ok g ∧
      g.live Instruction.jumpOverDead = [⟨.jumpAbsolute, 0, some 6, some 6, false⟩,
        ⟨.loadConst, 6, some 0, none, true⟩, ⟨.returnValue, 8, none, none, false⟩] ∧
      Graph.build [⟨.jumpAbsolute, 0, some 6, some 6, false⟩,
        ⟨.loadConst, 6, some 0, none, true⟩, ⟨.returnValue, 8, none, none, false⟩] = .ok g := by
  obtain ⟨g, hg, hp⟩ := exists_build Instruction.jumpOverDead
    (fun g => g.live Instruction.jumpOverDead = [⟨.jumpAbsolute, 0, some 6, some 6, false⟩,
        ⟨.loadConst, 6, some 0, none, true⟩, ⟨.returnValue, 8, none, none, false⟩])
    (by decide +kernel)
  have hlive := of_decide_eq_true hp
  have hcode : Instruction.Ascending Instruction.jumpOverDead := by
    unfold Instruction.Ascending
    decide
  have hagain := (build_live hcode hg).1
  rw [hlive] at hagain
  exact ⟨g, hg, hlive, hagain⟩

end BytecodeFlow
