import BytecodeFlow.Proofs.Finished
import BytecodeFlow.Trace.Replay
import Mathlib.Data.List.Chain

/-!
# Replaying accepts the walks

A path is accepted if it is a walk in the graph (`Graph.IsWalk`), and otherwise its first violation
decides the error (`Graph.Violation`). While a path is followed, every offset but the first is known
to have a node, because every edge of a finished graph ends at one.
-/

namespace BytecodeFlow

open Construction

/-- The shown instruction of a node. The exit has none. -/
def Node.text (n : Node) : String := (n.instruction.map Instruction.render).getD ""

/-! ## Nodes and their instructions -/

/-- Every node has an instruction, at its offset. -/
theorem Construction.exists_instruction (batches : List (List Instruction)) :
    ∀ n ∈ (start.processAll batches).1.nodes, ∃ i, n.instruction = some i ∧ i.offset = n.offset := by
  refine processAll_keeps (P := fun c =>
    ∀ n ∈ c.nodes, ∃ i, n.instruction = some i ∧ i.offset = n.offset) ?_ ?_ batches
  · intro c i next c' e h hstep
    cases hstep with
    | skipped dead => rwa [nodes_skip]
    | disagreed live joined => exact h
    | unresolved live joined resolved => rwa [nodes_declareHandler]
    | visited live joined resolved =>
      intro n hn
      rw [nodes_visited, Array.mem_push] at hn
      rcases hn with hn | rfl
      · exact h n hn
      · exact ⟨i, rfl, rfl⟩
  · intro n hn
    simp [start] at hn

namespace Graph

/-- A first offset in the graph, and then edges. -/
structure IsWalk (g : Graph) (path : List Int) : Prop where
  start (first : Int) : path.head? = some first → Visited g.nodes first
  edges : path.IsChain fun a b => b ∈ g.out a

/-- The first place where a path is no walk, and how that is reported. The path up to there is a
walk, and the rest of it may be anything. -/
inductive Violation (g : Graph) : List Int → ReplayError → Prop
  | start {first : Int} {rest : List Int} (absent : ¬ Visited g.nodes first) :
      g.Violation (first :: rest) (.missingNode first)
  | target {walk : List Int} {a b : Int} {rest : List Int} (before : g.IsWalk (walk ++ [a]))
      (noEdge : b ∉ g.out a) (absent : ¬ Visited g.nodes b) :
      g.Violation (walk ++ a :: b :: rest) (.missingNode b)
  | edge {walk : List Int} {a b : Int} {rest : List Int} {n : Node}
      (before : g.IsWalk (walk ++ [a])) (noEdge : b ∉ g.out a) (present : Visited g.nodes b)
      (source : g.get? a = some n) :
      g.Violation (walk ++ a :: b :: rest)
        (.missingEdge a b n.instruction n.successors (n.stack.scopes g.arena))

variable {g : Graph} {a b : Int} {walk path rest : List Int} {e : ReplayError} {n : Node}

theorem isWalk_nil : g.IsWalk [] := ⟨by simp, List.isChain_nil⟩

theorem isWalk_singleton_iff : g.IsWalk [a] ↔ Visited g.nodes a := by
  constructor
  · intro h
    exact h.start a rfl
  · intro h
    refine ⟨?_, List.isChain_singleton a⟩
    rintro _ ⟨⟩
    exact h

/-- A walk goes on along an edge. -/
theorem IsWalk.snoc (h : g.IsWalk (walk ++ [a])) (hb : b ∈ g.out a) :
    g.IsWalk (walk ++ [a] ++ [b]) := by
  refine ⟨?_, ?_⟩
  · intro first hfirst
    exact h.start first (by simpa [List.head?_append] using hfirst)
  · rw [List.append_assoc, List.singleton_append, List.isChain_append_cons_cons]
    exact ⟨h.edges, hb, List.isChain_singleton b⟩

/-- What comes after a violation does not matter. -/
theorem Violation.append (h : g.Violation path e) (more : List Int) :
    g.Violation (path ++ more) e := by
  cases h with
  | start absent => exact .start absent
  | target before noEdge absent =>
    rw [List.append_assoc]
    exact .target before noEdge absent
  | edge before noEdge present source =>
    rw [List.append_assoc]
    exact .edge before noEdge present source

section Finished

variable (hg : g.Finished)
include hg

theorem Finished.visited_of_mem_out (hb : b ∈ g.out a) : Visited g.nodes b := by
  cases hget : g.get? a with
  | none => simp [out, hget] at hb
  | some n =>
    rw [out_of_get? hget] at hb
    exact hg.contains_iff.1 (hg.closed n (hg.mem_of_get? hget).1 b hb)

/-- A walk ends at a node. -/
theorem Finished.exists_get?_of_isWalk (h : g.IsWalk (walk ++ [a])) : ∃ n, g.get? a = some n := by
  rw [hg.exists_get?_iff, hg.contains_iff]
  rcases List.eq_nil_or_concat' walk with rfl | ⟨before, c, rfl⟩
  · exact isWalk_singleton_iff.1 h
  · have hedges := h.edges
    rw [List.append_assoc, List.singleton_append, List.isChain_append_cons_cons] at hedges
    exact hg.visited_of_mem_out hedges.2.1

end Finished

/-! ## One step -/

theorem replayStep_of_mem (policy : RepeatPolicy) (hb : b ∈ g.out a) :
    g.replayStep policy a b = .ok () := by
  cases hget : g.get? a with
  | none => simp [out, hget] at hb
  | some n =>
    rw [out_of_get? hget] at hb
    simp [replayStep, hget, hb]

/-- With repetitions rejected, a step that is no edge fails. -/
theorem replayStep_of_not_mem (hget : g.get? a = some n) (hb : b ∉ g.out a) :
    g.replayStep .reject a b = .error (if g.contains b then
      .missingEdge a b n.instruction n.successors (n.stack.scopes g.arena) else .missingNode b) := by
  rw [out_of_get? hget] at hb
  simp only [replayStep, hget, List.contains_iff_mem, hb, if_false, reduceCtorEq, and_false]
  split <;> rfl

/-! ## Whole paths -/

/-- The edges of a walk are passed. -/
theorem replaySteps_of_isChain (policy : RepeatPolicy)
    (h : (walk ++ [a]).IsChain fun a b => b ∈ g.out a) (rest : List Int) :
    g.replaySteps policy (walk ++ a :: rest) = g.replaySteps policy (a :: rest) := by
  induction walk with
  | nil => rfl
  | cons c walk ih =>
    cases walk with
    | nil =>
      obtain ⟨hedge, _⟩ := List.isChain_cons_cons.1 h
      simp [replaySteps, replayStep_of_mem policy hedge]
    | cons d walk =>
      obtain ⟨hedge, hrest⟩ := List.isChain_cons_cons.1 h
      have ih := ih hrest
      simpa [replaySteps, replayStep_of_mem policy hedge] using ih

/-- Replaying a path that starts with a walk goes on from the end of the walk. -/
theorem replay_of_isWalk (hg : g.Finished) (policy : RepeatPolicy) (h : g.IsWalk (walk ++ [a]))
    (rest : List Int) :
    g.replay policy (walk ++ a :: rest) = g.replaySteps policy (a :: rest) := by
  rw [← replaySteps_of_isChain policy h.edges rest]
  cases walk with
  | nil =>
    have hfirst := hg.contains_iff.2 (h.start a rfl)
    simp [replay, hfirst]
  | cons first walk =>
    have hfirst := hg.contains_iff.2 (h.start first rfl)
    simp [replay, hfirst]

theorem replay_eq_ok_of_isWalk (hg : g.Finished) (policy : RepeatPolicy) (h : g.IsWalk path) :
    g.replay policy path = .ok () := by
  rcases List.eq_nil_or_concat' path with rfl | ⟨walk, a, rfl⟩
  · rfl
  · exact replay_of_isWalk hg policy h []

theorem Violation.replay_eq (hg : g.Finished) (h : g.Violation path e) :
    g.replay .reject path = .error e := by
  cases h with
  | start absent =>
    rw [← hg.contains_iff] at absent
    simp [replay, absent]
  | target before noEdge absent =>
    obtain ⟨n, hget⟩ := hg.exists_get?_of_isWalk before
    rw [← hg.contains_iff] at absent
    rw [replay_of_isWalk hg .reject before, replaySteps, replayStep_of_not_mem hget noEdge,
      if_neg absent]
  | edge before noEdge present source =>
    rw [← hg.contains_iff] at present
    rw [replay_of_isWalk hg .reject before, replaySteps, replayStep_of_not_mem source noEdge,
      if_pos present]

/-- A walk goes on to the end of the path, or there is a first violation. -/
theorem isWalk_or_violation_of_isWalk (hg : g.Finished) (h : g.IsWalk (walk ++ [a]))
    (rest : List Int) :
    g.IsWalk (walk ++ a :: rest) ∨ ∃ e, g.Violation (walk ++ a :: rest) e := by
  induction rest generalizing walk a with
  | nil => exact .inl h
  | cons b rest ih =>
    by_cases hb : b ∈ g.out a
    · have ih := ih (h.snoc hb)
      simpa using ih
    · right
      by_cases hpresent : Visited g.nodes b
      · obtain ⟨n, hget⟩ := hg.exists_get?_of_isWalk h
        exact ⟨_, .edge h hb hpresent hget⟩
      · exact ⟨_, .target h hb hpresent⟩

theorem isWalk_or_violation (hg : g.Finished) (path : List Int) :
    g.IsWalk path ∨ ∃ e, g.Violation path e := by
  cases path with
  | nil => exact .inl isWalk_nil
  | cons first rest =>
    by_cases hfirst : Visited g.nodes first
    · have hwalk : g.IsWalk ([] ++ [first]) := isWalk_singleton_iff.2 hfirst
      exact isWalk_or_violation_of_isWalk hg hwalk rest
    · exact .inr ⟨_, .start hfirst⟩

theorem replay_eq_ok_iff (hg : g.Finished) : g.replay .reject path = .ok () ↔ g.IsWalk path := by
  refine ⟨fun hok => ?_, replay_eq_ok_of_isWalk hg .reject⟩
  rcases isWalk_or_violation hg path with h | ⟨e, h⟩
  · exact h
  · cases hok.symm.trans (h.replay_eq hg)

theorem replay_eq_error_iff (hg : g.Finished) :
    g.replay .reject path = .error e ↔ g.Violation path e := by
  refine ⟨fun herror => ?_, fun h => h.replay_eq hg⟩
  rcases isWalk_or_violation hg path with h | ⟨e', h⟩
  · cases herror.symm.trans (replay_eq_ok_of_isWalk hg .reject h)
  · cases herror.symm.trans (h.replay_eq hg)
    exact h

/-- What is found at the exit is the exit, and elsewhere a node with an instruction of that
offset. -/
theorem exit_or_instruction_of_get? {batches : List (List Instruction)}
    (h : (start.processAll batches).1.finish = .ok g) (hget : g.get? a = some n) :
    a = Offset.exit ∧ n = .exit ∨ a ≠ Offset.exit ∧ ∃ i, n.instruction = some i ∧ i.offset = a := by
  have hg := (coherent_processAll batches).finished h
  obtain ⟨hnodes, _⟩ := finish_ok h
  by_cases ha : a = Offset.exit
  · -- the exit was added last
    left
    obtain ⟨k, hk, hn⟩ := hg.get?_eq_some_iff.1 hget
    rw [hnodes, lastAt_push_of_eq ha.symm] at hk
    rw [hnodes, hk, Array.getElem?_push_size] at hn
    exact ⟨ha, (Option.some.inj hn).symm⟩
  · right
    obtain ⟨hn, ho⟩ := hg.mem_of_get? hget
    rw [hnodes, Array.mem_push] at hn
    rcases hn with hn | rfl
    · obtain ⟨i, hi, hio⟩ := exists_instruction batches n hn
      exact ⟨ha, i, hi, hio.trans ho⟩
    · exact (ha ho.symm).elim

/-- In a graph finished after any number of code units, in any order and whether or not these
failed, exactly the walks are accepted. Any other path fails for its first violation, whatever comes
after that. A missing edge tells of the node at its source. -/
theorem replay_accepts_walks {batches : List (List Instruction)}
    (h : (start.processAll batches).1.finish = .ok g) (path : List Int) :
    (g.replay .reject path = .ok () ↔ g.IsWalk path) ∧
    (∀ e, g.replay .reject path = .error e ↔ g.Violation path e) ∧
    (∀ e, g.replay .reject path = .error e →
      ∀ more, g.replay .reject (path ++ more) = .error e) ∧
    ∀ a b instruction successors stack,
      g.replay .reject path = .error (.missingEdge a b instruction successors stack) →
      ∃ n ∈ g.nodes, n.offset = a ∧ g.get? a = some n ∧
        (a = Offset.exit ∧ n = .exit ∨
          a ≠ Offset.exit ∧ ∃ i, n.instruction = some i ∧ i.offset = a) ∧
        instruction = n.instruction ∧ successors = n.successors ∧
        (ReplayError.missingEdge a b instruction successors stack).message =
          "there should be an edge " ++ toString a ++ " -> " ++ toString b
            ++ "\n  instruction: " ++ n.text
            ++ "\n  successors of " ++ toString a ++ ": " ++ ReplayError.renderOffsets n.successors
            ++ "\n  block stack of " ++ toString a ++ ": " ++ g.renderStack n := by
  have hg := (coherent_processAll batches).finished h
  refine ⟨replay_eq_ok_iff hg, fun e => replay_eq_error_iff hg, ?_, ?_⟩
  · intro e he more
    rw [replay_eq_error_iff hg] at he ⊢
    exact he.append more
  · intro a b instruction successors stack he
    cases (replay_eq_error_iff hg).1 he with
    | @edge walk _ _ rest n before noEdge present source =>
      obtain ⟨hn, ho⟩ := hg.mem_of_get? source
      exact ⟨n, hn, ho, source, exit_or_instruction_of_get? h source, rfl, rfl, rfl⟩

/-- The loop is restarted from the handler at 8, but that is not entered from 2. Nothing goes on from
the exit, and the dead instruction at 6 has no node. -/
theorem replay_accepts_walks_continueInFinally :
    ∃ g, (start.processAll [Instruction.continueInFinally]).1.finish = .ok g ∧
      g.IsWalk [0, 2, 4, 8, 2] ∧
      (∀ more, g.replay .reject ([0, 2, 8] ++ more) =
        .error (.missingEdge 2 8 (some ⟨.setupFinally, 2, some 8, some 8, true⟩) [4]
          [⟨.loopBlock, 20, 0, none⟩])) ∧
      g.Violation [Offset.exit, 0] (.missingEdge Offset.exit 0 none [] []) ∧
      g.Violation [0, 2, 6, 8] (.missingNode 6) := by
  obtain ⟨g, hg, hp⟩ := exists_ok_of_any
    (x := (start.processAll [Instruction.continueInFinally]).1.finish)
    (fun g : Graph => g.replay .reject [0, 2, 4, 8, 2] = .ok () ∧
      g.replay .reject [0, 2, 8] =
        .error (.missingEdge 2 8 (some ⟨.setupFinally, 2, some 8, some 8, true⟩) [4]
          [⟨.loopBlock, 20, 0, none⟩]) ∧
      g.replay .reject [Offset.exit, 0] = .error (.missingEdge Offset.exit 0 none [] []) ∧
      g.replay .reject [0, 2, 6, 8] = .error (.missingNode 6)) (by decide +kernel)
  obtain ⟨hwalk, hhandler, hexit, hdead⟩ := of_decide_eq_true hp
  refine ⟨g, hg, ?_, ?_, ?_, ?_⟩
  · exact (replay_accepts_walks hg _).1.1 hwalk
  · exact (replay_accepts_walks hg _).2.2.1 _ hhandler
  · exact ((replay_accepts_walks hg _).2.1 _).1 hexit
  · exact ((replay_accepts_walks hg _).2.1 _).1 hdead

end Graph

end BytecodeFlow
