import BytecodeFlow.Proofs.Replaying
import Mathlib.Data.List.Destutter

/-!
# Collapsed repetitions

An offset that is observed several times in a row counts as one visit when repetitions are
collapsed: a path is replayed like the path with each run of equal offsets merged into one
occurrence, with repetitions rejected (`replay_collapse_eq`). A repetition is passed because the
offset that a path has come to has a node, and every other step is the same under both policies.
-/

namespace BytecodeFlow

open Construction

namespace Graph

variable {g : Graph} {a b : Int} {path rest : List Int}

/-! ## One step -/

/-- The policy is about repetitions only. -/
theorem replayStep_collapse_of_ne (h : a ≠ b) :
    g.replayStep .collapse a b = g.replayStep .reject a b := by
  simp [replayStep, h]

/-- A repetition is passed, with or without an edge. -/
theorem replayStep_collapse_self {n : Node} (hget : g.get? a = some n) :
    g.replayStep .collapse a a = .ok () := by
  simp [replayStep, hget]

/-- With repetitions rejected, exactly the edges are passed. -/
theorem replayStep_reject_eq_ok_iff {n : Node} (hget : g.get? a = some n) :
    g.replayStep .reject a b = .ok () ↔ b ∈ g.out a := by
  refine ⟨fun hok => ?_, replayStep_of_mem .reject⟩
  by_contra hb
  rw [replayStep_of_not_mem hget hb] at hok
  cases hok

/-- What is passed from a node ends at a node. -/
theorem Finished.exists_get?_of_replayStep (hg : g.Finished) {n : Node} (hget : g.get? a = some n)
    (hok : g.replayStep .reject a b = .ok ()) : ∃ m, g.get? b = some m := by
  rw [hg.exists_get?_iff, hg.contains_iff]
  exact hg.visited_of_mem_out ((replayStep_reject_eq_ok_iff hget).1 hok)

/-! ## Whole paths -/

/-- A merged path still starts with the offset that it is merged from. -/
theorem exists_destutter'_eq_cons (a : Int) (rest : List Int) :
    ∃ more, rest.destutter' (· ≠ ·) a = a :: more := by
  induction rest with
  | nil => exact ⟨[], rfl⟩
  | cons b rest ih =>
    by_cases hab : a = b
    · rwa [List.destutter'_cons_neg rest (by simpa using hab)]
    · exact ⟨_, List.destutter'_cons_pos rest hab⟩

/-- The first step of a path that is merged from its second offset on. -/
theorem replaySteps_cons_destutter' (policy : RepeatPolicy) (a b : Int) (rest : List Int) :
    g.replaySteps policy (a :: rest.destutter' (· ≠ ·) b) =
      match g.replayStep policy a b with
      | .ok () => g.replaySteps policy (rest.destutter' (· ≠ ·) b)
      | .error e => .error e := by
  obtain ⟨more, hmore⟩ := exists_destutter'_eq_cons b rest
  rw [hmore]
  rfl

/-- From an offset that has a node, the steps of a path go as those of the merged path. -/
theorem Finished.replaySteps_collapse_eq (hg : g.Finished) {n : Node} (hget : g.get? a = some n)
    (rest : List Int) :
    g.replaySteps .collapse (a :: rest) =
      g.replaySteps .reject (rest.destutter' (· ≠ ·) a) := by
  induction rest generalizing a n with
  | nil => rfl
  | cons b rest ih =>
    by_cases hab : a = b
    · subst hab
      rw [List.destutter'_cons_neg rest (by simp), replaySteps, replayStep_collapse_self hget]
      exact ih hget
    · rw [List.destutter'_cons_pos rest hab, replaySteps_cons_destutter', replaySteps,
        replayStep_collapse_of_ne hab]
      cases hstep : g.replayStep .reject a b with
      | error e => rfl
      | ok _ =>
        obtain ⟨m, hm⟩ := hg.exists_get?_of_replayStep hget hstep
        exact ih hm

/-- In a graph finished after any number of code units, in any order and whether or not these
failed, replaying a path with its repetitions collapsed gives what the path gives with each run of
equal offsets merged into one visit and repetitions rejected: success, or the same error. -/
theorem replay_collapse_eq {batches : List (List Instruction)}
    (h : (start.processAll batches).1.finish = .ok g) (path : List Int) :
    g.replay .collapse path = g.replay .reject (path.destutter (· ≠ ·)) := by
  have hg := (coherent_processAll batches).finished h
  cases path with
  | nil => rfl
  | cons first rest =>
    obtain ⟨more, hmore⟩ := exists_destutter'_eq_cons first rest
    rw [List.destutter_cons', replay]
    by_cases hfirst : g.contains first = true
    · obtain ⟨n, hget⟩ := hg.exists_get?_iff.2 hfirst
      rw [if_pos hfirst, hg.replaySteps_collapse_eq hget, hmore, replay, if_pos hfirst]
    · rw [if_neg hfirst, hmore, replay, if_neg hfirst]

/-- A repetition right before a missing edge, one of an offset without a node, one of the exit, and
one along a real edge. -/
theorem replay_collapse_eq_jumpToItself :
    ∃ g, (start.processAll [[⟨.jumpAbsolute, 0, some 0, some 0, true⟩]]).1.finish = .ok g ∧
      g.replay .collapse [0, 0, Offset.exit, Offset.exit] =
        .error (.missingEdge 0 Offset.exit (some ⟨.jumpAbsolute, 0, some 0, some 0, true⟩) [0] []) ∧
      g.replay .collapse [0, 2, 2] = .error (.missingNode 2) ∧
      g.replay .collapse [Offset.exit, Offset.exit] = .ok () ∧
      g.replay .collapse [0, 0, 0] = g.replay .reject [0] := by
  obtain ⟨g, hg, hp⟩ := exists_ok_of_any
    (x := (start.processAll [[⟨.jumpAbsolute, 0, some 0, some 0, true⟩]]).1.finish)
    (fun g : Graph => g.replay .reject [0, Offset.exit] =
        .error (.missingEdge 0 Offset.exit (some ⟨.jumpAbsolute, 0, some 0, some 0, true⟩) [0] []) ∧
      g.replay .reject [0, 2] = .error (.missingNode 2) ∧
      g.replay .reject [Offset.exit] = .ok ()) (by decide +kernel)
  obtain ⟨hedge, hnode, hexit⟩ := of_decide_eq_true hp
  refine ⟨g, hg, ?_, ?_, ?_, ?_⟩
  · exact (replay_collapse_eq hg _).trans hedge
  · exact (replay_collapse_eq hg _).trans hnode
  · exact (replay_collapse_eq hg _).trans hexit
  · exact replay_collapse_eq hg _

end Graph

end BytecodeFlow
