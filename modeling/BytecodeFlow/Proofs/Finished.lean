import BytecodeFlow.Proofs.Pruning
import Mathlib.Data.List.Induction

/-!
# Finished graphs

What is known about a graph whatever code units it was built from, in any order and whether or not
these failed: the index names the last node at an offset, the stacks of the nodes lie in the arena,
and every edge ends at a node.
-/

namespace BytecodeFlow

open BlockStack Construction

/-- Some node is the last one at an offset exactly if there is one. -/
theorem exists_lastAt_iff {nodes : Array Node} {offset : Int} :
    (∃ k, LastAt nodes offset k) ↔ Visited nodes offset := by
  constructor
  · rintro ⟨k, ⟨n, hn, ho⟩, _⟩
    exact ⟨n, Array.mem_of_getElem? hn, ho⟩
  · obtain ⟨ns⟩ := nodes
    induction ns using List.reverseRecOn with
    | nil =>
      rintro ⟨n, hn, _⟩
      cases Array.mem_toList_iff.2 hn
    | append_singleton ns n ih =>
      have hpush : (⟨ns ++ [n]⟩ : Array Node) = Array.push ⟨ns⟩ n := by simp
      rw [hpush, visited_push_iff]
      by_cases ho : n.offset = offset
      · intro _
        exact ⟨_, (lastAt_push_of_eq ho).2 rfl⟩
      · rintro (hbefore | hlast)
        · obtain ⟨k, hk⟩ := ih hbefore
          exact ⟨k, (lastAt_push_of_ne ho).2 hk⟩
        · exact (ho hlast).elim

/-- The nodes, the index and the arena of a graph agree. -/
structure Graph.Finished (g : Graph) : Prop where
  index (offset : Int) (k : Nat) : g.index[offset]? = some k ↔ LastAt g.nodes offset k
  within (n : Node) : n ∈ g.nodes → n.stack.Within g.arena
  closed (n : Node) : n ∈ g.nodes → ∀ b ∈ n.successors, g.contains b = true

theorem Construction.Coherent.finished {c : Construction} {g : Graph}
    (hc : c.Coherent) (h : c.finish = .ok g) : g.Finished := by
  obtain ⟨hnodes, hindex, _, harena, hclosed⟩ := finish_ok h
  refine ⟨?_, ?_, hclosed⟩
  · intro offset k
    rw [hnodes, hindex]
    exact lastAt_push_iff hc.index .exit offset k
  · intro n hn
    rw [hnodes, Array.mem_push] at hn
    rw [harena]
    rcases hn with hn | rfl
    · exact (hc.within n hn).1
    · exact within_empty c.arena

namespace Graph

variable {g : Graph} {n : Node} {offset : Int}

theorem finished_of_build {code : List Instruction} (h : Graph.build code = .ok g) :
    g.Finished := by
  obtain ⟨_, c, hrun, hfinish⟩ := run_of_build h
  have hcoherent : (start.run (Instruction.withNext code)).1.Coherent :=
    run_keeps (fun _ _ _ _ _ hd hstep => hd.step hstep) coherent_start _
  rw [hrun] at hcoherent
  exact hcoherent.finished hfinish

/-- What is found at an offset is the last node there. -/
theorem Finished.get?_eq_some_iff (h : g.Finished) :
    g.get? offset = some n ↔ ∃ k, LastAt g.nodes offset k ∧ g.nodes[k]? = some n := by
  simp only [get?, Option.bind_eq_some_iff, h.index]

theorem Finished.mem_of_get? (h : g.Finished) (hget : g.get? offset = some n) :
    n ∈ g.nodes ∧ n.offset = offset := by
  obtain ⟨k, ⟨⟨m, hm, ho⟩, _⟩, hn⟩ := h.get?_eq_some_iff.1 hget
  cases hm.symm.trans hn
  exact ⟨Array.mem_of_getElem? hn, ho⟩

/-- The offsets that are in a graph are those of its nodes. -/
theorem Finished.contains_iff (h : g.Finished) :
    g.contains offset = true ↔ Visited g.nodes offset := by
  rw [contains, Std.TreeMap.contains_eq_isSome_getElem?, Option.isSome_iff_exists,
    ← exists_lastAt_iff]
  simp only [h.index]

theorem Finished.exists_get?_iff (h : g.Finished) :
    (∃ n, g.get? offset = some n) ↔ g.contains offset = true := by
  rw [h.contains_iff]
  constructor
  · rintro ⟨n, hn⟩
    exact ⟨n, h.mem_of_get? hn⟩
  · intro hvisited
    obtain ⟨k, hk⟩ := exists_lastAt_iff.2 hvisited
    obtain ⟨n, hn, _⟩ := hk.1
    exact ⟨n, h.get?_eq_some_iff.2 ⟨k, hk, hn⟩⟩

end Graph

end BytecodeFlow
