import BytecodeFlow.Proofs.Equations

/-!
# The facts of a node are the meet over its paths

A single pass computes the facts before a node. They are what the paths to the node say
(`holds_facts_iff_exists_walk`): a fact holds exactly if some walk to the node starts where it is
generated and runs into nothing that kills it.
-/

namespace BytecodeFlow

namespace Graph

variable {code : List Instruction} {g : Graph} {m n : Node} {ms : List Node} {fact : Fact}

/-- A fact that holds was generated on the way and has not been killed since. -/
theorem Built.exists_walk_of_holds (h : g.Built code) (hn : n ∈ g.nodes)
    (hexit : n.isExit = false) (hfact : n.facts.Holds fact) :
    ∃ m ms, g.Walk (m :: (ms ++ [n])) ∧ g.Generates m fact ∧ ∀ k ∈ ms, ¬ g.Kills k fact := by
  -- the node that hands the fact over is further up
  induction hk : n.offset.toNat using Nat.strongRecOn generalizing n with
  | _ k ih =>
    obtain ⟨m, hm, hforward, hout⟩ := (h.holds_facts hn hexit).1 hfact
    have hmexit := h.isExit_of_mem_successors hm hforward.2
    have hmo := h.offset_nonneg hm hmexit
    rcases (h.holds_outFacts hm hmexit).1 hout with hgen | ⟨hin, hkeep⟩
    · -- it starts to hold there, and the walk is one edge long
      refine ⟨m, [], ?_, hgen, by simp⟩
      apply walk_cons_cons.2
      exact ⟨hm, hforward, by simpa [Walk] using hn⟩
    · have hlt : m.offset.toNat < k := by
        have := hforward.1
        omega
      obtain ⟨o, ms, hwalk, hgen, hkeeps⟩ := ih m.offset.toNat hlt hm hmexit hin rfl
      refine ⟨o, ms ++ [m], ?_, hgen, ?_⟩
      · have hlong : g.Walk ((o :: ms) ++ [m, n]) := walk_append_pair.2 ⟨hwalk, hforward, hn⟩
        simpa using hlong
      · intro x hx
        rcases List.mem_append.1 hx with hx | hx
        · exact hkeeps x hx
        · cases List.mem_singleton.1 hx
          exact hkeep

/-- A fact goes along a walk on which nothing kills it. -/
theorem Built.holds_of_walk (h : g.Built code) (hexit : n.isExit = false)
    (hwalk : g.Walk (m :: (ms ++ [n]))) (hout : m.outFacts.Holds fact)
    (hkeep : ∀ k ∈ ms, ¬ g.Kills k fact) : n.facts.Holds fact := by
  induction ms generalizing m with
  | nil =>
    obtain ⟨hm, hforward, hn⟩ := walk_cons_cons.1 hwalk
    exact (h.holds_facts (hn.1 n (by simp)) hexit).2 ⟨m, hm, hforward, hout⟩
  | cons k rest ih =>
    obtain ⟨hm, hforward, hrest⟩ := walk_cons_cons.1 hwalk
    have hk : k ∈ g.nodes := hrest.1 k (by simp)
    have hkexit := h.isExit_of_walk hrest
    have hin : k.facts.Holds fact := (h.holds_facts hk hkexit).2 ⟨m, hm, hforward, hout⟩
    apply ih hrest
    · exact (h.holds_outFacts hk hkexit).2 (.inr ⟨hin, hkeep k (by simp)⟩)
    · intro x hx
      exact hkeep x (by simp [hx])

/-- A fact holds before a node exactly if some walk to the node starts where the fact is
generated, and nothing on the way kills it. -/
theorem holds_facts_iff_exists_walk (hcode : Instruction.Ascending code)
    (h : Graph.build code = .ok g) (hn : n ∈ g.nodes) (hexit : n.isExit = false) :
    n.facts.Holds fact ↔
      ∃ m ms, g.Walk (m :: (ms ++ [n])) ∧ g.Generates m fact ∧
        ∀ k ∈ ms, ¬ g.Kills k fact := by
  have hg := Built.of_build hcode h
  constructor
  · intro hfact
    exact hg.exists_walk_of_holds hn hexit hfact
  · intro hwalk
    obtain ⟨m, ms, hwalk, hgen, hkeep⟩ := hwalk
    have hm : m ∈ g.nodes := hwalk.1 m (by simp)
    have hout := (hg.holds_outFacts hm (hg.isExit_of_walk hwalk)).2 (.inl hgen)
    exact hg.holds_of_walk hexit hwalk hout hkeep

/-- The continue that a `finally` block defers is pending at its handler. -/
theorem holds_facts_iff_exists_walk_continueInFinally :
    ∃ g n, Graph.build Instruction.continueInFinally = .ok g ∧ n ∈ g.nodes ∧ n.offset = 8 ∧
      n.facts.Holds (.continued 0 2) ∧
      ∃ m ms, g.Walk (m :: (ms ++ [n])) ∧ g.Generates m (.continued 0 2) ∧
        ∀ k ∈ ms, ¬ g.Kills k (.continued 0 2) := by
  obtain ⟨g, hg, hp⟩ := exists_build Instruction.continueInFinally
    (fun g => g.nodes.toList.any fun n =>
      n.offset == 8 && decide (n.facts.Holds (.continued 0 2))) (by decide +kernel)
  obtain ⟨n, hn, hn'⟩ := List.any_eq_true.1 hp
  simp only [Bool.and_eq_true, beq_iff_eq, decide_eq_true_eq] at hn'
  obtain ⟨ho, hfact⟩ := hn'
  have hmem : n ∈ g.nodes := by simpa using hn
  have hexit : n.isExit = false := by simp [Node.isExit, Offset.isExit, Offset.exit, ho]
  refine ⟨g, n, hg, hmem, ho, hfact, ?_⟩
  exact (holds_facts_iff_exists_walk Instruction.ascending_continueInFinally hg hmem hexit).1 hfact

end Graph

end BytecodeFlow
