import BytecodeFlow.Proofs.EdgeOrigins
import BytecodeFlow.Proofs.Provenance
import BytecodeFlow.Proofs.Pruning
import Mathlib.Logic.Relation

/-!
# What can be reached from the entry

The pass decides about a jump target before it has seen the jumps that come later. A target that
only later instructions jump to gets a node, even if all of these jumps turn out to be dead: it is
`Graph.Stranded`. Stranded targets are the only reason why a node may be out of reach
(`forall_reaches_iff_stranded`): every node is reached from the entry or from one of them
(`exists_root_reaches`).
-/

namespace BytecodeFlow

/-- The flags of a code unit are those that its jumps give. -/
def Instruction.Marked (code : List Instruction) : Prop := markJumpTargets code = code

theorem Instruction.Marked.isJumpTarget_iff {code : List Instruction} (h : Marked code)
    {i : Instruction} (hi : i ∈ code) : i.isJumpTarget = true ↔ i.offset ∈ jumpTargets code := by
  rw [← h] at hi
  exact isJumpTarget_of_mem_markJumpTargets hi

namespace Graph

/-- A node goes on from one offset to another one, or names that as its jump target. -/
def Leads (g : Graph) (source target : Int) : Prop :=
  ∃ m ∈ g.nodes, m.offset = source ∧ (target ∈ m.successors ∨ m.jumpTarget = some target)

/-- There is a path from one offset to another one. -/
def Reaches (g : Graph) : Int → Int → Prop := Relation.ReflTransGen g.Leads

/-- A node to which nothing before it leads, at an offset that only the instructions from there on
jump to. -/
structure Stranded (code : List Instruction) (g : Graph) (n : Node) : Prop where
  unannounced (m : Node) : m ∈ g.nodes → m.offset < n.offset → ¬ g.Leads m.offset n.offset
  jumpedTo : n.offset ∈ Instruction.jumpTargets code
  fromBehind (j : Instruction) : j ∈ code → j.jumpTarget = some n.offset → n.offset ≤ j.offset

variable {code : List Instruction} {g : Graph} {m n : Node}

/-- What is reached from a set of offsets that nothing leads out of is in the set. -/
theorem mem_of_reaches {offsets : List Int} {source target : Int}
    (hclosed : ∀ m ∈ g.nodes, m.offset ∈ offsets →
      (∀ b ∈ m.successors, b ∈ offsets) ∧ ∀ b ∈ m.jumpTarget, b ∈ offsets)
    (hsource : source ∈ offsets) (h : g.Reaches source target) : target ∈ offsets := by
  induction h with
  | refl => exact hsource
  | tail _ hlead ih =>
    obtain ⟨m, hm, rfl, hsuccessor | hjump⟩ := hlead
    · exact (hclosed m hm ih).1 _ hsuccessor
    · exact (hclosed m hm ih).2 _ hjump

/-- A node to which nothing before it leads is the entry or stranded. -/
theorem entry_or_stranded (hcode : Instruction.Ascending code) (hmarked : Instruction.Marked code)
    (h : Graph.build code = .ok g) (hn : n ∈ g.nodes) (hexit : n.isExit = false)
    (hunannounced : ∀ m ∈ g.nodes, m.offset < n.offset → ¬ g.Leads m.offset n.offset) :
    n.offset = Offset.entry ∨ g.Stranded code n := by
  have hg := Built.of_build hcode h
  obtain ⟨i, next, hi, hv⟩ := hg.visit n hn hexit
  have hi := Instruction.mem_of_mem_withNext hi
  have ho := hv.offset
  rcases (visited_iff_live hcode h hi).1 ⟨n, hn, ho⟩ with hentry | ⟨m, hm, hlt, hb⟩ |
    ⟨hflag, hjumps⟩
  · exact .inl (ho.trans hentry)
  · rw [← ho] at hlt hb
    exact (hunannounced m hm hlt ⟨m, hm, rfl, .inl hb⟩).elim
  · rw [hmarked.isJumpTarget_iff hi, ← ho] at hflag
    refine .inr ⟨hunannounced, hflag, ?_⟩
    intro j hj hjump
    by_contra hlt
    -- a jump from before has a node, and leads here
    rw [ho] at hjump hlt
    obtain ⟨m, hm, hmo⟩ := hjumps j hj (Int.not_le.1 hlt) hjump
    refine hunannounced m hm (by omega) ⟨m, hm, rfl, .inr ?_⟩
    simp [Node.jumpTarget, hg.instruction_of_offset_eq hcode hm hj hmo, hjump, ho]

/-- Every node is reached from the entry or from a stranded target before it. -/
theorem exists_root_reaches (hcode : Instruction.Ascending code)
    (hmarked : Instruction.Marked code) (h : Graph.build code = .ok g) (hn : n ∈ g.nodes)
    (hexit : n.isExit = false) :
    ∃ r ∈ g.nodes, (r.offset = Offset.entry ∨ g.Stranded code r) ∧
      g.Reaches r.offset n.offset := by
  have hg := Built.of_build hcode h
  refine hg.induction (P := fun n => ∃ r ∈ g.nodes,
    (r.offset = Offset.entry ∨ g.Stranded code r) ∧ g.Reaches r.offset n.offset) ?_ hn hexit
  -- a node before it that leads to it is reached from a root
  intro n hn hexit ih
  by_cases hlead : ∃ m ∈ g.nodes, m.offset < n.offset ∧ g.Leads m.offset n.offset
  · obtain ⟨m, hm, hlt, hlead⟩ := hlead
    have hmexit : m.isExit = false := by
      cases hmexit : m.isExit with
      | false => rfl
      | true =>
        -- the exit leads nowhere
        obtain ⟨m', hm', ho', hlead⟩ := hlead
        rw [hg.eq_of_offset_eq hm' hm ho', hg.eq_exit hm hmexit] at hlead
        rcases hlead with hb | hb <;> cases hb
    obtain ⟨r, hr, hroot, hreach⟩ := ih m hm hmexit hlt
    exact ⟨r, hr, hroot, hreach.tail hlead⟩
  · push Not at hlead
    exact ⟨n, hn, entry_or_stranded hcode hmarked h hn hexit hlead, .refl⟩

/-- Every node can be reached from the entry exactly if every stranded target can. -/
theorem forall_reaches_iff_stranded (hcode : Instruction.Ascending code)
    (hmarked : Instruction.Marked code) (h : Graph.build code = .ok g) :
    (∀ n ∈ g.nodes, n.isExit = false → g.Reaches Offset.entry n.offset) ↔
      ∀ n ∈ g.nodes, g.Stranded code n → g.Reaches Offset.entry n.offset := by
  constructor
  · intro hall n hn hstranded
    refine hall n hn ?_
    obtain ⟨j, _, hjump⟩ := Instruction.mem_jumpTargets.1 hstranded.jumpedTo
    exact Node.isExit_of_nonneg (Instruction.jumpTarget_nonneg hjump)
  · intro hstranded n hn hexit
    obtain ⟨r, hr, hroot, hreach⟩ := exists_root_reaches hcode hmarked h hn hexit
    rcases hroot with hentry | hroot
    · rwa [hentry] at hreach
    · exact (hstranded r hr hroot).trans hreach

end Graph

theorem Instruction.marked_continueInFinally : Marked continueInFinally := by
  unfold Marked
  decide

/-- Something before every target leads to it, so that all of the code can be reached. -/
theorem Graph.forall_reaches_iff_stranded_continueInFinally :
    ∃ g, Graph.build Instruction.continueInFinally = .ok g ∧
      ∀ n ∈ g.nodes, n.isExit = false → g.Reaches Offset.entry n.offset := by
  obtain ⟨g, hg, hp⟩ := exists_build Instruction.continueInFinally
    (fun g => ∀ n ∈ g.nodes.toList,
      n.offset ∈ Instruction.jumpTargets Instruction.continueInFinally →
        ∃ m ∈ g.nodes.toList, m.offset < n.offset ∧
          (n.offset ∈ m.successors ∨ m.jumpTarget = some n.offset)) (by decide +kernel)
  have hp := of_decide_eq_true hp
  refine ⟨g, hg, (forall_reaches_iff_stranded Instruction.ascending_continueInFinally
    Instruction.marked_continueInFinally hg).2 ?_⟩
  intro n hn hstranded
  obtain ⟨m, hm, hlt, hlead⟩ := hp n (by simpa using hn) hstranded.jumpedTo
  exact (hstranded.unannounced m (by simpa using hm) hlt ⟨m, by simpa using hm, rfl, hlead⟩).elim

/-- The only jump to 2 is the one at 4, which is dead. -/
def Instruction.deadJumpBack : List Instruction :=
  [⟨.jumpAbsolute, 0, some 6, some 6, false⟩, ⟨.jumpAbsolute, 2, some 6, some 6, true⟩,
    ⟨.jumpAbsolute, 4, some 2, some 2, false⟩, ⟨.returnValue, 6, none, none, true⟩]

/-- The jump at 4 gets no node, its target does. -/
theorem Graph.not_reaches_deadJumpBack :
    Instruction.Ascending Instruction.deadJumpBack ∧
      Instruction.Marked Instruction.deadJumpBack ∧
      ∃ g, Graph.build Instruction.deadJumpBack = .ok g ∧
        ∃ n ∈ g.nodes, n.isExit = false ∧ ¬ g.Reaches Offset.entry n.offset := by
  obtain ⟨g, hg, hp⟩ := exists_build Instruction.deadJumpBack
    (fun g => (∃ n ∈ g.nodes.toList, n.offset = 2) ∧
      ∀ m ∈ g.nodes.toList, m.offset ∈ [0, 6, -1] →
        (∀ b ∈ m.successors, b ∈ ([0, 6, -1] : List Int)) ∧
          ∀ b ∈ m.jumpTarget, b ∈ ([0, 6, -1] : List Int)) (by decide +kernel)
  obtain ⟨⟨n, hn, ho⟩, hclosed⟩ := of_decide_eq_true hp
  refine ⟨by unfold Instruction.Ascending; decide, by unfold Instruction.Marked; decide, g, hg,
    n, by simpa using hn, Node.isExit_of_nonneg (by omega), ?_⟩
  intro hreach
  have hmem : n.offset ∈ ([0, 6, -1] : List Int) :=
    mem_of_reaches (by simpa using hclosed) (by simp [Offset.entry]) hreach
  simp [ho] at hmem

end BytecodeFlow
