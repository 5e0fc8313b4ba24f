import BytecodeFlow.Proofs.Built
import BytecodeFlow.Proofs.ScopeLog

/-!
# Where scopes and pending continues come from

A scope of the arena was opened by a node, and a continue that is pending was deferred by a node
(`Construction.Traced`). Both are known by the jump target of that node: the exit of the scope,
and the offset to restart at. So no edge of a graph goes to an offset that nothing in the code
unit names.
-/

namespace BytecodeFlow

open BlockStack Blocks Construction

namespace Node

/-- The jump target of the instruction. -/
def jumpTarget (n : Node) : Option Int := n.instruction.bind (·.jumpTarget)

/-- The node opened a scope. -/
def Opens (n : Node) (scope : Scope) : Prop :=
  ∃ i, n.instruction = some i ∧ i.opcode.flow = .setup scope.kind ∧
    i.jumpTarget = some scope.exit ∧ n.offset = scope.origin

/-- The node is a `CONTINUE_LOOP` that restarts its loop at an offset. -/
def Defers (n : Node) (restart : Int) : Prop :=
  ∃ i, n.instruction = some i ∧ i.opcode.flow = .continueLoop ∧ i.jumpTarget = some restart

theorem Opens.jumpTarget {n : Node} {scope : Scope} (h : n.Opens scope) :
    n.jumpTarget = some scope.exit := by
  obtain ⟨i, hi, _, hjump, _⟩ := h
  simp [Node.jumpTarget, hi, hjump]

theorem Opens.offset {n : Node} {scope : Scope} (h : n.Opens scope) :
    n.offset = scope.origin := by
  obtain ⟨_, _, _, _, ho⟩ := h
  exact ho

/-- A node that the arena has a scope of opened that scope. -/
theorem Opened.opens {n : Node} {a : Arena} {id : Nat} {scope : Scope} (h : n.Opened a id)
    (hscope : a.get? id = some scope) : n.Opens scope := by
  obtain ⟨i, kind, exit, hi, _, hflow, hjump, hget, _⟩ := h
  cases hget.symm.trans hscope
  exact ⟨i, hi, hflow, hjump, rfl⟩

theorem Defers.jumpTarget {n : Node} {restart : Int} (h : n.Defers restart) :
    n.jumpTarget = some restart := by
  obtain ⟨i, hi, _, hjump⟩ := h
  simp [Node.jumpTarget, hi, hjump]

theorem jumpTarget_nonneg {n : Node} {target : Int} (h : n.jumpTarget = some target) :
    0 ≤ target := by
  obtain ⟨i, _, hjump⟩ := Option.bind_eq_some_iff.1 h
  exact Instruction.jumpTarget_nonneg hjump

end Node

namespace Construction

variable {c c' : Construction} {i : Instruction} {next : Option Int} {e : Option BuildError}

/-- Every scope was opened by a node, and every pending continue was deferred by one. -/
structure Traced (c : Construction) : Prop where
  scopes (id : Nat) (scope : Scope) : c.arena.get? id = some scope → ∃ n ∈ c.nodes, n.Opens scope
  restarts (n : Node) (loop : Nat) (restart : Int) : n ∈ c.nodes →
    n.outFacts.Holds (.continued loop restart) → ∃ m ∈ c.nodes, m.Defers restart

theorem traced_start : start.Traced where
  scopes id scope h := by simp [start] at h
  restarts n loop restart hn := by simp [start] at hn

/-- Every scope of the arena was opened by a node. -/
theorem Logged.exists_opens (h : c.Logged) (hc : c.Coherent) {id : Nat} {scope : Scope}
    (hscope : c.arena.get? id = some scope) : ∃ n ∈ c.nodes, n.Opens scope := by
  have hlt : id < c.setups.length := by
    rw [← hc.size_eq_length_setups]
    exact Arena.lt_size_of_get? hscope
  have hn : c.setups[id]? = some c.setups[id] := List.getElem?_eq_getElem hlt
  refine ⟨c.setups[id], ?_, (h.opened id _ hn).opens hscope⟩
  exact Array.mem_toList_iff.1 (List.mem_filter.1 (List.mem_of_getElem? hn)).1

theorem Traced.step (h : c.Traced) (hc : c.Coherent) (hlogged : c.Logged) (ho : 0 ≤ i.offset)
    (hstep : Step c i next (c', e)) : c'.Traced where
  scopes id scope := (hlogged.step hc hstep).exists_opens (hc.step hstep)
  restarts n loop restart hn hfact := by
    cases hstep with
    | skipped dead => simpa using h.restarts n loop restart (by simpa using hn) hfact
    | disagreed live joined => exact h.restarts n loop restart hn hfact
    | unresolved live joined resolved =>
      simpa using h.restarts n loop restart (by simpa using hn) hfact
    | @visited s r live joined resolved =>
      have hr := Instruction.outcome_of_resolve resolved
      rw [nodes_visited] at hn ⊢
      -- the continue of an older node is known; that of the new one is its own or came to it
      have hold : ∀ m ∈ c.nodes, m.outFacts.Holds (.continued loop restart) →
          ∃ k ∈ c.nodes.push (nodeOf i s (c.joinFacts i.offset) r), k.Defers restart := by
        intro m hm hm'
        obtain ⟨k, hk, hdefers⟩ := h.restarts m loop restart hm hm'
        exact ⟨k, Array.mem_push_of_mem _ hk, hdefers⟩
      rcases Array.mem_push.1 hn with hn | rfl
      · exact hold n hn hfact
      · rcases (hr.holds_facts ho).1 hfact with ⟨hflow, hjump, _⟩ | ⟨hin, _⟩
        · exact ⟨_, Array.mem_push_self, i, rfl, hflow, hjump⟩
        · obtain ⟨m, hm, hm'⟩ := hc.exists_node_of_holds_joinFacts hin
          exact hold m hm hm'

/-- What a run over a code unit in ascending order leaves is traced. -/
theorem traced_run {code : List Instruction} (hcode : Instruction.Ascending code)
    (hnonneg : ∀ i ∈ code, 0 ≤ i.offset)
    (h : start.run (Instruction.withNext code) = (c, none)) : c.Traced := by
  have hboth : c.Logged ∧ c.Traced := by
    refine pass_induction (P := fun _ d => d.Logged ∧ d.Traced) hcode
      ⟨logged_start, traced_start⟩ ?_ h
    intro done i next rest d d' hsteps hpass hd hstep
    have hmem : (i, next) ∈ Instruction.withNext code := by simp [hsteps]
    exact ⟨hd.1.step hpass.coherent hstep, hd.2.step hpass.coherent hd.1
      (hnonneg i (Instruction.mem_of_mem_withNext hmem)) hstep⟩
  exact hboth.2

end Construction

namespace Graph

variable {code : List Instruction} {g : Graph} {n : Node}

/-- A scope of a block stack was opened by a node. -/
theorem exists_opens_of_build (hcode : Instruction.Ascending code)
    (h : Graph.build code = .ok g) {s : BlockStack} {x : Nat × Scope}
    (hx : x ∈ s.toList g.arena) : ∃ m ∈ g.nodes, m.Opens x.2 := by
  obtain ⟨⟨first, rest, rfl, hentry⟩, c, hrun, hfinish⟩ := run_of_build h
  obtain ⟨hnodes, _, _, harena, _⟩ := finish_ok hfinish
  have hscope := get?_of_mem_toList hx
  rw [harena] at hscope
  obtain ⟨m, hm, hopens⟩ := (traced_run hcode (hcode.nonneg hentry) hrun).scopes x.1 x.2 hscope
  exact ⟨m, by simp [hnodes, hm], hopens⟩

end Graph

end BytecodeFlow
