import BytecodeFlow.Proofs.PathIndependence
import Mathlib.Data.List.TakeWhile

/-!
# Which scopes are open

A `SETUP_*` instruction opens a scope, and the scope stays open until something drops it:
`POP_BLOCK` closes the innermost scope if that is a loop, a `BREAK_LOOP` that no handler intercepts
closes the innermost loop with the scopes in it, and a scope that has ended is left on the way to
an offset, together with the scopes in it, if these have ended too (`Graph.Drops`). So the scopes
that an edge hands over are those that are opened on a way to it and not dropped from there on,
whatever way that is (`Graph.Built.mem_arrive_iff_openOn`).
-/

namespace BytecodeFlow

open BlockStack Blocks

/-! ## Scopes on a list -/

/-- No scope is on a stack twice. -/
theorem BlockStack.nodup_toList (s : BlockStack) (a : Arena) : (s.toList a).Nodup := by
  refine (s.pairwise_toList a).imp ?_
  rintro x y hlt rfl
  exact Nat.lt_irrefl _ hlt

namespace Blocks

/-- A scope ends at an offset or before it, and so do all scopes in it. -/
def EndsBy (offset : Int) (stack : List (Nat × Scope)) (x : Nat × Scope) : Prop :=
  ∃ inner outer, stack = inner ++ x :: outer ∧ ∀ y ∈ inner ++ [x], y.2.exit ≤ offset

variable {stack : List (Nat × Scope)} {x : Nat × Scope} {offset : Int}

/-- What is left on arrival is outside of a scope that ends before, and no scope is there twice. -/
theorem EndsBy.not_mem_arrive (hends : EndsBy offset stack x) (h : stack.Nodup) :
    x ∉ arrive offset stack := by
  obtain ⟨inner, outer, hsplit, hends⟩ := hends
  have hleft : ∀ y ∈ inner ++ [x], decide (y.2.exit ≤ offset) = true := by simpa using hends
  have hstack : stack = (inner ++ [x]) ++ outer := by simp [hsplit]
  rw [hstack] at h
  rw [arrive, hstack, List.dropWhile_append_of_pos hleft]
  intro hx
  exact (List.nodup_append.1 h).2.2 x (by simp) x ((List.dropWhile_sublist _).subset hx) rfl

/-- A scope that is left on arrival has ended, and so have all scopes in it. -/
theorem endsBy_of_not_mem_arrive (hx : x ∈ stack) (hleft : x ∉ arrive offset stack) :
    EndsBy offset stack x := by
  have hsplit : stack = stack.takeWhile (·.2.exit ≤ offset) ++ arrive offset stack :=
    List.takeWhile_append_dropWhile.symm
  rw [hsplit, List.mem_append] at hx
  obtain ⟨inner, rest, hinner⟩ := List.append_of_mem (hx.resolve_right hleft)
  refine ⟨inner, rest ++ arrive offset stack, ?_, ?_⟩
  · rw [← List.cons_append, ← List.append_assoc, ← hinner, ← hsplit]
  · intro y hy
    have hmem : y ∈ stack.takeWhile (·.2.exit ≤ offset) := by
      rw [hinner, List.append_cons]
      exact List.mem_append_left _ hy
    simpa using List.mem_takeWhile_imp hmem

theorem mem_arrive_iff (h : stack.Nodup) :
    x ∈ arrive offset stack ↔ x ∈ stack ∧ ¬ EndsBy offset stack x := by
  constructor
  · intro hx
    exact ⟨(List.dropWhile_sublist _).subset hx, fun hends => hends.not_mem_arrive h hx⟩
  · intro hx
    by_contra hleft
    exact hx.2 (endsBy_of_not_mem_arrive hx.1 hleft)

/-- The scopes around the innermost loop are those that are not in it, nor the loop itself. -/
theorem mem_outsideLoop_iff (h : stack.Nodup) :
    x ∈ outsideLoop stack ↔
      x ∈ stack ∧ ¬ (x ∈ insideLoop stack ∨ innermostLoop? stack = some x) := by
  cases hl : innermostLoop? stack with
  | none =>
    have hno : ∀ y ∈ stack, (!y.2.kind.isLoop) = true := by
      simpa [innermostLoop?] using hl
    have hinside : insideLoop stack = stack := List.takeWhile_eq_self_iff.2 hno
    have houtside : outsideLoop stack = [] := by
      rw [outsideLoop, List.dropWhile_eq_nil_iff.2 hno, List.tail_nil]
    simp [hinside, houtside]
  | some l =>
    have hsplit := eq_inside_append hl
    rw [hsplit] at h
    obtain ⟨_, houter, hapart⟩ := List.nodup_append.1 h
    have hloop := (List.nodup_cons.1 houter).1
    constructor
    · intro hx
      refine ⟨?_, ?_⟩
      · rw [hsplit]
        simp [hx]
      · rintro (hin | hin)
        · exact hapart x hin x (by simp [hx]) rfl
        · cases hin
          exact hloop hx
    · intro hx
      obtain ⟨hx, hnot⟩ := hx
      rw [hsplit, List.mem_append, List.mem_cons] at hx
      rcases hx with hx | rfl | hx
      · exact (hnot (.inl hx)).elim
      · exact (hnot (.inr rfl)).elim
      · exact hx

/-- `POP_BLOCK` drops the innermost scope if that is a loop, and no other scope. -/
theorem mem_closeLoop_iff (h : stack.Nodup) :
    (x ∈ match stack with
      | [] => []
      | y :: rest => if y.2.kind.isLoop then rest else y :: rest) ↔
      x ∈ stack ∧ ¬ (stack.head? = some x ∧ x.2.kind.isLoop = true) := by
  cases stack with
  | nil => simp
  | cons y rest =>
    have hy := (List.nodup_cons.1 h).1
    by_cases hx : x = y
    · subst hx
      cases hloop : x.2.kind.isLoop <;> simp [hloop, hy]
    · cases hloop : y.2.kind.isLoop <;> simp [hloop, hx, Ne.symm hx]

end Blocks

/-! ## What an instruction opens and closes -/

namespace Instruction

/-- The instruction opens a scope on a stack. The scope gets the id `fresh`. -/
def Opens (i : Instruction) (fresh : Nat) (stack : List (Nat × Scope)) (x : Nat × Scope) : Prop :=
  i.opcode.flow = .setup x.2.kind ∧ i.jumpTarget = some x.2.exit ∧
    x = (fresh, ⟨x.2.kind, x.2.exit, i.offset, stack.head?.map (·.1)⟩)

/-- The instruction closes a scope of a stack. -/
def Closes (i : Instruction) (stack : List (Nat × Scope)) (x : Nat × Scope) : Prop :=
  i.opcode.flow = .popBlock ∧ stack.head? = some x ∧ x.2.kind.isLoop = true ∨
  i.opcode.flow = .breakLoop ∧ ¬ Intercepted i.offset (insideLoop stack) ∧
    (x ∈ insideLoop stack ∨ innermostLoop? stack = some x)

variable {i : Instruction} {fresh : Nat} {stack : List (Nat × Scope)} {x : Nat × Scope}

theorem not_closes_of_opens (h : i.Opens fresh stack x) : ¬ i.Closes stack x := by
  simp [Closes, h.1]

theorem opens_iff {kind : ScopeKind} {exit : Int} (flow : i.opcode.flow = .setup kind)
    (jump : i.jumpTarget = some exit) :
    i.Opens fresh stack x ↔
      x = (fresh, ⟨kind, exit, i.offset, stack.head?.map (·.1)⟩) := by
  rw [Opens, flow, jump]
  constructor
  · rintro ⟨hkind, hexit, hx⟩
    cases hkind
    cases hexit
    exact hx
  · rintro rfl
    exact ⟨rfl, rfl, rfl⟩

/-- After an instruction the stack has the scope that it opens, and those of before that it does
not close. -/
theorem mem_stackAfter_iff (h : stack.Nodup) :
    x ∈ i.stackAfter fresh stack ↔
      i.Opens fresh stack x ∨ x ∈ stack ∧ ¬ i.Closes stack x := by
  unfold stackAfter
  split
  · rename_i flow jump
    simp [opens_iff flow jump, Closes, flow]
  · rename_i flow
    refine (mem_closeLoop_iff h).trans ?_
    simp [Opens, Closes, flow]
  · rename_i flow
    split
    · rename_i hi
      simp [Opens, Closes, flow, hi]
    · rename_i hi
      simp [Opens, Closes, flow, hi, mem_outsideLoop_iff h]
  · rename_i hpop hbreak hsetup
    have hopens : ¬ i.Opens fresh stack x := by
      intro h
      exact hsetup _ _ h.1 h.2.1
    have hcloses : ¬ i.Closes stack x := by
      rintro (⟨flow, _⟩ | ⟨flow, _⟩)
      · exact hpop flow
      · exact hbreak flow
    simp [hopens, hcloses]

end Instruction

/-! ## Along the ways through a graph -/

namespace Graph

/-- A node opens a scope. -/
def Opens (g : Graph) (n : Node) (x : Nat × Scope) : Prop :=
  ∃ i ∈ n.instruction,
    i.Opens (Node.setupsBefore g.nodes.toList n.offset) (g.blocks n) x

/-- On the way from a node to an offset a scope is dropped: the node closes it, or it ends there
with all scopes in it. -/
def Drops (g : Graph) (n : Node) (target : Int) (x : Nat × Scope) : Prop :=
  (∃ i ∈ n.instruction, i.Closes (g.blocks n) x) ∨
    EndsBy target (g.execute n (g.blocks n)) x

/-- A node hands its block stack on to another one: along an edge to a further offset, or, where
no such edge goes, as the first node that declares a handler there. -/
def HandsOn (g : Graph) (m n : Node) : Prop :=
  m ∈ g.nodes ∧ (m.Forward n ∨
    (∀ k ∈ g.nodes, ¬ k.Forward n) ∧ n.declarer? g.nodes.toList = some m)

/-- A way through a graph on which each node hands its block stack on to the next. -/
def Way (g : Graph) (ns : List Node) : Prop :=
  (∀ n ∈ ns, n ∈ g.nodes) ∧ ns.IsChain g.HandsOn

/-- A scope is dropped on a way, or from its last node to an offset. -/
def DropsAlong (g : Graph) (x : Nat × Scope) (target : Int) : List Node → Prop
  | [] => False
  | [n] => g.Drops n target x
  | m :: n :: rest => g.Drops m n.offset x ∨ DropsAlong g x target (n :: rest)

/-- A node of a way opens a scope that is not dropped from there on. -/
def LeavesOpen (g : Graph) (x : Nat × Scope) (target : Int) : List Node → Prop
  | [] => False
  | n :: rest => g.Opens n x ∧ ¬ g.DropsAlong x target (n :: rest) ∨ LeavesOpen g x target rest

/-- Some way to a node leaves a scope open when control goes on to an offset. -/
def OpenOn (g : Graph) (n : Node) (target : Int) (x : Nat × Scope) : Prop :=
  ∃ ns, g.Way ns ∧ ns.getLast? = some n ∧ g.LeavesOpen x target ns

variable {code : List Instruction} {g : Graph} {m n : Node} {ns : List Node} {x : Nat × Scope}
  {target : Int}

theorem way_cons_cons : g.Way (m :: n :: ns) ↔ g.HandsOn m n ∧ g.Way (n :: ns) := by
  rw [Way, Way, List.forall_mem_cons, List.isChain_cons_cons, HandsOn]
  tauto

theorem way_append_singleton (hway : g.Way ns) (hlast : ns.getLast? = some m)
    (hhands : g.HandsOn m n) (hn : n ∈ g.nodes) : g.Way (ns ++ [n]) := by
  refine ⟨?_, ?_⟩
  · intro k hk
    rcases List.mem_append.1 hk with hk | hk
    · exact hway.1 k hk
    · rwa [List.mem_singleton.1 hk]
  · apply List.isChain_append.2
    refine ⟨hway.2, List.isChain_singleton n, ?_⟩
    intro k hk o ho
    cases hlast.symm.trans hk
    cases ho
    exact hhands

theorem Built.isExit_of_handsOn (h : g.Built code) (hhands : g.HandsOn m n) :
    m.isExit = false := by
  obtain ⟨hm, hforward | ⟨_, hd⟩⟩ := hhands
  · exact h.isExit_of_mem_successors hm hforward.2
  · exact h.isExit_of_setsUp hm (h.first_of_declarer? hd).1.2.2

theorem Built.offset_lt_of_handsOn (h : g.Built code) (hhands : g.HandsOn m n) :
    m.offset < n.offset := by
  obtain ⟨_, hforward | ⟨_, hd⟩⟩ := hhands
  · exact hforward.1
  · exact (h.first_of_declarer? hd).1.2.1

/-- The scope that a node opens has ended where its handler starts. -/
theorem Built.arrive_execute_of_setsUp (h : g.Built code) (hn : n ∈ g.nodes)
    (hsets : n.setsUp target = true) (stack : List (Nat × Scope)) :
    arrive target (g.execute n stack) = arrive target stack := by
  obtain ⟨i, next, _, hv⟩ := h.visit n hn (h.isExit_of_setsUp hn hsets)
  rw [Node.setsUp, hv.instruction, Option.any_some, Instruction.declares, Instruction.isSetup,
    Bool.and_eq_true, beq_iff_eq] at hsets
  obtain ⟨hsetup, hjump⟩ := hsets
  rw [execute, hv.instruction]
  cases hflow : i.opcode.flow with
  | setup kind => simp [Instruction.stackAfter, hflow, hjump, arrive]
  | _ => simp [hflow] at hsetup

/-- A node has what another one hands on to it, less the scopes that end on the way. -/
theorem Built.blocks_of_handsOn (h : g.Built code) (hn : n ∈ g.nodes) (hexit : n.isExit = false)
    (hhands : g.HandsOn m n) : g.blocks n = arrive n.offset (g.execute m (g.blocks m)) := by
  obtain ⟨hm, hforward | ⟨hnone, hd⟩⟩ := hhands
  · exact h.blocks_eq hm hn hexit hforward
  · rw [h.blocks_of_no_forward hn hexit hnone, hd,
      h.arrive_execute_of_setsUp hm (h.first_of_declarer? hd).1.2.2]
    rfl

/-- A node that no stack is handed to has none. -/
theorem Built.blocks_of_no_handsOn (h : g.Built code) (hn : n ∈ g.nodes)
    (hexit : n.isExit = false) (hnone : ∀ m, ¬ g.HandsOn m n) : g.blocks n = [] := by
  have hforward : ∀ m ∈ g.nodes, ¬ m.Forward n := fun m hm hforward =>
    hnone m ⟨hm, .inl hforward⟩
  rw [h.blocks_of_no_forward hn hexit hforward]
  cases hd : n.declarer? g.nodes.toList with
  | none => rfl
  | some o =>
    exact (hnone o ⟨(h.first_of_declarer? hd).1.1, .inr ⟨hforward, hd⟩⟩).elim

/-- What a node hands on to an offset: what it opens, and what was open before, unless it is
dropped. -/
theorem Built.mem_arrive_execute (h : g.Built code) (hn : n ∈ g.nodes) (hexit : n.isExit = false) :
    x ∈ arrive target (g.execute n (g.blocks n)) ↔
      (g.Opens n x ∨ x ∈ g.blocks n) ∧ ¬ g.Drops n target x := by
  have hin : (g.blocks n).Nodup := nodup_toList n.stack g.arena
  have hout : (g.execute n (g.blocks n)).Nodup := by
    rw [← h.toList_outStack hn hexit]
    exact nodup_toList n.outStack g.arena
  obtain ⟨i, next, _, hv⟩ := h.visit n hn hexit
  rw [mem_arrive_iff hout]
  simp only [Opens, Drops, execute, hv.instruction, Option.mem_some_iff, exists_eq_left',
    Instruction.mem_stackAfter_iff hin]
  have hnot : i.Opens (Node.setupsBefore g.nodes.toList n.offset) (g.blocks n) x →
      ¬ i.Closes (g.blocks n) x := Instruction.not_closes_of_opens
  tauto

/-- What is active before a node has come from a node that hands it on. -/
theorem Built.mem_blocks_iff (h : g.Built code) (hn : n ∈ g.nodes) (hexit : n.isExit = false) :
    x ∈ g.blocks n ↔ ∃ m, g.HandsOn m n ∧ x ∈ arrive n.offset (g.execute m (g.blocks m)) := by
  constructor
  · intro hx
    by_cases hhands : ∃ m, g.HandsOn m n
    · obtain ⟨m, hhands⟩ := hhands
      exact ⟨m, hhands, h.blocks_of_handsOn hn hexit hhands ▸ hx⟩
    · push Not at hhands
      simp [h.blocks_of_no_handsOn hn hexit hhands] at hx
  · rintro ⟨m, hhands, hx⟩
    rwa [h.blocks_of_handsOn hn hexit hhands]

/-- What is active before a node was opened or was active before another one, which hands it on. -/
theorem Built.exists_handsOn_of_mem_blocks (h : g.Built code) (hn : n ∈ g.nodes)
    (hexit : n.isExit = false) (hx : x ∈ g.blocks n) :
    ∃ m, g.HandsOn m n ∧ (g.Opens m x ∨ x ∈ g.blocks m) := by
  obtain ⟨m, hhands, hx⟩ := (h.mem_blocks_iff hn hexit).1 hx
  exact ⟨m, hhands, ((h.mem_arrive_execute hhands.1 (h.isExit_of_handsOn hhands)).1 hx).1⟩

/-- A scope is opened at its origin. -/
theorem Built.origin_of_opens (h : g.Built code) (hn : n ∈ g.nodes) (hopens : g.Opens n x) :
    x.2.origin = n.offset := by
  obtain ⟨i, hi, _, _, hx⟩ := hopens
  rw [hx, h.offset_of_instruction_eq hn hi]

/-- The scopes of a node were opened before it. -/
theorem Built.origin_lt (h : g.Built code) (hn : n ∈ g.nodes) (hexit : n.isExit = false) :
    ∀ x ∈ g.blocks n, x.2.origin < n.offset := by
  refine h.induction (P := fun n => ∀ x ∈ g.blocks n, x.2.origin < n.offset) ?_ hn hexit
  intro n hn hexit ih x hx
  obtain ⟨m, hhands, hbefore⟩ := h.exists_handsOn_of_mem_blocks hn hexit hx
  have hlt := h.offset_lt_of_handsOn hhands
  rcases hbefore with hopens | hbefore
  · rwa [h.origin_of_opens hhands.1 hopens]
  · exact Int.lt_trans (ih m hhands.1 (h.isExit_of_handsOn hhands) hlt x hbefore) hlt

/-- What a way leaves open was opened on it. -/
theorem exists_opens_of_leavesOpen (hleaves : g.LeavesOpen x target ns) :
    ∃ n ∈ ns, g.Opens n x := by
  induction ns with
  | nil => exact hleaves.elim
  | cons n rest ih =>
    rcases hleaves with ⟨hopens, _⟩ | hleaves
    · exact ⟨n, by simp, hopens⟩
    · obtain ⟨k, hk, hopens⟩ := ih hleaves
      exact ⟨k, by simp [hk], hopens⟩

/-- A way goes forward. -/
theorem Built.le_of_mem_way (h : g.Built code) (hway : g.Way (m :: ns)) (hn : n ∈ m :: ns) :
    m.offset ≤ n.offset := by
  induction ns generalizing m with
  | nil => rw [List.mem_singleton.1 hn]
  | cons k rest ih =>
    obtain ⟨hhands, hrest⟩ := way_cons_cons.1 hway
    rcases List.mem_cons.1 hn with rfl | hn
    · exact Int.le_refl _
    · exact Int.le_trans (Int.le_of_lt (h.offset_lt_of_handsOn hhands)) (ih hrest hn)

/-- What a way leaves open was opened from its start on. -/
theorem Built.le_origin_of_leavesOpen (h : g.Built code) (hway : g.Way (m :: ns))
    (hleaves : g.LeavesOpen x target (m :: ns)) : m.offset ≤ x.2.origin := by
  obtain ⟨k, hk, hopens⟩ := exists_opens_of_leavesOpen hleaves
  rw [h.origin_of_opens (hway.1 k hk) hopens]
  exact h.le_of_mem_way hway hk

/-- What the end of a way hands on to an offset: what is open at its start and not dropped on the
way, and what is opened on the way and not dropped after that. -/
theorem Built.mem_arrive_way (h : g.Built code) (hway : g.Way (m :: ns))
    (hlast : (m :: ns).getLast? = some n) (hexit : n.isExit = false) :
    x ∈ arrive target (g.execute n (g.blocks n)) ↔
      x ∈ g.blocks m ∧ ¬ g.DropsAlong x target (m :: ns) ∨ g.LeavesOpen x target (m :: ns) := by
  induction ns generalizing m with
  | nil =>
    obtain rfl : m = n := by simpa using hlast
    rw [h.mem_arrive_execute (hway.1 m (by simp)) hexit]
    simp only [DropsAlong, LeavesOpen]
    tauto
  | cons k rest ih =>
    obtain ⟨hhands, hrest⟩ := way_cons_cons.1 hway
    have hm : m ∈ g.nodes := hway.1 m (by simp)
    have hk : k ∈ g.nodes := hway.1 k (by simp)
    have hkexit : k.isExit = false := by
      cases rest with
      | nil =>
        obtain rfl : k = n := by simpa using hlast
        exact hexit
      | cons o rest => exact h.isExit_of_handsOn (way_cons_cons.1 hrest).1
    rw [List.getLast?_cons_cons] at hlast
    -- what is active at the second node is what the first one hands on to it
    rw [ih hrest hlast, h.blocks_of_handsOn hk hkexit hhands,
      h.mem_arrive_execute hm (h.isExit_of_handsOn hhands)]
    simp only [DropsAlong, LeavesOpen]
    tauto

/-- Every node is at the end of a way that starts with nothing open. -/
theorem Built.exists_way (h : g.Built code) (hn : n ∈ g.nodes) (hexit : n.isExit = false) :
    ∃ m ns, g.Way (m :: ns) ∧ (m :: ns).getLast? = some n ∧ g.blocks m = [] := by
  refine h.induction (P := fun n => ∃ m ns, g.Way (m :: ns) ∧ (m :: ns).getLast? = some n ∧
    g.blocks m = []) ?_ hn hexit
  intro n hn hexit ih
  by_cases hhands : ∃ k, g.HandsOn k n
  · obtain ⟨k, hhands⟩ := hhands
    obtain ⟨m, ns, hway, hlast, hstart⟩ :=
      ih k hhands.1 (h.isExit_of_handsOn hhands) (h.offset_lt_of_handsOn hhands)
    refine ⟨m, ns ++ [n], way_append_singleton hway hlast hhands hn, ?_, hstart⟩
    rw [← List.cons_append, List.getLast?_concat]
  · push Not at hhands
    exact ⟨n, [], ⟨by simpa using hn, List.isChain_singleton n⟩, rfl,
      h.blocks_of_no_handsOn hn hexit hhands⟩

/-- What a node hands on to an offset are the scopes that the ways to it open and do not drop. -/
theorem Built.mem_arrive_iff_openOn (h : g.Built code) (hn : n ∈ g.nodes)
    (hexit : n.isExit = false) :
    x ∈ arrive target (g.execute n (g.blocks n)) ↔ g.OpenOn n target x := by
  constructor
  · intro hx
    obtain ⟨m, ns, hway, hlast, hstart⟩ := h.exists_way hn hexit
    rcases (h.mem_arrive_way hway hlast hexit).1 hx with ⟨hx, _⟩ | hleaves
    · simp [hstart] at hx
    · exact ⟨m :: ns, hway, hlast, hleaves⟩
  · intro hopen
    obtain ⟨ns, hway, hlast, hleaves⟩ := hopen
    cases ns with
    | nil => cases hlast
    | cons m rest => exact (h.mem_arrive_way hway hlast hexit).2 (.inr hleaves)

/-- The scopes that are active before a node are those that come in open from another one. -/
theorem Built.mem_blocks_iff_openOn (h : g.Built code) (hn : n ∈ g.nodes)
    (hexit : n.isExit = false) :
    x ∈ g.blocks n ↔ ∃ m, g.HandsOn m n ∧ g.OpenOn m n.offset x := by
  rw [h.mem_blocks_iff hn hexit]
  refine exists_congr fun m => and_congr_right fun hhands => ?_
  exact h.mem_arrive_iff_openOn hhands.1 (h.isExit_of_handsOn hhands)

end Graph

end BytecodeFlow
