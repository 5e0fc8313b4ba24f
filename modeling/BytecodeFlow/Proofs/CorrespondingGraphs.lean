import BytecodeFlow.Proofs.CorrespondingInstructions
import BytecodeFlow.Graph.Construction

/-!
# Code units that correspond

Two code units correspond if they have corresponding instructions in the same order. Every step of
their constructions does the same up to the offsets (`Construction.Corresponds.advance`), so that
their graphs correspond, or both fail in the same way (`Graph.build_corresponds`).
-/

namespace BytecodeFlow

open BlockStack

variable {R : Int → Int → Prop}

/-! ## Tables -/

/-- The tables have corresponding entries at corresponding offsets, and none elsewhere. -/
structure TableCorresponds {α β : Type} (R : Int → Int → Prop) (S : α → β → Prop)
    (t : Std.TreeMap Int α) (t' : Std.TreeMap Int β) : Prop where
  get {b b' : Int} : R b b' → Option.Rel S t[b]? t'[b']?
  left {b : Int} : b ∈ t → ∃ b', R b b'
  right {b' : Int} : b' ∈ t' → ∃ b, R b b'

section Tables

variable {α β : Type} {S : α → β → Prop} {t : Std.TreeMap Int α} {t' : Std.TreeMap Int β}

theorem tableCorresponds_empty :
    TableCorresponds R S (∅ : Std.TreeMap Int α) (∅ : Std.TreeMap Int β) where
  get _ := by simp
  left h := by simp at h
  right h := by simp at h

theorem TableCorresponds.mem_iff (h : TableCorresponds R S t t') {b b' : Int} (hb : R b b') :
    b ∈ t ↔ b' ∈ t' := by
  rw [Std.TreeMap.mem_iff_isSome_getElem?, Std.TreeMap.mem_iff_isSome_getElem?]
  have hget := h.get hb
  generalize t[b]? = o, t'[b']? = o' at hget
  cases hget <;> simp

theorem TableCorresponds.contains (h : TableCorresponds R S t t') {b b' : Int} (hb : R b b') :
    t.contains b = t'.contains b' := by
  rw [Bool.eq_iff_iff, Std.TreeMap.contains_iff_mem, Std.TreeMap.contains_iff_mem]
  exact h.mem_iff hb

theorem TableCorresponds.insert (h : TableCorresponds R S t t') (hR : Offset.Correspondence R)
    {k k' : Int} (hk : R k k') {x : α} {y : β} (hxy : S x y) :
    TableCorresponds R S (t.insert k x) (t'.insert k' y) where
  get {b b'} hb := by
    rw [Std.TreeMap.getElem?_insert, Std.TreeMap.getElem?_insert]
    simp only [Std.LawfulEqCmp.compare_eq_iff_eq, hR.eq_iff hk hb]
    split
    · exact .some hxy
    · exact h.get hb
  left {b} hb := by
    rw [Std.TreeMap.mem_insert, Std.LawfulEqCmp.compare_eq_iff_eq] at hb
    rcases hb with rfl | hb
    · exact ⟨k', hk⟩
    · exact h.left hb
  right {b'} hb := by
    rw [Std.TreeMap.mem_insert, Std.LawfulEqCmp.compare_eq_iff_eq] at hb
    rcases hb with rfl | hb
    · exact ⟨k, hk⟩
    · exact h.right hb

theorem TableCorresponds.insertIfNew (h : TableCorresponds R S t t')
    (hR : Offset.Correspondence R) {k k' : Int} (hk : R k k') {x : α} {y : β} (hxy : S x y) :
    TableCorresponds R S (t.insertIfNew k x) (t'.insertIfNew k' y) where
  get {b b'} hb := by
    rw [Std.TreeMap.getElem?_insertIfNew, Std.TreeMap.getElem?_insertIfNew]
    simp only [Std.LawfulEqCmp.compare_eq_iff_eq, hR.eq_iff hk hb, h.mem_iff hk]
    split
    · exact .some hxy
    · exact h.get hb
  left {b} hb := by
    rw [Std.TreeMap.mem_insertIfNew, Std.LawfulEqCmp.compare_eq_iff_eq] at hb
    rcases hb with rfl | hb
    · exact ⟨k', hk⟩
    · exact h.left hb
  right {b'} hb := by
    rw [Std.TreeMap.mem_insertIfNew, Std.LawfulEqCmp.compare_eq_iff_eq] at hb
    rcases hb with rfl | hb
    · exact ⟨k, hk⟩
    · exact h.right hb

end Tables

/-- The sets have the same of the offsets that correspond. -/
def SetCorresponds (R : Int → Int → Prop) (t t' : Std.TreeSet Int) : Prop :=
  ∀ b b', R b b' → (b ∈ t ↔ b' ∈ t')

theorem SetCorresponds.insert {t t' : Std.TreeSet Int} (h : SetCorresponds R t t')
    (hR : Offset.Correspondence R) {k k' : Int} (hk : R k k') :
    SetCorresponds R (t.insert k) (t'.insert k') := by
  intro b b' hb
  rw [Std.TreeSet.mem_insert, Std.TreeSet.mem_insert, Std.LawfulEqCmp.compare_eq_iff_eq,
    Std.LawfulEqCmp.compare_eq_iff_eq, hR.eq_iff hk hb, h b b' hb]

theorem SetCorresponds.contains {t t' : Std.TreeSet Int} (h : SetCorresponds R t t') {b b' : Int}
    (hb : R b b') : t.contains b = t'.contains b' := by
  rw [Bool.eq_iff_iff, Std.TreeSet.contains_iff_mem, Std.TreeSet.contains_iff_mem]
  exact h b b' hb

/-! ## Constructions -/

/-- The nodes are of corresponding instructions, with the same at corresponding offsets. -/
structure Node.Corresponds (R : Int → Int → Prop) (n n' : Node) : Prop where
  offset : R n.offset n'.offset
  instruction : Option.Rel (Instruction.Corresponds R) n.instruction n'.instruction
  successors : List.Forall₂ R n.successors n'.successors
  stack : n.stack = n'.stack
  facts : n.facts.Corresponds R n'.facts
  outStack : n.outStack = n'.outStack
  outFacts : n.outFacts.Corresponds R n'.outFacts

theorem Node.corresponds_exit (hR : Offset.Correspondence R) : Node.exit.Corresponds R Node.exit :=
  ⟨hR.exit, .none, .nil, rfl, PathFacts.corresponds_default, rfl, PathFacts.corresponds_default⟩

namespace Construction

/-- The same has been built, at corresponding offsets. -/
structure Corresponds (R : Int → Int → Prop) (c c' : Construction) : Prop where
  nodes : List.Forall₂ (Node.Corresponds R) c.nodes.toList c'.nodes.toList
  index : TableCorresponds R Eq c.index c'.index
  recorded : TableCorresponds R (List.Forall₂ R) c.recorded c'.recorded
  arena : c.arena.Corresponds R c'.arena
  reachable : SetCorresponds R c.reachable c'.reachable
  unreachable : SetCorresponds R c.unreachable c'.unreachable
  handlerEntries : TableCorresponds R Eq c.handlerEntries c'.handlerEntries

theorem corresponds_start (hR : Offset.Correspondence R) : start.Corresponds R start where
  nodes := .nil
  index := tableCorresponds_empty
  recorded := tableCorresponds_empty
  arena := .nil
  reachable := by
    have hnone : SetCorresponds R (∅ : Std.TreeSet Int) ∅ := fun b b' _ => by simp
    exact hnone.insert hR hR.entry
  unreachable := fun b b' _ => by simp [start]
  handlerEntries := tableCorresponds_empty

variable {c c' : Construction} (h : c.Corresponds R c')
include h

/-! ### What a visit reads -/

theorem Corresponds.size : c.nodes.size = c'.nodes.size := by
  simpa using h.nodes.length_eq

theorem Corresponds.node? {b b' : Int} (hb : R b b') :
    Option.Rel (Node.Corresponds R) (c.node? b) (c'.node? b') := by
  have hindex := h.index.get hb
  rw [Construction.node?, Construction.node?]
  generalize c.index[b]? = o, c'.index[b']? = o' at hindex
  cases hindex with
  | none => exact .none
  | @some k k' hk =>
    cases hk
    simpa using rel_getElem? h.nodes k

theorem Corresponds.predecessors {b b' : Int} (hb : R b b') :
    List.Forall₂ R (c.predecessors b) (c'.predecessors b') :=
  rel_option_getD (h.recorded.get hb) .nil

theorem Corresponds.incoming {b b' : Int} (hb : R b b') :
    List.Forall₂ (Node.Corresponds R) (c.incoming b) (c'.incoming b') :=
  List.rel_filterMap (fun _ _ hx => h.node? hx) (h.predecessors hb)

theorem Corresponds.handedOver (hR : Offset.Correspondence R) {n n' : Node}
    (hn : n.Corresponds R n') {b b' : Int} (hb : R b b') :
    c.handedOver n b = c'.handedOver n' b' := by
  rw [Construction.handedOver, Construction.handedOver, ← hn.outStack]
  exact popUntil_eq h.arena n.outStack hR hb

theorem Corresponds.unvisitedStack (hR : Offset.Correspondence R) {b b' : Int} (hb : R b b') :
    c.unvisitedStack b = c'.unvisitedStack b' := by
  have hentry := h.handlerEntries.get hb
  unfold Construction.unvisitedStack
  generalize c.handlerEntries[b]? = o, c'.handlerEntries[b']? = o' at hentry
  cases hentry with
  | none => rfl
  | @some s s' hs =>
    cases hs
    exact popUntil_eq h.arena s hR hb

theorem Corresponds.joinFacts (hR : Offset.Correspondence R) {b b' : Int} (hb : R b b') :
    (c.joinFacts b).Corresponds R (c'.joinFacts b') :=
  PathFacts.corresponds_join hR (List.rel_map (fun _ _ hn => hn.outFacts) (h.incoming hb))

variable {i i' : Instruction} (hi : i.Corresponds R i') (hR : Offset.Correspondence R)
include hi

theorem Corresponds.isLive : c.isLive i = c'.isLive i' := by
  rw [Construction.isLive, Construction.isLive, hi.isJumpTarget, h.reachable.contains hi.offset,
    h.unreachable.contains hi.offset]

include hR

/-- Predecessors agree on the same stack, or corresponding ones disagree. -/
theorem Corresponds.joinStacks :
    ExceptRel (BuildError.Corresponds R) Eq (c.joinStacks i) (c'.joinStacks i') := by
  have hincoming := h.incoming hi.offset
  unfold Construction.joinStacks
  generalize c.incoming i.offset = l, c'.incoming i'.offset = l' at hincoming
  cases hincoming with
  | nil => exact .ok (h.unvisitedStack hR hi.offset)
  | @cons first first' rest rest' hfirst hrest =>
    have hexpected := h.handedOver hR hfirst hi.offset
    -- Stacks are compared as they are, so both sides find the same predecessor to disagree, if any.
    have hother := rel_find? (p := (c.handedOver · i.offset != c.handedOver first i.offset))
      (q := (c'.handedOver · i'.offset != c'.handedOver first' i'.offset))
      (fun n n' hn => by rw [h.handedOver hR hn hi.offset, hexpected]) hrest
    simp only
    generalize rest.find? (c.handedOver · i.offset != c.handedOver first i.offset) = other,
      rest'.find? (c'.handedOver · i'.offset != c'.handedOver first' i'.offset) = other' at hother
    cases hother with
    | none => exact .ok hexpected
    | @some n n' hn =>
      have hscopes (s : BlockStack) := rel_scopes h.arena s
      simp only [← hexpected, ← h.handedOver hR hn hi.offset, ← hi.opcode]
      exact .error (.inconsistentStack hi.offset _ (hscopes _) hfirst.offset (hscopes _) hn.offset)

/-! ### What a visit changes -/

theorem Corresponds.declareHandler (s : BlockStack) :
    (c.declareHandler i s).Corresponds R (c'.declareHandler i' s) := by
  have hjump := hi.jumpTarget
  unfold Construction.declareHandler
  rw [← hi.opcode]
  generalize i.opcode.flow = flow, i.jumpTarget = target, i'.jumpTarget = target' at hjump
  cases hjump with
  | none => cases flow <;> exact h
  | some htarget =>
    cases flow with
    | setup kind => exact { h with handlerEntries := h.handlerEntries.insertIfNew hR htarget rfl }
    | _ => exact h

theorem Corresponds.skip : (c.skip i).Corresponds R (c'.skip i') := by
  have hjump := hi.jumpTarget
  unfold Construction.skip
  generalize i.jumpTarget = target, i'.jumpTarget = target' at hjump
  cases hjump with
  | none => exact h
  | some htarget => exact { h with unreachable := h.unreachable.insert hR htarget }

omit hi in
theorem Corresponds.addEdge {source source' target target' : Int} (hsource : R source source')
    (htarget : R target target') :
    (c.addEdge source target).Corresponds R (c'.addEdge source' target') :=
  { h with
    reachable := h.reachable.insert hR htarget
    recorded := h.recorded.insert hR htarget
      (List.rel_append (h.predecessors htarget) (.cons hsource .nil)) }

omit h hi in
theorem Corresponds.addEdges {c c' : Construction} (h : c.Corresponds R c') {source source' : Int}
    (hsource : R source source') {targets targets' : List Int}
    (htargets : List.Forall₂ R targets targets') :
    (c.addEdges source targets).Corresponds R (c'.addEdges source' targets') :=
  List.rel_foldl (fun _ _ hc _ _ htarget => hc.addEdge hR hsource htarget) h htargets

omit hi in
theorem Corresponds.addNode {n n' : Node} (hn : n.Corresponds R n') :
    (c.addNode n).Corresponds R (c'.addNode n') :=
  { h with
    index := h.index.insert hR hn.offset h.size
    nodes := by
      show List.Forall₂ _ (c.nodes.push n).toList (c'.nodes.push n').toList
      rw [Array.toList_push, Array.toList_push]
      exact List.rel_append h.nodes (.cons hn .nil) }

theorem Corresponds.record {s s' : BlockStack} (hs : s = s') {f f' : PathFacts}
    (hf : f.Corresponds R f') {r r' : Resolution} (hr : r.Corresponds R r') :
    (c.record i s f r).Corresponds R (c'.record i' s' f' r') := by
  have hedges := h.addEdges hR hi.offset hr.successors
  have hnode : Node.Corresponds R ⟨i.offset, some i, r.successors, s, f, r.stack, r.facts⟩
      ⟨i'.offset, some i', r'.successors, s', f', r'.stack, r'.facts⟩ :=
    ⟨hi.offset, .some hi, hr.successors, hs, hf, hr.stack, hr.facts⟩
  have hdone : Corresponds R { c.addEdges i.offset r.successors with arena := r.arena }
      { c'.addEdges i'.offset r'.successors with arena := r'.arena } :=
    { hedges with arena := hr.arena }
  exact hdone.addNode hR hnode

/-! ### Steps and runs -/

/-- The states correspond, and both steps fail or neither. -/
def StepCorresponds (R : Int → Int → Prop) (x x' : Construction × Option BuildError) : Prop :=
  x.1.Corresponds R x'.1 ∧ Option.Rel (BuildError.Corresponds R) x.2 x'.2

theorem Corresponds.visit {next next' : Option Int} (hnext : Option.Rel R next next') :
    StepCorresponds R (c.visit i next) (c'.visit i' next') := by
  have hjoined := h.joinStacks hi hR
  unfold Construction.visit
  generalize c.joinStacks i = joined, c'.joinStacks i' = joined' at hjoined
  cases hjoined with
  | error he => exact ⟨h, .some he⟩
  | @ok s s' hs =>
    cases hs
    have hfacts := h.joinFacts hR hi.offset
    have hresolved := hi.resolve hR h.arena hnext s hfacts
    have hdeclared := h.declareHandler hi hR s
    simp only
    generalize i.resolve c.arena next s (c.joinFacts i.offset) = resolved,
      i'.resolve c'.arena next' s (c'.joinFacts i'.offset) = resolved' at hresolved
    cases hresolved with
    | error he => exact ⟨hdeclared, .some he⟩
    | ok hr => exact ⟨hdeclared.record hi hR rfl hfacts hr, .none⟩

theorem Corresponds.advance {next next' : Option Int} (hnext : Option.Rel R next next') :
    StepCorresponds R (c.advance i next) (c'.advance i' next') := by
  unfold Construction.advance
  rw [← h.isLive hi]
  split
  · exact h.visit hi hR hnext
  · exact ⟨h.skip hi hR, .none⟩

/-- The instructions correspond, and so do the offsets of the next ones. -/
def NextCorresponds (R : Int → Int → Prop) (x x' : Instruction × Option Int) : Prop :=
  x.1.Corresponds R x'.1 ∧ Option.Rel R x.2 x'.2

omit h hi in
theorem Corresponds.run {steps steps' : List (Instruction × Option Int)}
    (hsteps : List.Forall₂ (NextCorresponds R) steps steps') {c c' : Construction}
    (h : c.Corresponds R c') : StepCorresponds R (c.run steps) (c'.run steps') := by
  induction hsteps generalizing c c' with
  | nil => exact ⟨h, .none⟩
  | @cons x x' rest rest' hx _ ih =>
    have hstep := h.advance hx.1 hR hx.2
    rw [Construction.run, Construction.run]
    generalize c.advance x.1 x.2 = y, c'.advance x'.1 x'.2 = y' at hstep
    obtain ⟨d, failure⟩ := y
    obtain ⟨d', failure'⟩ := y'
    obtain ⟨hd, hfailure⟩ := hstep
    cases hfailure with
    | none => exact ih hd
    | some he => exact ⟨hd, .some he⟩

end Construction

theorem Instruction.corresponds_withNext {code code' : List Instruction}
    (h : List.Forall₂ (Instruction.Corresponds R) code code') :
    List.Forall₂ (Construction.NextCorresponds R) (withNext code) (withNext code') := by
  induction h with
  | nil => exact .nil
  | cons hi hrest ih =>
    have hnext := rel_option_map (rel_head? hrest) fun j j' (hj : j.Corresponds R j') => hj.offset
    exact .cons ⟨hi, hnext⟩ ih

namespace Construction

theorem Corresponds.process {c c' : Construction} (h : c.Corresponds R c')
    (hR : Offset.Correspondence R) {code code' : List Instruction}
    (hcode : List.Forall₂ (Instruction.Corresponds R) code code') :
    StepCorresponds R (c.process code) (c'.process code') := by
  have hsteps := Instruction.corresponds_withNext hcode
  unfold Construction.process
  cases hcode with
  | nil => exact ⟨h, .some .emptyCode⟩
  | @cons first first' rest rest' hfirst _ =>
    have hentry := hR.eq_iff hfirst.offset hR.entry
    by_cases ho : first.offset = Offset.entry
    · simpa [ho, hentry.1 ho] using h.run hR hsteps
    · simpa [ho, mt hentry.2 ho] using ⟨h, .some (.missingEntry hfirst.offset)⟩

end Construction

/-! ## Graphs -/

/-- The graphs have the same nodes at corresponding offsets, with the same at them. -/
structure Graph.Corresponds (R : Int → Int → Prop) (g g' : Graph) : Prop where
  nodes : List.Forall₂ (Node.Corresponds R) g.nodes.toList g'.nodes.toList
  index : TableCorresponds R Eq g.index g'.index
  recorded : TableCorresponds R (List.Forall₂ R) g.recorded g'.recorded
  arena : g.arena.Corresponds R g'.arena

theorem Construction.corresponds_danglingEdge? {index index' : Std.TreeMap Int Nat}
    (hindex : TableCorresponds R Eq index index') {nodes nodes' : List Node}
    (hnodes : List.Forall₂ (Node.Corresponds R) nodes nodes') :
    Option.Rel (fun x x' => R x.1 x'.1 ∧ R x.2 x'.2) (danglingEdge? index nodes)
      (danglingEdge? index' nodes') := by
  unfold danglingEdge?
  induction hnodes with
  | nil => exact .none
  | @cons n n' rest rest' hn _ ih =>
    have hfound := rel_find? (p := (!index.contains ·)) (q := (!index'.contains ·))
      (fun b b' hb => by rw [hindex.contains hb]) hn.successors
    rw [List.findSome?_cons, List.findSome?_cons]
    generalize n.successors.find? (!index.contains ·) = o,
      n'.successors.find? (!index'.contains ·) = o' at hfound
    cases hfound with
    | none => exact ih
    | some hb => exact .some ⟨hn.offset, hb⟩

theorem Construction.Corresponds.finish {c c' : Construction} (h : c.Corresponds R c')
    (hR : Offset.Correspondence R) :
    ExceptRel (BuildError.Corresponds R) (Graph.Corresponds R) c.finish c'.finish := by
  have hdone := h.addNode hR (Node.corresponds_exit hR)
  have hdangling := corresponds_danglingEdge? hdone.index hdone.nodes
  unfold Construction.finish
  simp only
  generalize danglingEdge? (c.addNode .exit).index (c.addNode .exit).nodes.toList = o,
    danglingEdge? (c'.addNode .exit).index (c'.addNode .exit).nodes.toList = o' at hdangling
  cases hdangling with
  | none => exact .ok ⟨hdone.nodes, hdone.index, hdone.recorded, hdone.arena⟩
  | some hedge => exact .error (.danglingEdge hedge.1 hedge.2)

/-- Code units that correspond have graphs that correspond, or fail in corresponding ways. -/
theorem Graph.build_corresponds (hR : Offset.Correspondence R) {code code' : List Instruction}
    (hcode : List.Forall₂ (Instruction.Corresponds R) code code') :
    ExceptRel (BuildError.Corresponds R) (Graph.Corresponds R) (Graph.build code)
      (Graph.build code') := by
  have hprocess := (Construction.corresponds_start hR).process hR hcode
  unfold Graph.build
  generalize Construction.start.process code = x, Construction.start.process code' = x' at hprocess
  obtain ⟨c, failure⟩ := x
  obtain ⟨c', failure'⟩ := x'
  obtain ⟨hc, hfailure⟩ := hprocess
  cases hfailure with
  | none => exact hc.finish hR
  | some he => exact .error he

end BytecodeFlow
