import BytecodeFlow.Proofs.Built
import BytecodeFlow.Proofs.CorrespondingGraphs

/-!
# Relabelled code units

Only the order of offsets matters to a construction, not how far apart they are. A code unit whose
offsets are moved by a function that keeps their order has the graph of the old one, moved by the
same function, or fails as it did (`Graph.build_relabel`).
-/

namespace BytecodeFlow

/-! ## Moving offsets -/

/-- The offsets that a code unit names: the entry, those of its instructions, and its jump
targets. -/
def Instruction.named (code : List Instruction) : List Int :=
  Offset.entry :: code.map offset ++ jumpTargets code

/-- The instruction at another offset. A jump goes to where its target is moved. -/
def Instruction.relabel (f : Int → Int) (i : Instruction) : Instruction :=
  { i with
    offset := f i.offset
    argval := match i.jumpTarget with
      | some target => some (f target).toNat
      | none => i.argval }

def Scope.relabel (f : Int → Int) (s : Scope) : Scope :=
  { s with exit := f s.exit, origin := f s.origin }

/-- The scopes have the same ids. -/
def Arena.relabel (f : Int → Int) (a : Arena) : Arena where
  scopes := a.scopes.map (Scope.relabel f)
  parent_lt := by
    intro id s p hs hp
    rw [Array.getElem?_map, Option.map_eq_some_iff] at hs
    obtain ⟨t, ht, rfl⟩ := hs
    exact a.parent_lt ht hp

def PathFacts.relabel (f : Int → Int) (facts : PathFacts) : PathFacts :=
  { facts with continued := facts.continued.map fun x => (x.1, f x.2) }

def Node.relabel (f : Int → Int) (n : Node) : Node where
  offset := f n.offset
  instruction := n.instruction.map (Instruction.relabel f)
  successors := n.successors.map f
  stack := n.stack
  facts := n.facts.relabel f
  outStack := n.outStack
  outFacts := n.outFacts.relabel f

def BuildError.relabel (f : Int → Int) : BuildError → BuildError
  | emptyCode => emptyCode
  | missingEntry first => missingEntry (f first)
  | fallsOffEnd offset opcode => fallsOffEnd (f offset) opcode
  | missingJumpTarget offset opcode => missingJumpTarget (f offset) opcode
  | missingLoop offset opcode => missingLoop (f offset) opcode
  | inconsistentStack offset opcode expected expectedFrom found foundFrom =>
    inconsistentStack (f offset) opcode (expected.map (Scope.relabel f)) (f expectedFrom)
      (found.map (Scope.relabel f)) (f foundFrom)
  | danglingEdge source target => danglingEdge (f source) (f target)

/-- The second graph is the first with its offsets moved, in all that it records. -/
structure Graph.RelabelledTo (f : Int → Int) (g g' : Graph) : Prop where
  nodes : g'.nodes = g.nodes.map (Node.relabel f)
  arena : g'.arena = g.arena.relabel f
  index (b' : Int) (k : Nat) : g'.index[b']? = some k ↔ ∃ b, f b = b' ∧ g.index[b]? = some k
  recorded (b' : Int) (sources' : List Int) : g'.recorded[b']? = some sources' ↔
    ∃ b sources, f b = b' ∧ sources.map f = sources' ∧ g.recorded[b]? = some sources

/-! ## Moved offsets correspond -/

/-- An offset that the code unit names, or the exit, and where it is moved. -/
def Relabels (code : List Instruction) (f : Int → Int) (b b' : Int) : Prop :=
  (b = Offset.exit ∨ b ∈ Instruction.named code) ∧ b' = f b

section Corresponds

variable {code : List Instruction} {f : Int → Int}

theorem nonneg_of_mem_named (hcode : ∀ i ∈ code, 0 ≤ i.offset) {b : Int}
    (hb : b ∈ Instruction.named code) : 0 ≤ b := by
  simp only [Instruction.named, List.cons_append, List.mem_cons, List.mem_append, List.mem_map]
    at hb
  rcases hb with rfl | ⟨i, hi, rfl⟩ | hb
  · exact Int.le_refl 0
  · exact hcode i hi
  · obtain ⟨i, _, hjump⟩ := Instruction.mem_jumpTargets.1 hb
    exact Instruction.jumpTarget_nonneg hjump

theorem correspondence_relabels (hcode : ∀ i ∈ code, 0 ≤ i.offset)
    (hf : ∀ a ∈ Instruction.named code, ∀ b ∈ Instruction.named code, a < b → f a < f b)
    (hrange : ∀ b ∈ Instruction.named code, 0 ≤ f b ∧ f b ≤ Offset.greatest)
    (hentry : f Offset.entry = Offset.entry) (hexit : f Offset.exit = Offset.exit) :
    Offset.Correspondence (Relabels code f) := by
  have hlt {a b : Int} (ha : a = Offset.exit ∨ a ∈ Instruction.named code)
      (hb : b = Offset.exit ∨ b ∈ Instruction.named code) (hab : a < b) : f a < f b := by
    rcases hb with rfl | hb
    · rcases ha with rfl | ha
      · omega
      · have := nonneg_of_mem_named hcode ha
        simp only [Offset.exit] at hab
        omega
    · rcases ha with rfl | ha
      · have := (hrange b hb).1
        rw [hexit, Offset.exit]
        omega
      · exact hf a ha b hb hab
  refine ⟨?_, ⟨.inr (by simp [Instruction.named]), hentry.symm⟩, ⟨.inl rfl, hexit.symm⟩⟩
  rintro a _ b _ ⟨ha, rfl⟩ ⟨hb, rfl⟩
  refine ⟨hlt ha hb, ?_⟩
  intro hlt'
  rcases Int.lt_trichotomy a b with hab | rfl | hba
  · exact hab
  · omega
  · have := hlt hb ha hba
    omega

theorem jumpTarget_relabel {i : Instruction}
    (hrange : ∀ b ∈ i.jumpTarget, 0 ≤ f b ∧ f b ≤ Offset.greatest) :
    (i.relabel f).jumpTarget = i.jumpTarget.map f := by
  cases hj : i.jumpTarget with
  | none =>
    have hsame : i.relabel f = { i with offset := f i.offset } := by simp [Instruction.relabel, hj]
    rw [hsame]
    exact hj
  | some target =>
    have hmoved : i.relabel f = { i with offset := f i.offset, argval := (f target).toNat } := by
      simp [Instruction.relabel, hj]
    obtain ⟨hnonneg, hle⟩ := hrange target hj
    have htarget : Offset.ofNat? (f target).toNat = some (f target) :=
      Offset.ofNat?_eq_some_iff.2 ⟨by omega, by omega⟩
    rw [hmoved]
    simpa [Instruction.jumpTarget, Instruction.hasJumpTarget_of_jumpTarget hj] using htarget

theorem corresponds_relabel
    (hrange : ∀ b ∈ Instruction.named code, 0 ≤ f b ∧ f b ≤ Offset.greatest) :
    List.Forall₂ (Instruction.Corresponds (Relabels code f)) code
      (code.map (Instruction.relabel f)) := by
  rw [List.forall₂_map_right_iff, List.forall₂_same]
  intro i hi
  have hjumps : ∀ b ∈ i.jumpTarget, b ∈ Instruction.named code := by
    intro b hb
    have hb := Instruction.mem_jumpTargets.2 ⟨i, hi, hb⟩
    simp [Instruction.named, hb]
  have htarget := jumpTarget_relabel fun b hb => hrange b (hjumps b hb)
  have hoffset : i.offset ∈ Instruction.named code := by
    simp only [Instruction.named, List.cons_append, List.mem_cons, List.mem_append, List.mem_map]
    exact .inr (.inl ⟨i, hi, rfl⟩)
  refine ⟨rfl, ⟨.inr hoffset, rfl⟩, rfl, rfl, ?_, ?_⟩
  · rw [htarget]
    cases hj : i.jumpTarget with
    | none => exact .none
    | some target => exact .some ⟨.inr (hjumps target hj), rfl⟩
  · intro hj
    simp [Instruction.relabel, hj]

/-! ## What corresponds was moved -/

theorem eq_map_of_rel {α β : Type} {S : α → β → Prop} {g : α → β} (hS : ∀ x y, S x y → y = g x)
    {l : List α} {l' : List β} (h : List.Forall₂ S l l') : l' = l.map g := by
  induction h with
  | nil => rfl
  | cons hxy _ ih => rw [List.map_cons, ← hS _ _ hxy, ih]

theorem eq_option_map_of_rel {α β : Type} {S : α → β → Prop} {g : α → β}
    (hS : ∀ x y, S x y → y = g x) {o : Option α} {o' : Option β} (h : Option.Rel S o o') :
    o' = o.map g := by
  cases h with
  | none => rfl
  | some hxy => rw [Option.map_some, hS _ _ hxy]

theorem eq_map_of_relabels {l l' : List Int} (h : List.Forall₂ (Relabels code f) l l') :
    l' = l.map f :=
  eq_map_of_rel (fun _ _ hx => hx.2) h

theorem Scope.Corresponds.eq_relabel (s s' : Scope) (h : s.Corresponds (Relabels code f) s') :
    s' = s.relabel f := by
  obtain ⟨hkind, hexit, horigin, hparent⟩ := h
  cases s'
  simp_all [Scope.relabel, Relabels]

theorem Arena.Corresponds.eq_relabel {a a' : Arena} (h : a.Corresponds (Relabels code f) a') :
    a' = a.relabel f := by
  ext1
  apply Array.toList_inj.1
  rw [eq_map_of_rel Scope.Corresponds.eq_relabel h, Arena.relabel, Array.toList_map]

theorem PathFacts.Corresponds.eq_relabel {facts facts' : PathFacts}
    (h : facts.Corresponds (Relabels code f) facts') : facts' = facts.relabel f := by
  obtain ⟨hreturned, hraised, hbroken, hcontinued⟩ := h
  have hrestarts := eq_map_of_rel (g := fun x => (x.1, f x.2))
    (fun x y (hx : RestartCorresponds (Relabels code f) x y) => Prod.ext hx.1.symm hx.2.2)
    hcontinued
  cases facts'
  simp_all [PathFacts.relabel]

/-- A jump has its target as its argument. -/
theorem Instruction.argval_of_jumpTarget {i : Instruction} {target : Int}
    (h : i.jumpTarget = some target) : i.argval = some target.toNat := by
  rw [jumpTarget, if_pos (hasJumpTarget_of_jumpTarget h)] at h
  obtain ⟨value, hvalue, hv⟩ := Option.bind_eq_some_iff.1 h
  have := (Offset.ofNat?_eq_some_iff.1 hv).2
  rw [hvalue, Option.some.injEq]
  omega

theorem Instruction.Corresponds.eq_relabel (i i' : Instruction)
    (h : i.Corresponds (Relabels code f) i') : i' = i.relabel f := by
  have hargval : i'.argval = (i.relabel f).argval := by
    cases hj : i.jumpTarget with
    | none => simpa [relabel, hj] using (h.argval hj).symm
    | some target =>
      obtain ⟨target', hj', _, rfl⟩ := exists_of_rel h.jumpTarget hj
      simpa [relabel, hj] using argval_of_jumpTarget hj'
  obtain ⟨hopcode, hoffset, harg, hflag, _, _⟩ := h
  cases i'
  simp_all [relabel, Relabels]

theorem Node.Corresponds.eq_relabel (n n' : Node) (h : n.Corresponds (Relabels code f) n') :
    n' = n.relabel f := by
  obtain ⟨hoffset, hinstruction, hsuccessors, hstack, hfacts, hout, houtFacts⟩ := h
  have hi := eq_option_map_of_rel Instruction.Corresponds.eq_relabel hinstruction
  have hs := eq_map_of_relabels hsuccessors
  have hf := hfacts.eq_relabel
  have hf' := houtFacts.eq_relabel
  cases n'
  simp_all [Node.relabel, Relabels]

theorem BuildError.Corresponds.eq_relabel {e e' : BuildError}
    (h : e.Corresponds (Relabels code f) e') : e' = e.relabel f := by
  cases h with
  | emptyCode => rfl
  | missingEntry first => rw [BuildError.relabel, first.2]
  | fallsOffEnd offset opcode => rw [BuildError.relabel, offset.2]
  | missingJumpTarget offset opcode => rw [BuildError.relabel, offset.2]
  | missingLoop offset opcode => rw [BuildError.relabel, offset.2]
  | inconsistentStack offset opcode expected expectedFrom found foundFrom =>
    rw [BuildError.relabel, offset.2, expectedFrom.2, foundFrom.2,
      eq_map_of_rel Scope.Corresponds.eq_relabel expected,
      eq_map_of_rel Scope.Corresponds.eq_relabel found]
  | danglingEdge source target => rw [BuildError.relabel, source.2, target.2]

end Corresponds

/-- A table that corresponds has the moved entries and no others. -/
theorem TableCorresponds.getElem?_eq_some_iff {code : List Instruction} {f : Int → Int}
    {α β : Type} {S : α → β → Prop} {t : Std.TreeMap Int α} {t' : Std.TreeMap Int β}
    (h : TableCorresponds (Relabels code f) S t t') {g : α → β} (hS : ∀ x y, S x y → y = g x)
    {b' : Int} {y : β} : t'[b']? = some y ↔ ∃ b x, f b = b' ∧ g x = y ∧ t[b]? = some x := by
  constructor
  · intro hy
    have hmem : b' ∈ t' := by rw [Std.TreeMap.mem_iff_isSome_getElem?, hy]; rfl
    obtain ⟨b, hb⟩ := h.right hmem
    have hget := h.get hb
    rw [hy] at hget
    cases hx : t[b]? with
    | none =>
      rw [hx] at hget
      cases hget
    | some x =>
      rw [hx] at hget
      cases hget with
      | some hxy => exact ⟨b, x, hb.2.symm, (hS x y hxy).symm, hx⟩
  · intro hx
    obtain ⟨b, x, rfl, rfl, hx⟩ := hx
    have hmem : b ∈ t := by rw [Std.TreeMap.mem_iff_isSome_getElem?, hx]; rfl
    obtain ⟨b', hb⟩ := h.left hmem
    obtain ⟨y, hy, hxy⟩ := exists_of_rel (h.get hb) hx
    rw [← hb.2, hy, hS x y hxy]

theorem Graph.Corresponds.relabelledTo {code : List Instruction} {f : Int → Int} {g g' : Graph}
    (h : g.Corresponds (Relabels code f) g') : g.RelabelledTo f g' where
  nodes := by
    apply Array.toList_inj.1
    rw [eq_map_of_rel Node.Corresponds.eq_relabel h.nodes, Array.toList_map]
  arena := h.arena.eq_relabel
  index b' k := by
    simpa using h.index.getElem?_eq_some_iff (g := id) (fun _ _ hk => hk.symm)
  recorded b' sources' := by
    exact h.recorded.getElem?_eq_some_iff fun _ _ hsources => eq_map_of_relabels hsources

/-- A construction depends on the order of the offsets only. If a function keeps the order of the
offsets that a code unit names, the entry and the exit, then the code unit with its offsets moved by
it has the same graph with its offsets moved, or fails in the same way at the moved offsets. -/
theorem Graph.build_relabel {code : List Instruction} {f : Int → Int}
    (hcode : ∀ i ∈ code, 0 ≤ i.offset)
    (hf : ∀ a ∈ Instruction.named code, ∀ b ∈ Instruction.named code, a < b → f a < f b)
    (hrange : ∀ b ∈ Instruction.named code, 0 ≤ f b ∧ f b ≤ Offset.greatest)
    (hentry : f Offset.entry = Offset.entry) (hexit : f Offset.exit = Offset.exit) :
    (∀ g, Graph.build code = .ok g →
      ∃ g', Graph.build (code.map (Instruction.relabel f)) = .ok g' ∧ g.RelabelledTo f g') ∧
    ∀ e, Graph.build code = .error e →
      Graph.build (code.map (Instruction.relabel f)) = .error (e.relabel f) := by
  have hR := correspondence_relabels hcode hf hrange hentry hexit
  have hbuilt := build_corresponds hR (corresponds_relabel hrange)
  generalize Graph.build code = x, Graph.build (code.map (Instruction.relabel f)) = x' at hbuilt
  cases hbuilt with
  | @ok g g' hg =>
    refine ⟨?_, fun e he => (by cases he)⟩
    intro g₁ hg₁
    cases hg₁
    exact ⟨g', rfl, hg.relabelledTo⟩
  | error he =>
    refine ⟨fun g hg => (by cases hg), ?_⟩
    intro e₁ he₁
    cases he₁
    rw [he.eq_relabel]

/-- Offsets further and further apart. -/
def Offset.square (offset : Int) : Int := if offset < 0 then offset else offset * offset

/-- The continue is deferred at 16, for the loop from 0 to 400. -/
theorem Graph.build_relabel_continueInFinally :
    ∃ g g', Graph.build Instruction.continueInFinally = .ok g ∧
      Graph.build (Instruction.continueInFinally.map (Instruction.relabel Offset.square)) =
        .ok g' ∧ g.RelabelledTo Offset.square g' := by
  obtain ⟨g, hg, _⟩ := exists_build Instruction.continueInFinally (fun _ => true)
    (by decide +kernel)
  obtain ⟨g', hg', hmoved⟩ := (build_relabel (f := Offset.square) (by decide) (by decide)
    (by decide) rfl rfl).1 g hg
  exact ⟨g, g', hg, hg', hmoved⟩

end BytecodeFlow
