import BytecodeFlow.Graph.Construction
import BytecodeFlow.Proofs.FactRegisters
import BytecodeFlow.Proofs.Facts

/-!
# The join of paths

Facts absorb those of another path if uniting the two changes nothing. Among the facts that the
operations on path facts can make (`PathFacts.Made`) this is an order, since such facts are known by
what holds (`WellFormed.eq_of_holds_iff`), and the join of paths is the least that absorbs each of
them. So it is the same for paths in any order and with any repetition
(`PathFacts.join_depends_on_set`), and what holds at a node does not depend on the order in which
the nodes before it were visited.
-/

namespace BytecodeFlow

namespace PathFacts

/-- The facts that the operations on path facts make out of nothing. -/
inductive Made : PathFacts → Prop where
  | nothing : Made {}
  | change {f : PathFacts} (op : FactOp) (made : Made f) : Made (store.change f op)
  | union {f g : PathFacts} (left : Made f) (right : Made g) : Made (f.union g)

variable {f g : PathFacts} {paths others : List PathFacts}

theorem Made.wellFormed (h : f.Made) : f.WellFormed := by
  induction h with
  | nothing => exact wellFormed_default
  | change op _ ih => exact (simulates_searchedStore.change op ⟨rfl, ih⟩).2
  | union _ _ ih _ => exact ih.union _

theorem made_join (h : ∀ p ∈ paths, p.Made) : (join paths).Made :=
  List.foldlRecOn paths PathFacts.union Made.nothing fun _ hf p hp => hf.union (h p hp)

/-- The lists of a join ascend, whatever the paths are. -/
theorem wellFormed_join (paths : List PathFacts) : (join paths).WellFormed :=
  List.foldlRecOn paths PathFacts.union wellFormed_default fun _ hf p _ => hf.union p

/-- Binary search joins alike. -/
theorem searchedStore_join (h : ∀ p ∈ paths, p.WellFormed) :
    searchedStore.join paths = join paths := by
  have hfold (f : PathFacts) (hf : f.WellFormed) :
      paths.foldl searchedStore.union f = paths.foldl union f := by
    induction paths generalizing f with
    | nil => rfl
    | cons p rest ih =>
      have hunion : searchedStore.union f p = f.union p :=
        (simulates_searchedStore.union ⟨rfl, hf⟩ ⟨rfl, h p (by simp)⟩).1
      rw [List.foldl_cons, List.foldl_cons, hunion]
      exact ih (fun q hq => h q (by simp [hq])) _ (hf.union p)
  exact hfold {} wellFormed_default

/-! ## Facts as a set of single facts -/

/-- Facts are known by what holds. -/
theorem WellFormed.eq_of_holds_iff (hf : f.WellFormed) (hg : g.WellFormed)
    (h : ∀ fact, f.Holds fact ↔ g.Holds fact) : f = g := by
  refine hf.eq_of_sets_eq hg (FactSets.ext ?_ ?_ ?_)
  · exact flags_eq_iff.2 ⟨Bool.eq_iff_iff.2 (h .returned), Bool.eq_iff_iff.2 (h .raised)⟩
  · ext loop
    rw [mem_broken_sets, mem_broken_sets]
    exact h (.broken loop)
  · ext entry
    rw [mem_continued_sets, mem_continued_sets]
    exact h (.continued entry.1 entry.2)

/-- Facts absorb those that hold already. -/
theorem WellFormed.union_eq_left_iff (hf : f.WellFormed) :
    f.union g = f ↔ ∀ fact, g.Holds fact → f.Holds fact := by
  constructor
  · intro h fact hg
    rw [← h]
    exact holds_union.2 (.inr hg)
  · intro h
    refine (hf.union g).eq_of_holds_iff hf fun fact => ?_
    rw [holds_union]
    exact or_iff_left_of_imp (h fact)

/-- Facts that absorb each other are the same. -/
theorem WellFormed.eq_of_absorb (hf : f.WellFormed) (hg : g.WellFormed) (hfg : f.union g = f)
    (hgf : g.union f = g) : f = g :=
  hf.eq_of_holds_iff hg fun fact =>
    ⟨hg.union_eq_left_iff.1 hgf fact, hf.union_eq_left_iff.1 hfg fact⟩

/-- To unite with nothing changes nothing. -/
theorem WellFormed.default_union (hf : f.WellFormed) : PathFacts.union {} f = f := by
  refine (wellFormed_default.union f).eq_of_holds_iff hf fun fact => ?_
  simp [not_holds_default]

theorem union_default (f : PathFacts) : f.union {} = f := by
  simp [union, Ordered.union]

/-! ## The join -/

theorem join_eq_of_mem_iff (h : ∀ f, f ∈ paths ↔ f ∈ others) : join paths = join others := by
  refine (wellFormed_join paths).eq_of_holds_iff (wellFormed_join others) fun fact => ?_
  simp only [holds_join, h]

theorem join_append (paths others : List PathFacts) :
    join (paths ++ others) = (join paths).union (join others) := by
  refine (wellFormed_join _).eq_of_holds_iff ((wellFormed_join paths).union _) fun fact => ?_
  simp only [holds_union, holds_join, List.mem_append, or_and_right, exists_or]

/-- The join absorbs every path. -/
theorem join_union_of_mem (h : f ∈ paths) : (join paths).union f = join paths :=
  (wellFormed_join paths).union_eq_left_iff.2 fun _ hfact => holds_join.2 ⟨f, h, hfact⟩

/-- What absorbs every path absorbs the join. -/
theorem WellFormed.union_join (hg : g.WellFormed) (h : ∀ p ∈ paths, g.union p = g) :
    g.union (PathFacts.join paths) = g := by
  refine hg.union_eq_left_iff.2 fun fact hfact => ?_
  obtain ⟨p, hp, hfact⟩ := holds_join.1 hfact
  exact hg.union_eq_left_iff.1 (h p hp) fact hfact

end PathFacts

namespace Construction

variable {c c' : Construction} {i : Instruction} {next : Option Int}

/-- An instruction that is visited gets a node with the join of the facts that come in. -/
theorem exists_node_of_visit (h : c.visit i next = (c', none)) :
    ∃ n, c'.node? i.offset = some n ∧ n.instruction = some i ∧ n.facts = c.joinFacts i.offset := by
  unfold visit at h
  split at h
  · cases h
  · simp only at h
    split at h
    · cases h
    · cases h
      exact ⟨_, node?_addNode _ _, rfl, rfl⟩

end Construction

namespace PathFacts

/-- The join of paths depends only on which facts are among them, and joining two lists of paths is
uniting their joins. It is the least of the facts that can be made out of nothing and that absorb
every path, and binary search gives the same. What holds at a node is the join of what the nodes
before it hand over, listed in any order and with any repetition. -/
theorem join_depends_on_set :
    (∀ P Q : List PathFacts, (∀ f, f ∈ P ↔ f ∈ Q) → join P = join Q) ∧
    (∀ P Q : List PathFacts, join (P ++ Q) = (join P).union (join Q)) ∧
    (∀ f : PathFacts, f.Made → union {} f = f ∧ f.union {} = f) ∧
    (∀ P : List PathFacts,
      ((∀ p ∈ P, p.Made) → (join P).Made ∧ searchedStore.join P = join P) ∧
      (∀ p ∈ P, (join P).union p = join P) ∧
      ∀ g : PathFacts, g.Made → (∀ p ∈ P, g.union p = g) → g.union (join P) = g) ∧
    (∀ f g : PathFacts, f.Made → g.Made → f.union g = f → g.union f = g → f = g) ∧
    ∀ (c c' : Construction) (i : Instruction) (next : Option Int),
      c.visit i next = (c', none) → ∀ P : List PathFacts,
        (∀ f, f ∈ P ↔ ∃ m ∈ c.incoming i.offset, m.outFacts = f) →
        ∃ n, c'.node? i.offset = some n ∧ n.instruction = some i ∧ n.facts = join P := by
  refine ⟨fun P Q => join_eq_of_mem_iff, join_append, ?_, ?_, ?_, ?_⟩
  · intro f hf
    exact ⟨hf.wellFormed.default_union, union_default f⟩
  · intro P
    refine ⟨fun hP => ⟨made_join hP, ?_⟩, fun p => join_union_of_mem, ?_⟩
    · exact searchedStore_join fun p hp => (hP p hp).wellFormed
    · exact fun g hg => hg.wellFormed.union_join
  · intro f g hf hg
    exact hf.wellFormed.eq_of_absorb hg.wellFormed
  · intro c c' i next hvisit P hP
    obtain ⟨n, hnode, hinstruction, hfacts⟩ := Construction.exists_node_of_visit hvisit
    refine ⟨n, hnode, hinstruction, hfacts.trans (join_eq_of_mem_iff fun f => ?_)⟩
    rw [hP, List.mem_map]

end PathFacts

/-- A break at 6 and a continue at 8 leave a loop through the handler at 12. -/
def Instruction.breakOrContinue : List Instruction :=
  [⟨.setupLoop, 0, some 20, some 20, false⟩, ⟨.setupFinally, 2, some 12, some 12, true⟩,
    ⟨.popJumpIfTrue, 4, some 8, some 8, false⟩, ⟨.breakLoop, 6, none, none, false⟩,
    ⟨.continueLoop, 8, some 2, some 2, true⟩, ⟨.popBlock, 10, none, none, false⟩,
    ⟨.endFinally, 12, none, none, true⟩]

/-- The handler is come to from the break and then from the continue. -/
theorem PathFacts.join_depends_on_set_breakOrContinue :
    let broken : PathFacts := { broken := [0] }
    let continued : PathFacts := { continued := [(0, 2)] }
    let both : PathFacts := { broken := [0], continued := [(0, 2)] }
    let c := (Construction.start.run (Instruction.withNext Instruction.breakOrContinue |>.take 6)).1
    let i : Instruction := ⟨.endFinally, 12, none, none, true⟩
    (c.incoming 12).map (fun n => (n.offset, n.outFacts)) = [(6, broken), (8, continued)] ∧
    join [broken, continued] = join [continued, broken, continued] ∧
    (both.Made ∧ both.union continued = both ∧ both.union broken = both) ∧
    both.union (join [broken, continued]) = both ∧
    ∃ c' n, c.visit i (some 14) = (c', none) ∧ c'.node? 12 = some n ∧
      n.facts = join [continued, broken, continued] := by
  intro broken continued both c i
  obtain ⟨hset, _, _, hleast, _, hnode⟩ := join_depends_on_set
  have hincoming : (c.incoming 12).map (fun n => (n.offset, n.outFacts)) =
      [(6, broken), (8, continued)] := by decide +kernel
  have hmade : both.Made := (Made.nothing.change (.insertBroken 0)).change (.insertContinued 0 2)
  have habsorbs : both.union continued = both ∧ both.union broken = both := by decide
  have hvisit : (c.visit i (some 14)).2 = none := by decide +kernel
  have hhandedOver (f : PathFacts) :
      f ∈ [continued, broken, continued] ↔ ∃ m ∈ c.incoming i.offset, m.outFacts = f := by
    have houtFacts : (c.incoming 12).map (·.outFacts) = [broken, continued] := by
      simpa [Function.comp_def] using congrArg (List.map (·.2)) hincoming
    rw [← List.mem_map, houtFacts]
    simp [or_comm]
  obtain ⟨n, hn, _, hfacts⟩ := hnode c _ i (some 14) (Prod.ext rfl hvisit) _ hhandedOver
  refine ⟨hincoming, hset _ _ (by simp [or_comm]), ⟨hmade, habsorbs⟩, ?_, _, n, Prod.ext rfl hvisit,
    hn, hfacts⟩
  exact (hleast [broken, continued]).2.2 both hmade (by simp [habsorbs])

end BytecodeFlow
