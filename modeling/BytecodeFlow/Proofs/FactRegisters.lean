import BytecodeFlow.Ordered.Search
import BytecodeFlow.PathFacts
import Mathlib.Data.Finset.Basic
import Mathlib.Data.Finset.Dedup

/-!
# Path facts stand for sets

Registers of path facts are changed, united and joined, in any order and any number of times. What
they hold are three sets (`PathFacts.sets`): each operation acts on these as the operation on sets
does, the lists of a register ascend, and registers with equal sets are equal
(`PathFacts.registers_stand_for_sets`). The lists may be kept by binary search: it finds every
member and puts every new one where it belongs.
-/

namespace BytecodeFlow

/-- What can be done to the facts of a path. -/
inductive FactOp where
  | setFlag (flag : PathFacts.Flag)
  | clearFlag (flag : PathFacts.Flag)
  | insertBroken (loop : Nat)
  | removeBroken (loop : Nat)
  | insertContinued (loop : Nat) (restart : Int)
  | removeContinued (loop : Nat)

/-- What can be done to numbered registers. Each changes the first register that it names. -/
inductive RegisterOp where
  | change (target : Nat) (op : FactOp)
  | union (target other : Nat)
  | join (target : Nat) (paths : List Nat)

/-! ## Ways to keep facts -/

/-- A way to keep the facts of a path. -/
structure FactStore (F : Type) where
  nothing : F
  change : F → FactOp → F
  union : F → F → F

namespace FactStore

variable {F G : Type}

/-- The facts of every path together. -/
def join (x : FactStore F) (paths : List F) : F :=
  paths.foldl x.union x.nothing

/-- One operation on registers. -/
def step (x : FactStore F) (m : Nat → F) : RegisterOp → Nat → F
  | .change target op => Function.update m target (x.change (m target) op)
  | .union target other => Function.update m target (x.union (m target) (m other))
  | .join target paths => Function.update m target (x.join (paths.map m))

/-- One operation after another on registers that hold nothing at first. -/
def run (x : FactStore F) (ops : List RegisterOp) : Nat → F :=
  ops.foldl x.step fun _ => x.nothing

/-- What is kept in the two ways is related, whatever is done. -/
structure Simulates (x : FactStore F) (y : FactStore G) (R : F → G → Prop) : Prop where
  nothing : R x.nothing y.nothing
  change {f : F} {g : G} (op : FactOp) : R f g → R (x.change f op) (y.change g op)
  union {f f' : F} {g g' : G} : R f g → R f' g' → R (x.union f f') (y.union g g')

variable {x : FactStore F} {y : FactStore G} {R : F → G → Prop} {m : Nat → F} {n : Nat → G}

theorem Simulates.foldl_union (h : x.Simulates y R) (hm : ∀ k, R (m k) (n k)) (paths : List Nat)
    {f : F} {g : G} (hfg : R f g) :
    R ((paths.map m).foldl x.union f) ((paths.map n).foldl y.union g) := by
  induction paths generalizing f g with
  | nil => exact hfg
  | cons k rest ih => exact ih (h.union hfg (hm k))

theorem Simulates.step (h : x.Simulates y R) (hm : ∀ k, R (m k) (n k)) (op : RegisterOp) (k : Nat) :
    R (x.step m op k) (y.step n op k) := by
  have hupdate {target : Nat} {f : F} {g : G} (hfg : R f g) :
      R (Function.update m target f k) (Function.update n target g k) := by
    by_cases hk : k = target
    · subst hk
      simpa using hfg
    · simpa [hk] using hm k
  cases op with
  | change target op => exact hupdate (h.change op (hm target))
  | union target other => exact hupdate (h.union (hm target) (hm other))
  | join target paths => exact hupdate (h.foldl_union hm paths h.nothing)

theorem Simulates.run (h : x.Simulates y R) (ops : List RegisterOp) (k : Nat) :
    R (x.run ops k) (y.run ops k) := by
  have hfold (m : Nat → F) (n : Nat → G) (hm : ∀ k, R (m k) (n k)) :
      R (ops.foldl x.step m k) (ops.foldl y.step n k) := by
    induction ops generalizing m n with
    | nil => exact hm k
    | cons op rest ih => exact ih _ _ (h.step hm op)
  exact hfold _ _ fun _ => h.nothing

end FactStore

/-! ## Facts as sets -/

/-- The flags that hold, the loops that a break left, and the loops that a continue restarts, each
with the offset to restart at. -/
@[ext] structure FactSets where
  flags : Finset PathFacts.Flag
  broken : Finset Nat
  continued : Finset (Nat × Int)
deriving DecidableEq

/-- Facts kept as sets. -/
def FactSets.store : FactStore FactSets where
  nothing := ⟨∅, ∅, ∅⟩
  change s
    | .setFlag flag => { s with flags := insert flag s.flags }
    | .clearFlag flag => { s with flags := s.flags.erase flag }
    | .insertBroken loop => { s with broken := insert loop s.broken }
    | .removeBroken loop => { s with broken := s.broken.erase loop }
    | .insertContinued loop restart => { s with continued := insert (loop, restart) s.continued }
    | .removeContinued loop => { s with continued := s.continued.filter (·.1 ≠ loop) }
  union s t := ⟨s.flags ∪ t.flags, s.broken ∪ t.broken, s.continued ∪ t.continued⟩

namespace PathFacts

/-- Facts kept in ascending lists. -/
def store : FactStore PathFacts where
  nothing := {}
  change f
    | .setFlag flag => f.setFlag flag
    | .clearFlag flag => f.clearFlag flag
    | .insertBroken loop => f.insertBroken loop
    | .removeBroken loop => f.removeBroken loop
    | .insertContinued loop restart => f.insertContinued loop restart
    | .removeContinued loop => f.removeContinued loop
  union := union

/-- Facts kept in ascending lists by binary search. -/
def searchedStore : FactStore PathFacts where
  nothing := {}
  change f
    | .setFlag flag => f.setFlag flag
    | .clearFlag flag => f.clearFlag flag
    | .insertBroken loop => { f with broken := Ordered.place loopBefore loop f.broken }
    | .removeBroken loop => f.removeBroken loop
    | .insertContinued loop restart =>
      { f with continued := Ordered.place restartBefore (loop, restart) f.continued }
    | .removeContinued loop => f.removeContinued loop
  union f g :=
    { returned := f.returned || g.returned
      raised := f.raised || g.raised
      broken := Ordered.placeAll loopBefore f.broken g.broken
      continued := Ordered.placeAll restartBefore f.continued g.continued }

/-- Looks up by binary search whether a break left the loop. -/
def findsBroken (f : PathFacts) (loop : Nat) : Bool :=
  (Ordered.search loopBefore loop f.broken).isOk

/-- A flag holds. -/
def hasFlag (f : PathFacts) : Flag → Bool
  | .returned => f.returned
  | .raised => f.raised

/-- The sets that path facts stand for. -/
def sets (f : PathFacts) : FactSets where
  flags := ([.returned, .raised].filter f.hasFlag).toFinset
  broken := f.broken.toFinset
  continued := f.continued.toFinset

variable {f g : PathFacts}

theorem mem_flags_sets {flag : Flag} : flag ∈ f.sets.flags ↔ f.hasFlag flag = true := by
  cases flag <;> simp [sets]

@[simp] theorem mem_broken_sets {loop : Nat} : loop ∈ f.sets.broken ↔ loop ∈ f.broken :=
  List.mem_toFinset

@[simp] theorem mem_continued_sets {entry : Nat × Int} :
    entry ∈ f.sets.continued ↔ entry ∈ f.continued :=
  List.mem_toFinset

theorem hasFlag_setFlag {flag other : Flag} :
    (f.setFlag flag).hasFlag other = true ↔ other = flag ∨ f.hasFlag other = true := by
  cases flag <;> cases other <;> simp [setFlag, hasFlag]

theorem hasFlag_clearFlag {flag other : Flag} :
    (f.clearFlag flag).hasFlag other = true ↔ other ≠ flag ∧ f.hasFlag other = true := by
  cases flag <;> cases other <;> simp [clearFlag, hasFlag]

theorem hasFlag_union {flag : Flag} :
    (f.union g).hasFlag flag = true ↔ f.hasFlag flag = true ∨ g.hasFlag flag = true := by
  cases flag <;> simp [union, hasFlag]

/-- Flags of which the same hold are the same. -/
theorem flags_eq_iff {f g : PathFacts} :
    f.sets.flags = g.sets.flags ↔ f.returned = g.returned ∧ f.raised = g.raised := by
  constructor
  · intro h
    have hflag (flag : Flag) : f.hasFlag flag = g.hasFlag flag := by
      rw [Bool.eq_iff_iff, ← mem_flags_sets, h, mem_flags_sets]
    exact ⟨hflag .returned, hflag .raised⟩
  · rintro ⟨hreturned, hraised⟩
    ext flag
    rw [mem_flags_sets, mem_flags_sets]
    cases flag <;> simp [hasFlag, hreturned, hraised]

/-- Ascending lists with the same sets are the same. -/
theorem WellFormed.eq_of_sets_eq (hf : f.WellFormed) (hg : g.WellFormed) (h : f.sets = g.sets) :
    f = g := by
  have hflags := flags_eq_iff.1 (congrArg FactSets.flags h)
  have hbroken : f.broken = g.broken := by
    refine Ordered.eq_of_ascending strictTotal_loopBefore hf.broken hg.broken ?_
    intro loop
    rw [← mem_broken_sets, h, mem_broken_sets]
  have hcontinued : f.continued = g.continued := by
    refine Ordered.eq_of_ascending strictTotal_restartBefore hf.continued hg.continued ?_
    intro entry
    rw [← mem_continued_sets, h, mem_continued_sets]
  cases f
  cases g
  simp_all

/-! ## Lookups -/

theorem WellFormed.findsBroken_iff (h : f.WellFormed) {loop : Nat} :
    f.findsBroken loop = true ↔ loop ∈ f.broken :=
  Ordered.isOk_search_iff strictTotal_loopBefore h.broken

/-- The restarts of one loop are in ascending order. -/
theorem WellFormed.pairwise_restarts (h : f.WellFormed) (loop : Nat) :
    (f.restarts loop).Pairwise (· < ·) := by
  rw [restarts, List.pairwise_map]
  refine (h.continued.filter _).imp_of_mem ?_
  intro x y hx hy hbefore
  have hx : x.1 = loop := by simpa using (List.mem_filter.1 hx).2
  have hy : y.1 = loop := by simpa using (List.mem_filter.1 hy).2
  simpa [restartBefore, hx, hy] using hbefore

/-! ## Refinement -/

/-- Binary search changes nothing, and the lists always ascend. -/
theorem simulates_searchedStore :
    searchedStore.Simulates store fun f g => f = g ∧ g.WellFormed where
  nothing := ⟨rfl, wellFormed_default⟩
  change := by
    rintro f _ op ⟨rfl, h⟩
    cases op with
    | setFlag flag => exact ⟨rfl, h.setFlag flag⟩
    | clearFlag flag => exact ⟨rfl, h.clearFlag flag⟩
    | insertBroken loop =>
      refine ⟨?_, h.insertBroken loop⟩
      simp only [searchedStore, store, insertBroken,
        Ordered.place_eq_insert strictTotal_loopBefore h.broken]
    | removeBroken loop => exact ⟨rfl, h.removeBroken loop⟩
    | insertContinued loop restart =>
      refine ⟨?_, h.insertContinued loop restart⟩
      simp only [searchedStore, store, insertContinued,
        Ordered.place_eq_insert strictTotal_restartBefore h.continued]
    | removeContinued loop => exact ⟨rfl, h.removeContinued loop⟩
  union := by
    rintro f f' _ _ ⟨rfl, h⟩ ⟨rfl, _⟩
    refine ⟨?_, h.union f'⟩
    simp only [searchedStore, store, union,
      Ordered.placeAll_eq_union strictTotal_loopBefore h.broken,
      Ordered.placeAll_eq_union strictTotal_restartBefore h.continued]

/-- Each operation on path facts is the operation on the sets that they stand for. -/
theorem simulates_sets : store.Simulates FactSets.store fun f s => f.sets = s where
  nothing := rfl
  change := by
    rintro f _ op rfl
    cases op with
    | setFlag flag =>
      refine FactSets.ext (Finset.ext fun other => ?_)
        (congrArg List.toFinset (broken_setFlag f flag))
        (congrArg List.toFinset (continued_setFlag f flag))
      exact mem_flags_sets.trans (hasFlag_setFlag.trans (by simp [FactSets.store, mem_flags_sets]))
    | clearFlag flag =>
      refine FactSets.ext (Finset.ext fun other => ?_)
        (congrArg List.toFinset (broken_clearFlag f flag))
        (congrArg List.toFinset (continued_clearFlag f flag))
      exact mem_flags_sets.trans
        (hasFlag_clearFlag.trans (by simp [FactSets.store, mem_flags_sets]))
    | insertBroken loop =>
      refine FactSets.ext rfl (Finset.ext fun l => ?_) rfl
      simp [store, FactSets.store]
    | removeBroken loop =>
      refine FactSets.ext rfl (Finset.ext fun l => ?_) rfl
      simp [store, FactSets.store]
    | insertContinued loop restart =>
      refine FactSets.ext rfl rfl (Finset.ext fun entry => ?_)
      simp [store, FactSets.store]
    | removeContinued loop =>
      refine FactSets.ext rfl rfl (Finset.ext fun entry => ?_)
      simp [store, FactSets.store, and_comm]
  union := by
    rintro f g _ _ rfl rfl
    refine FactSets.ext (Finset.ext fun flag => ?_) (Finset.ext fun loop => ?_)
      (Finset.ext fun entry => ?_)
    · exact mem_flags_sets.trans (hasFlag_union.trans (by simp [FactSets.store, mem_flags_sets]))
    · simp [store, FactSets.store]
    · simp [store, FactSets.store]

/-- Whatever is done to registers of path facts, by binary search or not, they stand for the sets to
which the same is done. Both lists of a register ascend. A lookup finds exactly the members, the
restarts of a loop come in ascending order, and registers are equal if the sets are. -/
theorem registers_stand_for_sets (ops : List RegisterOp) :
    let m := searchedStore.run ops
    m = store.run ops ∧
    (∀ k, (m k).WellFormed ∧ (m k).sets = FactSets.store.run ops k) ∧
    (∀ k loop,
      ((m k).findsBroken loop = true ↔ loop ∈ (m k).sets.broken) ∧
      (m k).hasBroken loop = (m k).findsBroken loop ∧
      ((m k).restarts loop).Pairwise (· < ·) ∧
      ∀ restart, restart ∈ (m k).restarts loop ↔ (loop, restart) ∈ (m k).sets.continued) ∧
    ∀ j k, m j = m k ↔ (m j).sets = (m k).sets := by
  intro m
  have hsame : m = store.run ops := funext fun k => (simulates_searchedStore.run ops k).1
  have hwell (k : Nat) : (m k).WellFormed := by
    rw [hsame]
    exact (simulates_searchedStore.run ops k).2
  refine ⟨hsame, ?_, ?_, ?_⟩
  · intro k
    refine ⟨hwell k, ?_⟩
    rw [hsame]
    exact simulates_sets.run ops k
  · intro k loop
    refine ⟨?_, ?_, (hwell k).pairwise_restarts loop, ?_⟩
    · rw [(hwell k).findsBroken_iff, mem_broken_sets]
    · rw [Bool.eq_iff_iff, (hwell k).findsBroken_iff, hasBroken, List.contains_iff_mem]
    · intro restart
      rw [mem_restarts, mem_continued_sets]
  · intro j k
    exact ⟨congrArg sets, (hwell j).eq_of_sets_eq (hwell k)⟩

/-- A loop that is inserted late goes before the others, and the union holds each of them once. -/
example :
    (searchedStore.run [.change 0 (.insertBroken 5), .change 0 (.insertBroken 2),
      .change 1 (.insertBroken 3), .change 1 (.insertBroken 5), .union 0 1] 0).broken =
        [2, 3, 5] := by
  decide +kernel

end PathFacts

end BytecodeFlow
