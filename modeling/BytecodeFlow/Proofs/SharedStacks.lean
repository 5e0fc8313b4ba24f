import BytecodeFlow.Proofs.Growth

/-!
# Shared stacks are independent lists

All stacks over one arena share its scopes. They can still be thought of as lists that have nothing
to do with each other: whatever is done to any of the stacks at hand, in any order, the stacks read
as the lists to which the same is done (`BlockStack.shared_stacks_refine_lists`). A stack that was
obtained once reads the same from then on.
-/

namespace BytecodeFlow

open BlockStack

/-! ## Reading a stack -/

/-- Going from scope to scope by the parents, from a top to the outermost scope, meets these. -/
inductive Arena.Meets (a : Arena) : Option Nat → List (Nat × Scope) → Prop
  | outside : a.Meets none []
  | scope {id : Nat} {scope : Scope} {rest : List (Nat × Scope)} (found : a.get? id = some scope)
      (outer : a.Meets scope.parent rest) : a.Meets (some id) ((id, scope) :: rest)

/-- What a stack answers is what there is to say about a list. -/
structure BlockStack.Reads (s : BlockStack) (a : Arena) (l : List (Nat × Scope)) : Prop where
  meets : a.Meets s.top l
  top : s.top = l.head?.map (·.1)
  isEmpty : s.isEmpty = l.isEmpty
  depth : s.depth a = l.length
  peek (k : Nat) (x : Nat × Scope) : l[k]? = some x → s.peek a k = .ok x.2
  peekTooFar (k : Nat) : l.length ≤ k → s.peek a k = .error (.stackIndexOutOfRange k l.length)

namespace BlockStack

variable {s : BlockStack} {a : Arena}

theorem meets_toList (hs : s.Within a) : a.Meets s.top (s.toList a) := by
  induction s using induction (a := a) with
  | none =>
    rw [toList_empty]
    exact .outside
  | dangling id h =>
    obtain ⟨scope, hscope⟩ := hs.get?
    simp [h] at hscope
  | some id scope h ih =>
    rw [toList_some h]
    exact .scope h (ih (within_parent h))

theorem top_eq_of_meets {top : Option Nat} {l : List (Nat × Scope)} (h : a.Meets top l) :
    top = l.head?.map (·.1) := by
  cases h with
  | outside => rfl
  | scope found outer => rfl

theorem reads_toList (hs : s.Within a) : s.Reads a (s.toList a) where
  meets := meets_toList hs
  top := top_eq_of_meets (meets_toList hs)
  isEmpty := by
    rw [isEmpty, top_eq_of_meets (meets_toList hs)]
    cases s.toList a <;> rfl
  depth := rfl
  peek k x h := by simp [peek, scopes, h]
  peekTooFar k h := by
    have hnone : (s.toList a)[k]? = none := List.getElem?_eq_none h
    simp [peek, scopes, hnone, depth]

end BlockStack

/-! ## Operations on one stack -/

/-- What can be done to a stack. -/
inductive StackOp where
  | push (kind : ScopeKind) (exit origin : Int)
  | pop
  | popUntil (offset : Int)

namespace StackOp

/-- On a stack over an arena. -/
def onShared (a : Arena) (s : BlockStack) : StackOp → Except LookupError (Arena × BlockStack)
  | push kind exit origin => .ok (s.push a kind exit origin)
  | pop => (s.pop a).map (a, ·)
  | popUntil offset => .ok (a, s.popUntil a offset)

/-- On a list, with the number of scopes created so far, which is the id of the next one. -/
def onList (created : Nat) (l : List (Nat × Scope)) :
    StackOp → Except LookupError (Nat × List (Nat × Scope))
  | push kind exit origin =>
    .ok (created + 1, (created, ⟨kind, exit, origin, l.head?.map (·.1)⟩) :: l)
  | pop =>
    match l with
    | [] => .error .emptyStack
    | _ :: rest => .ok (created, rest)
  | popUntil offset => .ok (created, l.dropWhile fun x => x.2.exit ≤ offset)

variable {s t : BlockStack} {a b : Arena} {op : StackOp}

/-- The operation on a stack reads as the operation on its list. -/
theorem onList_toList (hs : s.Within a) :
    op.onList a.size (s.toList a) = (op.onShared a s).map fun x => (x.1.size, x.2.toList x.1) := by
  have htop := top_eq_of_meets (meets_toList hs)
  cases op with
  | push kind exit origin =>
    rw [onShared, Except.map, toList_push hs, BlockStack.push, Arena.size_add, onList, ← htop]
  | pop =>
    obtain ⟨top⟩ := s
    cases top with
    | none => rw [toList_none]; rfl
    | some id =>
      obtain ⟨scope, h⟩ := hs.get?
      rw [toList_some h]
      simp [onList, onShared, BlockStack.pop, h, Except.map]
  | popUntil offset => rw [onShared, Except.map, toList_popUntil, onList]

/-- The operation leaves all scopes of the arena, and a stack within it. -/
theorem within_onShared (hs : s.Within a) (h : op.onShared a s = .ok (b, t)) :
    a.GrowsTo b ∧ t.Within b := by
  cases op with
  | push kind exit origin =>
    cases h
    refine ⟨Arena.growsTo_add a kind exit origin s.top, ?_⟩
    rintro id ⟨⟩
    simp
  | pop =>
    obtain ⟨top⟩ := s
    cases top with
    | none => cases h
    | some id =>
      obtain ⟨scope, hscope⟩ := hs.get?
      simp only [onShared, BlockStack.pop, Option.bind_some, hscope, Except.map] at h
      cases h
      exact ⟨.refl a, within_parent hscope⟩
  | popUntil offset =>
    cases h
    exact ⟨.refl a, hs.popUntil offset⟩

end StackOp

/-! ## Sessions -/

/-- A store with the stacks obtained over it so far. -/
structure Session (Store Stack : Type) where
  store : Store
  obtained : List Stack

namespace Session

section Generic

variable {Store Stack : Type} (apply : Store → Stack → StackOp → Except LookupError (Store × Stack))

/-- Does one thing to the stack of a number. That stack stays, and the result is a further one. A
failure changes nothing. -/
def step (x : Session Store Stack) (source : Nat) (op : StackOp) :
    Session Store Stack × Option LookupError :=
  match x.obtained[source]? with
  | none => (x, none)
  | some s =>
    match apply x.store s op with
    | .ok (store, t) => (⟨store, x.obtained ++ [t]⟩, none)
    | .error e => (x, some e)

/-- Does one thing after another, and gives the failure of each. -/
def run (x : Session Store Stack) :
    List (Nat × StackOp) → Session Store Stack × List (Option LookupError)
  | [] => (x, [])
  | (source, op) :: rest =>
    let one := x.step apply source op
    let others := run one.1 rest
    (others.1, one.2 :: others.2)

end Generic

/-- The session over an arena with the stacks read as lists. -/
def read (x : Session Arena BlockStack) : Session Nat (List (Nat × Scope)) :=
  ⟨x.store.size, x.obtained.map (·.toList x.store)⟩

/-- All stacks lie in the arena. -/
def Within (x : Session Arena BlockStack) : Prop := ∀ s ∈ x.obtained, s.Within x.store

/-- Stacks and scopes stay at their places. -/
structure GrowsTo (x y : Session Arena BlockStack) : Prop where
  obtained : x.obtained <+: y.obtained
  store : x.store.GrowsTo y.store

variable {x y z : Session Arena BlockStack}

theorem GrowsTo.refl (x : Session Arena BlockStack) : x.GrowsTo x := ⟨List.prefix_rfl, .refl _⟩

theorem GrowsTo.trans (hxy : x.GrowsTo y) (hyz : y.GrowsTo z) : x.GrowsTo z :=
  ⟨hxy.obtained.trans hyz.obtained, hxy.store.trans hyz.store⟩

/-- A stack reads the same from then on. -/
theorem GrowsTo.toList_eq (h : x.GrowsTo y) (hx : x.Within) {s : BlockStack} (hs : s ∈ x.obtained) :
    s.toList y.store = s.toList x.store :=
  toList_of_growsTo (hx s hs) h.store

section Steps

variable (h : x.Within) (source : Nat) (op : StackOp)
include h

theorem growsTo_step :
    (x.step StackOp.onShared source op).1.Within ∧
      x.GrowsTo (x.step StackOp.onShared source op).1 := by
  unfold step
  split
  · exact ⟨h, .refl x⟩
  · rename_i s hs
    split
    · rename_i b t hop
      obtain ⟨hgrows, ht⟩ := StackOp.within_onShared (h s (List.mem_of_getElem? hs)) hop
      refine ⟨?_, List.prefix_append _ _, hgrows⟩
      intro u hu
      rcases List.mem_append.1 hu with hu | hu
      · exact (h u hu).mono hgrows
      · cases List.mem_singleton.1 hu
        exact ht
    · exact ⟨h, .refl x⟩

/-- A step on the stacks reads as the step on the lists. -/
theorem step_read :
    x.read.step StackOp.onList source op =
      ((x.step StackOp.onShared source op).1.read, (x.step StackOp.onShared source op).2) := by
  unfold step
  rw [read, List.getElem?_map]
  cases hs : x.obtained[source]? with
  | none => rfl
  | some s =>
    have hwithin := h s (List.mem_of_getElem? hs)
    simp only [Option.map_some, StackOp.onList_toList hwithin]
    cases hop : op.onShared x.store s with
    | error e => rfl
    | ok result =>
      -- the stacks from before read the same over the new arena
      have hgrows := (StackOp.within_onShared hwithin hop).1
      have hsame : x.obtained.map (·.toList result.1) = x.obtained.map (·.toList x.store) := by
        refine List.map_congr_left ?_
        intro u hu
        exact toList_of_growsTo (h u hu) hgrows
      simp [Except.map, read, hsame]

end Steps

theorem growsTo_run (h : x.Within) (ops : List (Nat × StackOp)) :
    (x.run StackOp.onShared ops).1.Within ∧ x.GrowsTo (x.run StackOp.onShared ops).1 := by
  induction ops generalizing x with
  | nil => exact ⟨h, .refl x⟩
  | cons o rest ih =>
    obtain ⟨hwithin, hgrows⟩ := growsTo_step h o.1 o.2
    obtain ⟨hlast, hrest⟩ := ih hwithin
    exact ⟨hlast, hgrows.trans hrest⟩

/-- A run on the stacks reads as the run on the lists. -/
theorem run_read (h : x.Within) (ops : List (Nat × StackOp)) :
    x.read.run StackOp.onList ops =
      ((x.run StackOp.onShared ops).1.read, (x.run StackOp.onShared ops).2) := by
  induction ops generalizing x with
  | nil => rfl
  | cons o rest ih =>
    have ih := ih (growsTo_step h o.1 o.2).1
    simp only [run, step_read h, ih]

/-- One empty stack over an empty arena. -/
def shared : Session Arena BlockStack := ⟨.empty, [.empty]⟩

/-- One empty list. -/
def lists : Session Nat (List (Nat × Scope)) := ⟨0, [[]]⟩

theorem read_shared : shared.read = lists := by
  simp [read, shared, lists]

theorem within_shared : shared.Within := by
  intro s hs
  cases List.mem_singleton.1 hs
  exact within_empty _

end Session

/-- Whatever is done to the stacks over one arena, in any order, they read as the lists to which the
same is done, and the same operations fail. What they answer is what there is to say about these
lists. Whatever is done after that, every stack stays and reads the same, and reads as any stack
with the same top. -/
theorem BlockStack.shared_stacks_refine_lists (ops : List (Nat × StackOp)) :
    let x := (Session.shared.run StackOp.onShared ops).1
    (x.read, (Session.shared.run StackOp.onShared ops).2) = Session.lists.run StackOp.onList ops ∧
    (∀ s ∈ x.obtained, s.Reads x.store (s.toList x.store)) ∧
    ∀ more, let y := (x.run StackOp.onShared more).1
      x.obtained <+: y.obtained ∧
      (∀ s ∈ x.obtained, s.toList y.store = s.toList x.store) ∧
      ∀ s ∈ x.obtained, ∀ t ∈ y.obtained, s.top = t.top → t.toList y.store = s.toList x.store := by
  intro x
  have hx : x.Within := (Session.growsTo_run Session.within_shared ops).1
  refine ⟨?_, fun s hs => reads_toList (hx s hs), ?_⟩
  · rw [← Session.read_shared]
    exact (Session.run_read Session.within_shared ops).symm
  · intro more y
    have hgrows : x.GrowsTo y := (Session.growsTo_run hx more).2
    refine ⟨hgrows.obtained, fun s => hgrows.toList_eq hx, ?_⟩
    rintro ⟨top⟩ hs ⟨_⟩ _ rfl
    exact hgrows.toList_eq hx hs

/-- A loop with two blocks in it, one after the other. The first block is left at 30, and the empty
stack is popped in between. -/
def StackOp.twoBlocks : List (Nat × StackOp) :=
  [(0, .push .loopBlock 44 0), (1, .push .finallyBlock 30 14), (0, .pop), (2, .popUntil 30),
    (3, .push .exceptBlock 40 32)]

/-- The stack in the first block reads the same whatever comes after. -/
theorem BlockStack.shared_stacks_refine_lists_twoBlocks :
    let x := (Session.shared.run StackOp.onShared StackOp.twoBlocks).1
    let loop : Nat × Scope := (0, ⟨.loopBlock, 44, 0, none⟩)
    let first : Nat × Scope := (1, ⟨.finallyBlock, 30, 14, some 0⟩)
    let second : Nat × Scope := (2, ⟨.exceptBlock, 40, 32, some 0⟩)
    (Session.shared.run StackOp.onShared StackOp.twoBlocks).2 =
        [none, none, some .emptyStack, none, none] ∧
      x.read = ⟨3, [[], [loop], [first, loop], [loop], [second, loop]]⟩ ∧
      x.obtained[2]? = some ⟨some 1⟩ ∧ BlockStack.peek ⟨some 1⟩ x.store 1 = .ok loop.2 ∧
      ∀ more, BlockStack.toList ⟨some 1⟩ (x.run StackOp.onShared more).1.store = [first, loop] := by
  intro x loop first second
  obtain ⟨hlists, hreads, hlater⟩ := shared_stacks_refine_lists StackOp.twoBlocks
  obtain ⟨hread, hfailures⟩ := Prod.mk.inj (hlists.trans (by rfl))
  have hstack : x.obtained[2]? = some ⟨some 1⟩ := by decide +kernel
  have hmem := List.mem_of_getElem? hstack
  have hlist : BlockStack.toList ⟨some 1⟩ x.store = [first, loop] := by decide +kernel
  refine ⟨hfailures, hread, hstack, ?_, ?_⟩
  · exact (hreads _ hmem).peek 1 loop (by rw [hlist]; rfl)
  · intro more
    rw [(hlater more).2.1 _ hmem, hlist]

end BytecodeFlow
