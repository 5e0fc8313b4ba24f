import BytecodeFlow.Proofs.Finished
import Mathlib.Data.List.TakeWhile

/-!
# Lookups are in range

While a graph is built, nodes are looked up by offset and position and scopes by id, on the
understanding that they are there. A construction passes over what is not. The functions in `Strict`
make the same lookups at the same places, and give `none` as soon as one is out of range. They
agree with the construction for any code units, whether or not these fail, and with the questions
to a finished graph (`Construction.lookups_in_range`).
-/

namespace BytecodeFlow

open BlockStack Blocks Construction Resolution

/-- What is recorded as a predecessor is a node, and found at its offset. -/
theorem Construction.Coherent.exists_node? {c : Construction} (h : c.Coherent)
    {offset predecessor : Int} (hp : predecessor ∈ c.predecessors offset) :
    ∃ n ∈ c.nodes, n.offset = predecessor ∧ c.node? predecessor = some n := by
  rw [h.predecessors, List.mem_map] at hp
  obtain ⟨m, hm, rfl⟩ := hp
  have hvisited : Visited c.nodes m.offset := ⟨m, by simpa using (List.mem_filter.1 hm).1, rfl⟩
  obtain ⟨k, hlast⟩ := exists_lastAt_iff.2 hvisited
  obtain ⟨n, hn, ho⟩ := hlast.1
  refine ⟨n, Array.mem_of_getElem? hn, ho, ?_⟩
  rw [Construction.node?, (h.index _ k).2 hlast]
  exact hn

namespace Strict

/-! ## Walks along a stack -/

/-- The scope at which a walk outwards stops. Every scope up to there is looked up. -/
def walk (a : Arena) (stop : Nat × Scope → Bool) (s : BlockStack) :
    Option (Option (Nat × Scope)) :=
  match s with
  | ⟨none⟩ => some none
  | ⟨some id⟩ =>
    match _h : a.get? id with
    | none => none
    | some scope =>
      if stop (id, scope) then some (some (id, scope)) else walk a stop ⟨scope.parent⟩
termination_by Arena.rank s.top
decreasing_by exact Arena.rank_parent_lt ‹_›

/-- All scopes of a stack. -/
def scopes (a : Arena) (s : BlockStack) : Option (List Scope) :=
  match s with
  | ⟨none⟩ => some []
  | ⟨some id⟩ =>
    match _h : a.get? id with
    | none => none
    | some scope => (scopes a ⟨scope.parent⟩).map (scope :: ·)
termination_by Arena.rank s.top
decreasing_by exact Arena.rank_parent_lt ‹_›

def popUntil (a : Arena) (offset : Int) (s : BlockStack) : Option BlockStack := do
  let found ← walk a (offset < ·.2.exit) s
  return ⟨found.map (·.1)⟩

def exceptionTarget (a : Arena) (offset : Int) (s : BlockStack) : Option (Option Int) := do
  let found ← walk a (·.2.catches offset) s
  return found.map (·.2.exit)

def returnTarget (a : Arena) (offset : Int) (s : BlockStack) : Option Int := do
  let found ← walk a (·.2.intercepts offset) s
  return (found.map (·.2.exit)).getD Offset.exit

def innermostLoop? (a : Arena) (s : BlockStack) : Option (Option (Nat × Scope)) :=
  walk a (·.2.kind.isLoop) s

/-- The walk also looks up the loop, and stops there. -/
def detour? (a : Arena) (offset : Int) (loop : Nat) (s : BlockStack) : Option (Option Int) := do
  let found ← walk a (fun x => x.1 == loop || x.2.intercepts offset) s
  return found.bind fun x => if x.1 = loop then none else some x.2.exit

def closeLoop (a : Arena) (s : BlockStack) : Option BlockStack := do
  match s.top with
  | none => return s
  | some id =>
    let scope ← a.get? id
    return if scope.kind.isLoop then ⟨scope.parent⟩ else s

/-! ## One instruction -/

/-- A computation that can fail for the reasons of a construction, and by a lookup. -/
abbrev Attempt := ExceptT BuildError Option

section Attempts

variable {α β : Type} (v : α) (g : α → Attempt β)

theorem lookup_bind : ((liftM (some v) : Attempt α) >>= g) = g v := rfl

theorem check_bind : ((liftM (.ok v : Except BuildError α) : Attempt α) >>= g) = g v := rfl

end Attempts

def resumeReturn (a : Arena) (s : BlockStack) (offset : Int) (f : PathFacts) :
    Option (List Int × PathFacts) := do
  if f.returned then
    let target ← returnTarget a offset s
    return ([target], if target = Offset.exit then f.clearFlag .returned else f)
  else
    return ([], f)

def resumeDeferred (a : Arena) (s : BlockStack) (offset : Int) (f : PathFacts) :
    Option (List Int × PathFacts) := do
  let returned ← resumeReturn a s offset f
  match ← innermostLoop? a s with
  | none => return returned
  | some (loop, scope) =>
    let detour ← detour? a offset loop s
    let broken := resumeBreak loop scope.exit detour returned.2
    let continued := resumeContinue loop detour broken.2
    return (returned.1 ++ broken.1 ++ continued.1, continued.2)

def enclosingLoop (a : Arena) (s : BlockStack) (i : Instruction) : Attempt (Nat × Scope) := do
  match ← innermostLoop? a s with
  | some found => return found
  | none => throw (.missingLoop i.offset i.opcode)

def resolve (i : Instruction) (a : Arena) (next : Option Int) (s : BlockStack) (f : PathFacts) :
    Attempt Resolution :=
  match i.opcode.flow with
  | .sequential => do
    let following ← fallThrough i next
    let handler ← exceptionTarget a i.offset s
    return ⟨a, ([following] ++ handler.toList).eraseDups, s, f⟩
  | .jump => do
    let target ← jumpTo i
    return ⟨a, [target], s, f⟩
  | .branch => do
    let following ← fallThrough i next
    let target ← jumpTo i
    return ⟨a, [following, target].eraseDups, s, f⟩
  | .breakLoop => do
    let (loop, _) ← enclosingLoop a s i
    match ← detour? a i.offset loop s with
    | some detour => return ⟨a, [detour], s, f.insertBroken loop⟩
    | none =>
      -- the loop is looked up once more, by its id
      let scope ← a.get? loop
      return ⟨a, [scope.exit], ⟨scope.parent⟩, f.insertBroken loop⟩
  | .continueLoop => do
    let restart ← jumpTo i
    let (loop, _) ← enclosingLoop a s i
    match ← detour? a i.offset loop s with
    | some detour => return ⟨a, [detour], s, f.insertContinued loop restart⟩
    | none => return ⟨a, [restart], s, f⟩
  | .setup kind => do
    let following ← fallThrough i next
    let exit ← jumpTo i
    let (grown, inner) := s.push a kind exit i.offset
    return ⟨grown, [following], inner, f⟩
  | .popBlock => do
    let following ← fallThrough i next
    return ⟨a, [following], ← closeLoop a s, f⟩
  | .popExcept => do
    let following ← fallThrough i next
    return ⟨a, [following], s, f⟩
  | .returnValue => do
    return ⟨a, [← returnTarget a i.offset s], s, f.setFlag .returned⟩
  | .raise => do
    let handler ← exceptionTarget a i.offset s
    return ⟨a, (next.toList ++ [handler.getD Offset.exit]).eraseDups, s, f.setFlag .raised⟩
  | .endFinally => do
    let handler ← exceptionTarget a i.offset s
    let resumed ← resumeDeferred a s i.offset f
    return ⟨a, (next.toList ++ handler.toList ++ resumed.1).eraseDups, s, resumed.2⟩

/-! ## A construction -/

/-- Compares what predecessors hand over with what the first one does, up to the first that
differs. -/
def compare (c : Construction) (i : Instruction) (expected : BlockStack) (expectedFrom : Int) :
    List Int → Attempt BlockStack
  | [] => return expected
  | predecessor :: rest => do
    let n ← c.node? predecessor
    let found ← popUntil c.arena i.offset n.outStack
    if found = expected then compare c i expected expectedFrom rest
    else
      throw (.inconsistentStack i.offset i.opcode (← scopes c.arena expected) expectedFrom
        (← scopes c.arena found) predecessor)

def joinStacks (c : Construction) (i : Instruction) : Attempt BlockStack :=
  match c.predecessors i.offset with
  | [] =>
    match c.handlerEntries[i.offset]? with
    | some s => popUntil c.arena i.offset s
    | none => return .empty
  | first :: rest => do
    let n ← c.node? first
    let expected ← popUntil c.arena i.offset n.outStack
    compare c i expected first rest

def joinFacts (c : Construction) (offset : Int) : Option PathFacts := do
  let incoming ← (c.predecessors offset).mapM c.node?
  return .join (incoming.map (·.outFacts))

def visit (c : Construction) (i : Instruction) (next : Option Int) :
    Option (Construction × Option BuildError) := do
  match ← (joinStacks c i).run with
  | .error e => return (c, some e)
  | .ok s =>
    let f ← joinFacts c i.offset
    match ← (resolve i c.arena next s f).run with
    | .error e => return (c.declareHandler i s, some e)
    | .ok r => return ((c.declareHandler i s).record i s f r, none)

def advance (c : Construction) (i : Instruction) (next : Option Int) :
    Option (Construction × Option BuildError) :=
  if c.isLive i then visit c i next else some (c.skip i, none)

def run (c : Construction) :
    List (Instruction × Option Int) → Option (Construction × Option BuildError)
  | [] => some (c, none)
  | (i, next) :: rest => do
    match ← advance c i next with
    | (c', none) => run c' rest
    | (c', some e) => return (c', some e)

def process (c : Construction) (code : List Instruction) :
    Option (Construction × Option BuildError) :=
  match code with
  | [] => some (c, some .emptyCode)
  | first :: _ =>
    if first.offset = Offset.entry then run c (Instruction.withNext code)
    else some (c, some (.missingEntry first.offset))

def processAll (c : Construction) :
    List (List Instruction) → Option (Construction × List (Option BuildError))
  | [] => some (c, [])
  | code :: rest => do
    let one ← process c code
    let others ← processAll one.1 rest
    return (others.1, one.2 :: others.2)

/-! ## A finished graph -/

/-- The node that the index names, if it names one. -/
def get? (g : Graph) (offset : Int) : Option (Option Node) := do
  match g.index[offset]? with
  | none => return none
  | some position => return some (← g.nodes[position]?)

def renderStack (g : Graph) (n : Node) : Option String := do
  return Scope.renderStack (← scopes g.arena n.stack)

/-! ## Agreement -/

section Walks

variable {s : BlockStack} {a : Arena}

/-- A walk on a stack within the arena finds what is in the list of its scopes. -/
theorem walk_eq (hs : s.Within a) (stop : Nat × Scope → Bool) :
    walk a stop s = some ((s.toList a).find? stop) := by
  induction s using BlockStack.induction (a := a) with
  | none => simp [BlockStack.empty, walk, toList_none]
  | dangling id h =>
    obtain ⟨scope, hscope⟩ := hs.get?
    simp [h] at hscope
  | some id scope h ih =>
    have ih := ih (within_parent h)
    rw [walk, toList_some h, List.find?_cons]
    split
    · rename_i hnone
      simp [h] at hnone
    · rename_i found hfound
      cases h.symm.trans hfound
      cases stop (id, scope) with
      | true => simp
      | false => simpa using ih

theorem scopes_eq (hs : s.Within a) : scopes a s = some (s.scopes a) := by
  induction s using BlockStack.induction (a := a) with
  | none => simp [BlockStack.empty, scopes, BlockStack.scopes, toList_none]
  | dangling id h =>
    obtain ⟨scope, hscope⟩ := hs.get?
    simp [h] at hscope
  | some id scope h ih =>
    have ih := ih (within_parent h)
    rw [scopes, BlockStack.scopes, toList_some h, List.map_cons]
    split
    · rename_i hnone
      simp [h] at hnone
    · rename_i found hfound
      cases h.symm.trans hfound
      rw [ih, Option.map_some, BlockStack.scopes]

theorem popUntil_eq (hs : s.Within a) (offset : Int) :
    popUntil a offset s = some (s.popUntil a offset) := by
  have htop := head?_toList (hs.popUntil offset)
  have hopen : (fun x : Nat × Scope => !decide (offset < x.2.exit)) =
      fun x => decide (x.2.exit ≤ offset) := by
    funext x
    simp only [← decide_not, Int.not_lt]
  rw [toList_popUntil] at htop
  rw [popUntil, walk_eq hs, List.find?_eq_head?_dropWhile_not, hopen]
  exact congrArg (fun top => some (BlockStack.mk top)) htop

theorem exceptionTarget_eq (hs : s.Within a) (offset : Int) :
    exceptionTarget a offset s = some (s.exceptionTarget a offset) := by
  simp [exceptionTarget, walk_eq hs, BlockStack.exceptionTarget_eq]

theorem returnTarget_eq (hs : s.Within a) (offset : Int) :
    returnTarget a offset s = some (s.returnTarget a offset) := by
  simp [returnTarget, walk_eq hs, BlockStack.returnTarget_eq, handler?]

theorem innermostLoop?_eq (hs : s.Within a) :
    innermostLoop? a s = some (s.innermostLoop? a) :=
  walk_eq hs _

/-- The first with one of two properties, unless it has the first of them. -/
theorem detour?_eq (hs : s.Within a) (offset : Int) (loop : Nat) :
    detour? a offset loop s = some (s.detour? a offset loop) := by
  simp only [detour?, walk_eq hs, BlockStack.detour?]
  induction s.toList a with
  | nil => rfl
  | cons x rest ih =>
    by_cases hloop : x.1 = loop
    · simp [hloop]
    · cases hx : x.2.intercepts offset with
      | true => simp [hloop, hx]
      | false => simpa [hloop, hx] using ih

theorem closeLoop_eq (hs : s.Within a) : closeLoop a s = some (Resolution.closeLoop a s) := by
  obtain ⟨top⟩ := s
  cases top with
  | none => rfl
  | some id =>
    obtain ⟨scope, h⟩ := hs.get?
    simp [closeLoop, Resolution.closeLoop, h]

end Walks

/-! ## Agreement of the construction -/

section Instructions

variable {i : Instruction} {a : Arena} {next : Option Int} {s : BlockStack} {f : PathFacts}

theorem resumeReturn_eq (hs : s.Within a) (offset : Int) :
    resumeReturn a s offset f = some (Resolution.resumeReturn a s offset f) := by
  unfold resumeReturn Resolution.resumeReturn
  split
  · rw [returnTarget_eq hs]
    rfl
  · rfl

theorem resumeDeferred_eq (hs : s.Within a) (offset : Int) :
    resumeDeferred a s offset f = some (Resolution.resumeDeferred a s offset f) := by
  unfold resumeDeferred Resolution.resumeDeferred
  rw [resumeReturn_eq hs, innermostLoop?_eq hs]
  cases hloop : s.innermostLoop? a with
  | none => rfl
  | some l =>
    simp only [detour?_eq hs]
    rfl

theorem enclosingLoop_eq (hs : s.Within a) :
    enclosingLoop a s i = liftM (Resolution.enclosingLoop a s i) := by
  unfold enclosingLoop Resolution.enclosingLoop
  rw [innermostLoop?_eq hs]
  cases s.innermostLoop? a with
  | none => rfl
  | some l => rfl

/-- An instruction whose stack lies in the arena looks up nothing out of range. -/
theorem resolve_eq (hs : s.Within a) : resolve i a next s f = liftM (i.resolve a next s f) := by
  unfold resolve Instruction.resolve
  cases i.opcode.flow with
  | sequential =>
    simp only [exceptionTarget_eq hs]
    cases fallThrough i next <;> rfl
  | jump => cases jumpTo i <;> rfl
  | branch =>
    cases fallThrough i next with
    | error e => rfl
    | ok following => cases jumpTo i <;> rfl
  | breakLoop =>
    simp only [enclosingLoop_eq hs, detour?_eq hs]
    cases hloop : Resolution.enclosingLoop a s i with
    | error e => rfl
    | ok l =>
      have hl := Instruction.enclosingLoop_ok hloop
      have hscope : a.get? l.1 = some l.2 := get?_of_mem_toList (List.mem_of_find?_eq_some hl)
      simp only [check_bind, lookup_bind, ok_bind, hscope]
      cases s.detour? a i.offset l.1 <;> rfl
  | continueLoop =>
    simp only [enclosingLoop_eq hs, detour?_eq hs]
    cases jumpTo i with
    | error e => rfl
    | ok restart =>
      cases Resolution.enclosingLoop a s i with
      | error e => rfl
      | ok l =>
        simp only [check_bind, lookup_bind, ok_bind]
        cases s.detour? a i.offset l.1 <;> rfl
  | setup kind =>
    cases fallThrough i next with
    | error e => rfl
    | ok following => cases jumpTo i <;> rfl
  | popBlock =>
    simp only [closeLoop_eq hs]
    cases fallThrough i next <;> rfl
  | popExcept => cases fallThrough i next <;> rfl
  | returnValue =>
    simp only [returnTarget_eq hs]
    rfl
  | raise =>
    simp only [exceptionTarget_eq hs]
    rfl
  | endFinally =>
    simp only [exceptionTarget_eq hs, resumeDeferred_eq hs]
    rfl

end Instructions

section Constructions

variable {c : Construction} {i : Instruction} {next : Option Int}

/-- The comparison finds the first predecessor that hands over another stack. -/
theorem compare_eq (h : c.Coherent) {expected : BlockStack} (hexpected : expected.Within c.arena)
    (expectedFrom : Int) {predecessors : List Int}
    (hp : ∀ p ∈ predecessors, p ∈ c.predecessors i.offset) :
    compare c i expected expectedFrom predecessors = liftM
      (match (predecessors.filterMap c.node?).find? fun n =>
          c.handedOver n i.offset != expected with
      | none => Except.ok expected
      | some other =>
        Except.error (BuildError.inconsistentStack i.offset i.opcode (expected.scopes c.arena) expectedFrom
          ((c.handedOver other i.offset).scopes c.arena) other.offset)) := by
  induction predecessors with
  | nil => rfl
  | cons p rest ih =>
    obtain ⟨n, hn, ho, hnode⟩ := h.exists_node? (hp p (by simp))
    have hout := (h.within n hn).2
    rw [compare, hnode, lookup_bind, popUntil_eq hout, lookup_bind,
      List.filterMap_cons_some hnode, List.find?_cons]
    split
    · rename_i hsame
      have hno : (c.handedOver n i.offset != expected) = false := by
        rw [bne_eq_false_iff_eq]
        exact hsame
      rw [hno]
      exact ih fun q hq => hp q (by simp [hq])
    · rename_i hdiffers
      have hyes : (c.handedOver n i.offset != expected) = true := bne_iff_ne.2 hdiffers
      rw [hyes, scopes_eq hexpected, lookup_bind, scopes_eq (hout.popUntil i.offset),
        lookup_bind, ← ho]
      rfl

theorem joinStacks_eq (h : c.Coherent) (i : Instruction) :
    joinStacks c i = liftM (c.joinStacks i) := by
  unfold joinStacks Construction.joinStacks incoming
  cases hpredecessors : c.predecessors i.offset with
  | nil =>
    show _ = liftM (.ok (c.unvisitedStack i.offset) : Except BuildError BlockStack)
    unfold unvisitedStack
    cases hentry : c.handlerEntries[i.offset]? with
    | none => rfl
    | some s =>
      simp only [popUntil_eq (h.handlers i.offset s hentry)]
      rfl
  | cons first rest =>
    have hmem : ∀ p ∈ first :: rest, p ∈ c.predecessors i.offset := fun p hp => hpredecessors ▸ hp
    obtain ⟨n, hn, ho, hnode⟩ := h.exists_node? (hmem first (by simp))
    have hout := (h.within n hn).2
    rw [List.filterMap_cons_some hnode]
    show (do
      let n ← liftM (c.node? first)
      let expected ← liftM (popUntil c.arena i.offset n.outStack)
      compare c i expected first rest) = _
    rw [hnode, lookup_bind, popUntil_eq hout, lookup_bind, ← ho]
    exact compare_eq h (hout.popUntil i.offset) n.offset fun p hp => hmem p (by simp [hp])

theorem joinFacts_eq (h : c.Coherent) (offset : Int) :
    joinFacts c offset = some (c.joinFacts offset) := by
  have hmapM : ∀ {predecessors : List Int}, (∀ p ∈ predecessors, p ∈ c.predecessors offset) →
      predecessors.mapM c.node? = some (predecessors.filterMap c.node?) := by
    intro predecessors hp
    induction predecessors with
    | nil => rfl
    | cons p rest ih =>
      obtain ⟨n, _, _, hnode⟩ := h.exists_node? (hp p (by simp))
      have ih := ih fun q hq => hp q (by simp [hq])
      simp [List.mapM_cons, hnode, ih]
  rw [joinFacts, hmapM fun _ hp => hp]
  rfl

theorem visit_eq (h : c.Coherent) (i : Instruction) (next : Option Int) :
    visit c i next = some (c.visit i next) := by
  unfold visit Construction.visit
  rw [joinStacks_eq h]
  cases hs : c.joinStacks i with
  | error e => rfl
  | ok s =>
    show (do
      let f ← joinFacts c i.offset
      match ← (resolve i c.arena next s f).run with
      | .error e => return (c.declareHandler i s, some e)
      | .ok r => return ((c.declareHandler i s).record i s f r, none)) = _
    rw [joinFacts_eq h, Option.bind_eq_bind, Option.bind_some, resolve_eq (h.within_joinStacks hs)]
    dsimp only
    cases i.resolve c.arena next s (c.joinFacts i.offset) <;> rfl

theorem advance_eq (h : c.Coherent) (i : Instruction) (next : Option Int) :
    advance c i next = some (c.advance i next) := by
  unfold advance Construction.advance
  rw [visit_eq h]
  split <;> rfl

theorem run_eq (h : c.Coherent) (steps : List (Instruction × Option Int)) :
    run c steps = some (c.run steps) := by
  induction steps generalizing c with
  | nil => rfl
  | cons x rest ih =>
    obtain ⟨i, next⟩ := x
    have hstep := step_advance c i next
    rw [run, Construction.run, advance_eq h]
    cases hadv : c.advance i next with
    | mk c' e =>
      rw [hadv] at hstep
      cases e with
      | none => exact ih (h.step hstep)
      | some e => rfl

theorem process_eq (h : c.Coherent) (code : List Instruction) :
    process c code = some (c.process code) := by
  unfold process Construction.process
  cases code with
  | nil => rfl
  | cons first rest =>
    simp only [run_eq h]
    split <;> rfl

theorem processAll_eq (h : c.Coherent) (batches : List (List Instruction)) :
    processAll c batches = some (c.processAll batches) := by
  induction batches generalizing c with
  | nil => rfl
  | cons code rest ih =>
    have hnext : (c.process code).1.Coherent :=
      process_keeps (fun _ _ _ _ _ hd hstep => hd.step hstep) h code
    rw [processAll, process_eq h]
    show (do let others ← processAll (c.process code).1 rest; _) = _
    rw [ih hnext]
    rfl

end Constructions

section Graphs

variable {g : Graph}

theorem get?_eq (h : g.Finished) (offset : Int) : get? g offset = some (g.get? offset) := by
  unfold get? Graph.get?
  cases hk : g.index[offset]? with
  | none => rfl
  | some k =>
    obtain ⟨⟨n, hn, _⟩, _⟩ := (h.index offset k).1 hk
    simp [hn]

theorem renderStack_eq (h : g.Finished) {n : Node} (hn : n ∈ g.nodes) :
    renderStack g n = some (g.renderStack n) := by
  rw [renderStack, scopes_eq (h.within n hn)]
  rfl

end Graphs

end Strict

/-- Whatever code units a construction is given, in any order and whether or not they fail, no
lookup in it is out of range, nor is one in a graph that it is finished to. -/
theorem Construction.lookups_in_range (batches : List (List Instruction)) :
    Strict.processAll start batches = some (start.processAll batches) ∧
      ∀ g, (start.processAll batches).1.finish = .ok g →
        (∀ offset, Strict.get? g offset = some (g.get? offset)) ∧
          ∀ n ∈ g.nodes, Strict.renderStack g n = some (g.renderStack n) := by
  refine ⟨Strict.processAll_eq coherent_start batches, ?_⟩
  intro g h
  have hg : g.Finished := (coherent_processAll batches).finished h
  exact ⟨Strict.get?_eq hg, fun _ => Strict.renderStack_eq hg⟩

/-- Given a second time, the code unit fails at 2. The graph has the nodes of the first time and
two at 0. -/
theorem Construction.lookups_in_range_continueInFinally :
    let batches := [Instruction.continueInFinally, Instruction.continueInFinally]
    ∃ g n, (start.processAll batches).1.finish = .ok g ∧ g.nodes.size = 9 ∧
      Strict.processAll start batches = some (start.processAll batches) ∧
      Strict.get? g 4 = some (some n) ∧
      Strict.renderStack g n = some "[finally at 2 (exit 8), loop at 0 (exit 20)]" := by
  intro batches
  obtain ⟨g, hg, hp⟩ := exists_ok_of_any
    (fun g : Graph => g.nodes.size = 9 ∧ ∃ n ∈ g.nodes.toList, g.get? 4 = some n ∧
      g.renderStack n = "[finally at 2 (exit 8), loop at 0 (exit 20)]")
    (x := (start.processAll batches).1.finish) (by decide +kernel)
  obtain ⟨hsize, n, hn, hget, hshown⟩ := of_decide_eq_true hp
  obtain ⟨hprocess, hgraph⟩ := lookups_in_range batches
  obtain ⟨hlookup, hrender⟩ := hgraph g hg
  refine ⟨g, n, hg, hsize, hprocess, ?_, ?_⟩
  · rw [hlookup, hget]
  · rw [hrender n (by simpa using hn), hshown]

end BytecodeFlow
