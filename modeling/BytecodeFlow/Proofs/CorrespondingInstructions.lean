import BytecodeFlow.Proofs.Correspondence

/-!
# Instructions that correspond

Two instructions correspond if they differ at most in their offsets and jump targets, which
correspond. They do the same to block stacks and facts that correspond
(`Instruction.Corresponds.resolve`): the outcomes correspond, or both lack the same.
-/

namespace BytecodeFlow

open BlockStack Resolution

variable {R : Int → Int → Prop}

/-- The failures are of one kind for one opcode, with corresponding offsets and stacks. -/
inductive BuildError.Corresponds (R : Int → Int → Prop) : BuildError → BuildError → Prop where
  | emptyCode : Corresponds R .emptyCode .emptyCode
  | missingEntry {o o' : Int} (first : R o o') : Corresponds R (.missingEntry o) (.missingEntry o')
  | fallsOffEnd {o o' : Int} (offset : R o o') (opcode : Opcode) :
      Corresponds R (.fallsOffEnd o opcode) (.fallsOffEnd o' opcode)
  | missingJumpTarget {o o' : Int} (offset : R o o') (opcode : Opcode) :
      Corresponds R (.missingJumpTarget o opcode) (.missingJumpTarget o' opcode)
  | missingLoop {o o' : Int} (offset : R o o') (opcode : Opcode) :
      Corresponds R (.missingLoop o opcode) (.missingLoop o' opcode)
  | inconsistentStack {o o' m m' n n' : Int} {l l' k k' : List Scope} (offset : R o o')
      (opcode : Opcode) (expected : List.Forall₂ (Scope.Corresponds R) l l')
      (expectedFrom : R m m') (found : List.Forall₂ (Scope.Corresponds R) k k')
      (foundFrom : R n n') :
      Corresponds R (.inconsistentStack o opcode l m k n) (.inconsistentStack o' opcode l' m' k' n')
  | danglingEdge {o o' t t' : Int} (source : R o o') (target : R t t') :
      Corresponds R (.danglingEdge o t) (.danglingEdge o' t')

/-- The instructions differ at most in their offsets and jump targets, which correspond. -/
structure Instruction.Corresponds (R : Int → Int → Prop) (i i' : Instruction) : Prop where
  opcode : i.opcode = i'.opcode
  offset : R i.offset i'.offset
  arg : i.arg = i'.arg
  isJumpTarget : i.isJumpTarget = i'.isJumpTarget
  jumpTarget : Option.Rel R i.jumpTarget i'.jumpTarget
  argval : i.jumpTarget = none → i.argval = i'.argval

/-! ## What `END_FINALLY` resumes -/

namespace Resolution

/-- The same is resumed, at corresponding targets, and the same stays pending. -/
def ResumedCorresponds (R : Int → Int → Prop) (x x' : List Int × PathFacts) : Prop :=
  List.Forall₂ R x.1 x'.1 ∧ x.2.Corresponds R x'.2

variable {a a' : Arena} {f f' : PathFacts}

theorem corresponds_resumeReturn (hR : Offset.Correspondence R) (ha : a.Corresponds R a')
    (s : BlockStack) {o o' : Int} (ho : R o o') (hf : f.Corresponds R f') :
    ResumedCorresponds R (resumeReturn a s o f) (resumeReturn a' s o' f') := by
  have htarget := rel_returnTarget ha s hR ho
  have hexit : s.returnTarget a o = Offset.exit ↔ s.returnTarget a' o' = Offset.exit :=
    hR.eq_iff htarget hR.exit
  unfold resumeReturn
  rw [← hf.returned]
  cases f.returned with
  | false => exact ⟨.nil, hf⟩
  | true =>
    refine ⟨.cons htarget .nil, ?_⟩
    by_cases hout : s.returnTarget a o = Offset.exit
    · simpa [hout, hexit.1 hout] using hf.clearFlag .returned
    · simpa [hout, mt hexit.2 hout] using hf

theorem corresponds_resumeBreak (loop : Nat) {exit exit' : Int} (hexit : R exit exit')
    {detour detour' : Option Int} (hdetour : Option.Rel R detour detour')
    (hf : f.Corresponds R f') :
    ResumedCorresponds R (resumeBreak loop exit detour f) (resumeBreak loop exit' detour' f') := by
  unfold resumeBreak
  rw [PathFacts.hasBroken, PathFacts.hasBroken, ← hf.broken]
  cases f.broken.contains loop with
  | false => exact ⟨.nil, hf⟩
  | true =>
    cases hdetour with
    | none => exact ⟨.cons hexit .nil, hf.removeBroken loop⟩
    | some handler => exact ⟨.cons handler .nil, hf⟩

theorem corresponds_resumeContinue (loop : Nat) {detour detour' : Option Int}
    (hdetour : Option.Rel R detour detour') (hf : f.Corresponds R f') :
    ResumedCorresponds R (resumeContinue loop detour f) (resumeContinue loop detour' f') := by
  have hrestarts := hf.restarts loop
  unfold resumeContinue
  rw [rel_isEmpty hrestarts]
  cases (f'.restarts loop).isEmpty with
  | true => exact ⟨.nil, hf⟩
  | false =>
    cases hdetour with
    | none => exact ⟨hrestarts, hf.removeContinued loop⟩
    | some handler => exact ⟨.cons handler .nil, hf⟩

theorem corresponds_resumeDeferred (hR : Offset.Correspondence R) (ha : a.Corresponds R a')
    (s : BlockStack) {o o' : Int} (ho : R o o') (hf : f.Corresponds R f') :
    ResumedCorresponds R (resumeDeferred a s o f) (resumeDeferred a' s o' f') := by
  have hreturned := corresponds_resumeReturn hR ha s ho hf
  unfold resumeDeferred
  have hloop := rel_innermostLoop? ha s
  cases hl : s.innermostLoop? a with
  | none =>
    rw [eq_none_of_rel hloop hl]
    exact hreturned
  | some l =>
    obtain ⟨loop, scope⟩ := l
    obtain ⟨⟨loop', scope'⟩, hl', hid, hscope⟩ := exists_of_rel hloop hl
    cases hid
    rw [hl']
    have hdetour := rel_detour? ha s hR ho loop
    have hbroken := corresponds_resumeBreak loop hscope.exit hdetour hreturned.2
    have hcontinued := corresponds_resumeContinue loop hdetour hbroken.2
    exact ⟨List.rel_append (List.rel_append hreturned.1 hbroken.1) hcontinued.1, hcontinued.2⟩

/-! ## One instruction -/

/-- The outcomes are the same up to the offsets. -/
structure Corresponds (R : Int → Int → Prop) (r r' : Resolution) : Prop where
  arena : r.arena.Corresponds R r'.arena
  successors : List.Forall₂ R r.successors r'.successors
  stack : r.stack = r'.stack
  facts : r.facts.Corresponds R r'.facts

variable {i i' : Instruction} (hi : i.Corresponds R i')
include hi

theorem corresponds_fallThrough {next next' : Option Int} (hnext : Option.Rel R next next') :
    ExceptRel (BuildError.Corresponds R) R (fallThrough i next) (fallThrough i' next') := by
  cases hnext with
  | some h => exact .ok h
  | none =>
    rw [fallThrough, fallThrough, hi.opcode]
    exact .error (.fallsOffEnd hi.offset _)

theorem corresponds_jumpTo : ExceptRel (BuildError.Corresponds R) R (jumpTo i) (jumpTo i') := by
  have hjump := hi.jumpTarget
  unfold jumpTo
  cases hj : i.jumpTarget with
  | none =>
    rw [eq_none_of_rel hjump hj, hi.opcode]
    exact .error (.missingJumpTarget hi.offset _)
  | some target =>
    obtain ⟨target', hj', htarget⟩ := exists_of_rel hjump hj
    rw [hj']
    exact .ok htarget

theorem corresponds_enclosingLoop (ha : a.Corresponds R a') (s : BlockStack) :
    ExceptRel (BuildError.Corresponds R) (EntryCorresponds R) (enclosingLoop a s i)
      (enclosingLoop a' s i') := by
  have hloop := rel_innermostLoop? ha s
  unfold enclosingLoop
  cases hl : s.innermostLoop? a with
  | none =>
    rw [eq_none_of_rel hloop hl, hi.opcode]
    exact .error (.missingLoop hi.offset _)
  | some l =>
    obtain ⟨l', hl', hentry⟩ := exists_of_rel hloop hl
    rw [hl']
    exact .ok hentry

end Resolution

/-- An instruction does the same on a stack in a corresponding arena. -/
theorem Instruction.Corresponds.resolve {i i' : Instruction} (hi : i.Corresponds R i')
    (hR : Offset.Correspondence R) {a a' : Arena} (ha : a.Corresponds R a')
    {next next' : Option Int} (hnext : Option.Rel R next next') (s : BlockStack)
    {f f' : PathFacts} (hf : f.Corresponds R f') :
    ExceptRel (BuildError.Corresponds R) (Resolution.Corresponds R) (i.resolve a next s f)
      (i'.resolve a' next' s f') := by
  have hfall := corresponds_fallThrough hi hnext
  have hjump := corresponds_jumpTo hi
  have hloop := corresponds_enclosingLoop hi ha s
  have hhandler := rel_exceptionTarget ha s hR hi.offset
  have hdistinct {l l' : List Int} (h : List.Forall₂ R l l') :
      List.Forall₂ R l.eraseDups l'.eraseDups := rel_eraseDups hR.biUnique h
  unfold Instruction.resolve
  rw [← hi.opcode]
  -- Scopes are named by their positions in the arena, which do not move: the loops and the stacks of
  -- both sides are equal, and only what they say of offsets has to be related.
  cases i.opcode.flow with
  | sequential =>
    refine hfall.bind fun following following' h => .ok ⟨ha, ?_, rfl, hf⟩
    exact hdistinct (.cons h (rel_option_toList hhandler))
  | jump => exact hjump.bind fun target target' h => .ok ⟨ha, .cons h .nil, rfl, hf⟩
  | branch =>
    refine hfall.bind fun following following' h => hjump.bind fun target target' h' => ?_
    exact .ok ⟨ha, hdistinct (.cons h (.cons h' .nil)), rfl, hf⟩
  | breakLoop =>
    refine hloop.bind ?_
    rintro ⟨loop, scope⟩ ⟨loop', scope'⟩ ⟨hid, hscope⟩
    cases hid
    have hdetour := rel_detour? ha s hR hi.offset loop
    dsimp only
    generalize s.detour? a i.offset loop = detour, s.detour? a' i'.offset loop = detour' at hdetour
    cases hdetour with
    | none =>
      refine .ok ⟨ha, .cons hscope.exit .nil, ?_, hf.insertBroken loop⟩
      rw [hscope.parent]
    | some handler => exact .ok ⟨ha, .cons handler .nil, rfl, hf.insertBroken loop⟩
  | continueLoop =>
    refine hjump.bind fun restart restart' hrestart => hloop.bind ?_
    rintro ⟨loop, scope⟩ ⟨loop', scope'⟩ ⟨hid, hscope⟩
    cases hid
    have hdetour := rel_detour? ha s hR hi.offset loop
    dsimp only
    generalize s.detour? a i.offset loop = detour, s.detour? a' i'.offset loop = detour' at hdetour
    cases hdetour with
    | none => exact .ok ⟨ha, .cons hrestart .nil, rfl, hf⟩
    | some handler =>
      exact .ok ⟨ha, .cons handler .nil, rfl, hf.insertContinued hR loop hrestart⟩
  | setup kind =>
    refine hfall.bind fun following following' h => hjump.bind fun exit exit' hexit => ?_
    refine .ok ⟨ha.add kind hexit hi.offset s.top, .cons h .nil, ?_, hf⟩
    show (⟨some a.size⟩ : BlockStack) = ⟨some a'.size⟩
    rw [ha.size]
  | popBlock =>
    refine hfall.bind fun following following' h => .ok ⟨ha, .cons h .nil, ?_, hf⟩
    exact closeLoop_eq ha s
  | popExcept => exact hfall.bind fun following following' h => .ok ⟨ha, .cons h .nil, rfl, hf⟩
  | returnValue =>
    exact .ok ⟨ha, .cons (rel_returnTarget ha s hR hi.offset) .nil, rfl, hf.setFlag .returned⟩
  | raise =>
    have htarget := rel_option_getD hhandler hR.exit
    refine .ok ⟨ha, hdistinct ?_, rfl, hf.setFlag .raised⟩
    exact List.rel_append (rel_option_toList hnext) (.cons htarget .nil)
  | endFinally =>
    have hresumed := corresponds_resumeDeferred hR ha s hi.offset hf
    refine .ok ⟨ha, hdistinct ?_, rfl, hresumed.2⟩
    exact List.rel_append (List.rel_append (rel_option_toList hnext) (rel_option_toList hhandler))
      hresumed.1

end BytecodeFlow
