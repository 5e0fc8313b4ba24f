import BytecodeFlow.Fallible
import BytecodeFlow.Proofs.Blocks
import BytecodeFlow.Proofs.Facts

/-!
# What one instruction can do

`Instruction.Outcome` lists the results of `Instruction.resolve`, with a constructor for each way
to transfer control: an instruction gives a result exactly when it is in the list
(`resolve_eq_ok_iff`). What holds after every instruction is proved from the list by cases.
-/

namespace BytecodeFlow

open BlockStack Blocks Resolution

namespace Instruction

/-- The results of resolving an instruction. Each gives the way control is transferred, what the
instruction needed for it, and the resolution. -/
inductive Outcome (i : Instruction) (a : Arena) (next : Option Int) (s : BlockStack)
    (f : PathFacts) : Resolution → Prop where
  | sequential {following : Int} (flow : i.opcode.flow = .sequential)
      (fall : next = some following) :
      Outcome i a next s f
        ⟨a, ([following] ++ (s.exceptionTarget a i.offset).toList).eraseDups, s, f⟩
  | jump {target : Int} (flow : i.opcode.flow = .jump) (jump : i.jumpTarget = some target) :
      Outcome i a next s f ⟨a, [target], s, f⟩
  | branch {following target : Int} (flow : i.opcode.flow = .branch)
      (fall : next = some following) (jump : i.jumpTarget = some target) :
      Outcome i a next s f ⟨a, [following, target].eraseDups, s, f⟩
  | breakThrough {l : Nat × Scope} {handler : Int} (flow : i.opcode.flow = .breakLoop)
      (loop : s.innermostLoop? a = some l)
      (detour : handler? i.offset (insideLoop (s.toList a)) = some handler) :
      Outcome i a next s f ⟨a, [handler], s, f.insertBroken l.1⟩
  | breakOut {l : Nat × Scope} (flow : i.opcode.flow = .breakLoop)
      (loop : s.innermostLoop? a = some l)
      (direct : handler? i.offset (insideLoop (s.toList a)) = none) :
      Outcome i a next s f ⟨a, [l.2.exit], ⟨l.2.parent⟩, f.insertBroken l.1⟩
  | continueThrough {l : Nat × Scope} {handler restart : Int}
      (flow : i.opcode.flow = .continueLoop) (jump : i.jumpTarget = some restart)
      (loop : s.innermostLoop? a = some l)
      (detour : handler? i.offset (insideLoop (s.toList a)) = some handler) :
      Outcome i a next s f ⟨a, [handler], s, f.insertContinued l.1 restart⟩
  | continueOut {l : Nat × Scope} {restart : Int} (flow : i.opcode.flow = .continueLoop)
      (jump : i.jumpTarget = some restart) (loop : s.innermostLoop? a = some l)
      (direct : handler? i.offset (insideLoop (s.toList a)) = none) :
      Outcome i a next s f ⟨a, [restart], s, f⟩
  | setup {kind : ScopeKind} {following exit : Int} (flow : i.opcode.flow = .setup kind)
      (fall : next = some following) (jump : i.jumpTarget = some exit) :
      Outcome i a next s f
        ⟨(s.push a kind exit i.offset).1, [following], (s.push a kind exit i.offset).2, f⟩
  | popBlock {following : Int} (flow : i.opcode.flow = .popBlock)
      (fall : next = some following) :
      Outcome i a next s f ⟨a, [following], closeLoop a s, f⟩
  | popExcept {following : Int} (flow : i.opcode.flow = .popExcept)
      (fall : next = some following) :
      Outcome i a next s f ⟨a, [following], s, f⟩
  | returnValue (flow : i.opcode.flow = .returnValue) :
      Outcome i a next s f ⟨a, [s.returnTarget a i.offset], s, f.setFlag .returned⟩
  | raise (flow : i.opcode.flow = .raise) :
      Outcome i a next s f
        ⟨a, (next.toList ++ [(s.exceptionTarget a i.offset).getD Offset.exit]).eraseDups, s,
          f.setFlag .raised⟩
  | endFinally (flow : i.opcode.flow = .endFinally) :
      Outcome i a next s f
        ⟨a, (next.toList ++ (s.exceptionTarget a i.offset).toList
            ++ (resumeDeferred a s i.offset f).1).eraseDups, s,
          (resumeDeferred a s i.offset f).2⟩

variable {i : Instruction} {a : Arena} {next : Option Int} {s : BlockStack} {f : PathFacts}
  {r : Resolution}

theorem fallThrough_ok {following : Int} (h : fallThrough i next = .ok following) :
    next = some following := by
  cases next with
  | none => cases h
  | some offset =>
    cases h
    rfl

theorem jumpTo_ok {target : Int} (h : jumpTo i = .ok target) : i.jumpTarget = some target := by
  unfold jumpTo at h
  split at h
  · rename_i found hj
    cases h
    exact hj
  · cases h

theorem enclosingLoop_ok {l : Nat × Scope} (h : enclosingLoop a s i = .ok l) :
    s.innermostLoop? a = some l := by
  unfold enclosingLoop at h
  split at h
  · rename_i found hl
    cases h
    exact hl
  · cases h

/-- Every result of an instruction is in the list. -/
theorem outcome_of_resolve (h : i.resolve a next s f = .ok r) : i.Outcome a next s f r := by
  unfold resolve at h
  split at h
  · rename_i hf
    obtain ⟨following, hn, h⟩ := bind_eq_ok_iff.1 h
    cases h
    exact .sequential hf (fallThrough_ok hn)
  · rename_i hf
    obtain ⟨target, ht, h⟩ := bind_eq_ok_iff.1 h
    cases h
    exact .jump hf (jumpTo_ok ht)
  · rename_i hf
    obtain ⟨following, hn, h⟩ := bind_eq_ok_iff.1 h
    obtain ⟨target, ht, h⟩ := bind_eq_ok_iff.1 h
    cases h
    exact .branch hf (fallThrough_ok hn) (jumpTo_ok ht)
  · rename_i hf
    obtain ⟨l, hl, h⟩ := bind_eq_ok_iff.1 h
    have hl := enclosingLoop_ok hl
    simp only [detour?_eq hl] at h
    split at h
    · rename_i handler hd
      cases h
      exact .breakThrough hf hl hd
    · rename_i hd
      cases h
      exact .breakOut hf hl hd
  · rename_i hf
    obtain ⟨restart, ht, h⟩ := bind_eq_ok_iff.1 h
    obtain ⟨l, hl, h⟩ := bind_eq_ok_iff.1 h
    have hl := enclosingLoop_ok hl
    simp only [detour?_eq hl] at h
    split at h
    · rename_i handler hd
      cases h
      exact .continueThrough hf (jumpTo_ok ht) hl hd
    · rename_i hd
      cases h
      exact .continueOut hf (jumpTo_ok ht) hl hd
  · rename_i kind hf
    obtain ⟨following, hn, h⟩ := bind_eq_ok_iff.1 h
    obtain ⟨exit, ht, h⟩ := bind_eq_ok_iff.1 h
    cases h
    exact .setup hf (fallThrough_ok hn) (jumpTo_ok ht)
  · rename_i hf
    obtain ⟨following, hn, h⟩ := bind_eq_ok_iff.1 h
    cases h
    exact .popBlock hf (fallThrough_ok hn)
  · rename_i hf
    obtain ⟨following, hn, h⟩ := bind_eq_ok_iff.1 h
    cases h
    exact .popExcept hf (fallThrough_ok hn)
  · rename_i hf
    cases h
    exact .returnValue hf
  · rename_i hf
    cases h
    exact .raise hf
  · rename_i hf
    cases h
    exact .endFinally hf

theorem resolve_of_outcome (h : i.Outcome a next s f r) : i.resolve a next s f = .ok r := by
  cases h with
  | sequential flow fall => simp [resolve, flow, fall, fallThrough]
  | jump flow jump => simp [resolve, flow, jump, jumpTo]
  | branch flow fall jump => simp [resolve, flow, fall, jump, fallThrough, jumpTo]
  | breakThrough flow loop detour =>
    simp [resolve, flow, loop, enclosingLoop, detour?_eq loop, detour]
  | breakOut flow loop direct =>
    simp [resolve, flow, loop, enclosingLoop, detour?_eq loop, direct]
  | continueThrough flow jump loop detour =>
    simp [resolve, flow, jump, jumpTo, loop, enclosingLoop, detour?_eq loop, detour]
  | continueOut flow jump loop direct =>
    simp [resolve, flow, jump, jumpTo, loop, enclosingLoop, detour?_eq loop, direct]
  | setup flow fall jump => simp [resolve, flow, fall, jump, fallThrough, jumpTo]
  | popBlock flow fall => simp [resolve, flow, fall, fallThrough]
  | popExcept flow fall => simp [resolve, flow, fall, fallThrough]
  | returnValue flow => simp [resolve, flow]
  | raise flow => simp [resolve, flow]
  | endFinally flow => simp [resolve, flow]

theorem resolve_eq_ok_iff : i.resolve a next s f = .ok r ↔ i.Outcome a next s f r :=
  ⟨outcome_of_resolve, resolve_of_outcome⟩

end Instruction

end BytecodeFlow
