import BytecodeFlow.Proofs.AppendOnly
import BytecodeFlow.Proofs.Lines

/-!
# Graphs of listings

What the reader of a listing checks is what the builder of a graph relies on: the instructions of a
listing are in order and in range, with their jump targets flagged (`Instruction.Checked`). A code
unit can be refused only for a few reasons (`Graph.Refused`), and those that concern one
instruction can be traced back to its line (`Graph.build_of_parse`).
-/

namespace BytecodeFlow

open Construction Text Listing

/-! ## Why a graph is not built -/

/-- The failures of a code unit: for where it starts, for what an instruction lacks, for
predecessors that disagree, and for an edge to nowhere. -/
inductive Graph.Refused (code : List Instruction) : BuildError → Prop where
  | empty (h : code = []) : Refused code .emptyCode
  | entry {first : Instruction} {rest : List Instruction} (h : code = first :: rest)
      (away : first.offset ≠ Offset.entry) : Refused code (.missingEntry first.offset)
  | lacks {i : Instruction} {next : Option Int} {stack : List (Nat × Scope)} {e : BuildError}
      (mem : i ∈ code) (lacks : i.Lacks next stack e) : Refused code e
  | disagreement {i : Instruction} {expected found : List Scope} {expectedFrom foundFrom : Int}
      (mem : i ∈ code) : Refused code
        (.inconsistentStack i.offset i.opcode expected expectedFrom found foundFrom)
  | dangling {source target : Int} : Refused code (.danglingEdge source target)

namespace Construction

variable {c c' : Construction} {code : List Instruction} {i : Instruction} {next : Option Int}
  {e : BuildError}

theorem Step.refused (hi : i ∈ code) (h : Step c i next (c', some e)) : Graph.Refused code e := by
  cases h with
  | disagreed live joined =>
    obtain ⟨m, n, _, _, rfl⟩ := joinStacks_eq_error_iff.1 joined
    exact .disagreement hi
  | unresolved live joined resolved =>
    exact .lacks hi (Instruction.resolve_eq_error_iff.1 resolved)

theorem refused_of_process (h : (c.process code).2 = some e) : Graph.Refused code e := by
  rcases process_eq_some_cases h with ⟨_, hstart⟩ | hrun
  · rcases hstart with ⟨hempty, rfl⟩ | ⟨first, rest, hcode, hentry, rfl⟩
    · exact .empty hempty
    · exact .entry hcode hentry
  · rw [hrun] at h
    obtain ⟨k, i, next, d, hk, _, hadvance⟩ := exists_of_run_eq_some h
    have hstep := step_advance d i next
    have hresult : d.advance i next = ((d.advance i next).1, some e) :=
      Prod.ext rfl (by rw [hadvance, h])
    rw [hresult] at hstep
    exact hstep.refused (Instruction.mem_of_mem_withNext (List.mem_of_getElem? hk))

end Construction

namespace Graph

variable {code : List Instruction} {e : BuildError}

theorem refused_of_build (h : build code = .error e) : Refused code e := by
  unfold build at h
  split at h
  · obtain ⟨source, target, _, rfl⟩ := finish_eq_error_iff_danglingEdge?.1 h
    exact .dangling
  · rename_i c e' hc
    cases h
    exact refused_of_process (by rw [hc])

theorem build_emptyCode_iff : build code = .error .emptyCode ↔ code = [] := by
  constructor
  · intro h
    cases refused_of_build h with
    | empty hcode => exact hcode
    | lacks _ hlacks => cases hlacks
  · intro h
    subst h
    rfl

/-- The entry is missing exactly if the first instruction is elsewhere, and the failure tells
where. -/
theorem build_missingEntry_iff {offset : Int} :
    build code = .error (.missingEntry offset) ↔
      (code.head?.map Instruction.offset = some offset ∧ offset ≠ Offset.entry) := by
  constructor
  · intro h
    cases refused_of_build h with
    | entry hcode haway => exact ⟨by simp [hcode], haway⟩
    | lacks _ hlacks => cases hlacks
  · intro h
    obtain ⟨hhead, haway⟩ := h
    cases code with
    | nil => cases hhead
    | cons first rest =>
      cases hhead
      simp [build, process, haway]

/-- Only an instruction without a target misses one. -/
theorem lacksTarget_of_build {offset : Int} {opcode : Opcode}
    (h : build code = .error (.missingJumpTarget offset opcode)) :
    ∃ i ∈ code, i.offset = offset ∧ i.opcode = opcode ∧ i.LacksTarget := by
  cases refused_of_build h with
  | lacks hi hlacks =>
    cases hlacks with
    | jumpTarget _ hlacks => exact ⟨_, hi, rfl, rfl, hlacks⟩

end Graph

/-! ## Listings -/

/-- What the reader of a listing checks, and the flags that it sets. -/
structure Instruction.Checked (code : List Instruction) : Prop where
  ascending : Ascending code
  inRange (i : Instruction) : i ∈ code → 0 ≤ i.offset ∧ i.offset ≤ Offset.greatest
  takesArg (i : Instruction) : i ∈ code → i.opcode.hasArg = false → i.arg = none
  target (i : Instruction) : i ∈ code → i.opcode.hasJumpTarget = true →
    (∀ target ∈ i.argval, target ≤ Offset.greatest) ∧ (i.jumpTarget = none ↔ i.argval = none)
  flagged (i : Instruction) : i ∈ code →
    (i.isJumpTarget = true ↔ ∃ j ∈ code, j.jumpTarget = some i.offset)

namespace Listing

variable {source : String} {code : List Instruction}

theorem checked_of_parse (h : parse source = .ok code) : Instruction.Checked code where
  ascending := pairwise_of_parse h
  inRange i hi := by
    obtain ⟨_, _, _, _, _, hline⟩ := exists_says_of_parse h hi
    exact ⟨hline.offset_nonneg, hline.offset_le⟩
  takesArg i hi := by
    obtain ⟨_, _, _, _, _, hline⟩ := exists_says_of_parse h hi
    exact hline.takesArg
  target i hi hop := by
    obtain ⟨_, _, _, _, _, hline⟩ := exists_says_of_parse h hi
    have hrange := hline.target hop
    exact ⟨hrange, Instruction.jumpTarget_eq_none_iff hop hrange⟩
  flagged i hi := by
    rw [← markJumpTargets_of_parse h] at hi
    rw [Instruction.isJumpTarget_of_mem_markJumpTargets hi, Instruction.mem_jumpTargets]

end Listing

/-- The code unit of a listing is refused as empty exactly if it is, and for its entry exactly if it
starts elsewhere. It misses a jump target only at an instruction whose line has neither an argument
nor a comment with a target. In its graph the exit is the only node at its offset. -/
theorem Graph.build_of_parse {source : String} {code : List Instruction}
    (h : Listing.parse source = .ok code) :
    Instruction.Checked code ∧
    (build code = .error .emptyCode ↔ code = []) ∧
    (∀ offset, build code = .error (.missingEntry offset) ↔
      code.head?.map Instruction.offset = some offset ∧ offset ≠ 0) ∧
    (∀ offset opcode, build code = .error (.missingJumpTarget offset opcode) →
      ∃ i ∈ code, i.offset = offset ∧ i.opcode = opcode ∧
        ∃ text ∈ codeLines (lines source.toList), ∃ label number,
          Says (trim text) label number none { i with isJumpTarget := false } ∧
          targetText? (commentText (trim text)) = none) ∧
    ∀ g, build code = .ok g →
      ∃ ns, g.nodes.toList = ns ++ [.exit] ∧ ∀ n ∈ ns, n.offset ≠ -1 := by
  have hchecked := checked_of_parse h
  refine ⟨hchecked, build_emptyCode_iff, fun _ => build_missingEntry_iff, ?_, ?_⟩
  · intro offset opcode hmissing
    obtain ⟨i, hi, hoffset, hopcode, hop, hnone⟩ := lacksTarget_of_build hmissing
    have hargval := ((hchecked.target i hi hop).2).1 hnone
    obtain ⟨text, htext, label, number, operand, hline⟩ := exists_says_of_parse h hi
    obtain ⟨rfl, _, hcomment⟩ := hline.bare hargval
    exact ⟨i, hi, hoffset, hopcode, text, htext, label, number, hline, hcomment⟩
  · intro g hg
    obtain ⟨ns, hnodes, hnonneg, _⟩ := (Built.of_build hchecked.ascending hg).ordered
    refine ⟨ns, hnodes, ?_⟩
    intro n hn
    have := hnonneg n hn
    omega

/-- The jump at 2 has a comment, but that gives no target. -/
theorem Graph.build_of_parse_bareJump :
    let source := "0 SETUP_LOOP 4 (to 8)\n 7 >> 2 JUMP_ABSOLUTE (x)\n"
    let code : List Instruction :=
      [⟨.setupLoop, 0, some 4, some 8, false⟩, ⟨.jumpAbsolute, 2, none, none, false⟩]
    Listing.parse source = .ok code ∧ Instruction.Checked code ∧
      build code = .error (.missingJumpTarget 2 .jumpAbsolute) ∧
      ∃ text ∈ codeLines (lines source.toList), ∃ label number,
        Says (trim text) label number none ⟨.jumpAbsolute, 2, none, none, false⟩ ∧
        targetText? (commentText (trim text)) = none := by
  intro source code
  have hparse : Listing.parse source = .ok code := by decide +kernel
  have hmissing : build code = .error (.missingJumpTarget 2 .jumpAbsolute) :=
    build_eq_error (by decide +kernel)
  obtain ⟨hchecked, _, _, hbare, _⟩ := build_of_parse hparse
  obtain ⟨i, hi, hoffset, _, hline⟩ := hbare _ _ hmissing
  have hjump : i = ⟨.jumpAbsolute, 2, none, none, false⟩ :=
    hchecked.ascending.eq_of_offset_eq hi (by simp [code]) hoffset
  subst hjump
  exact ⟨hparse, hchecked, hmissing, hline⟩

end BytecodeFlow
