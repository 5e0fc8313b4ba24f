import BytecodeFlow.Proofs.Lines
import BytecodeFlow.Proofs.Pass

/-!
# Listings that are read back

An instruction is shown as words with spaces between them, and a comment for a target that is not
the argument. Whatever a listing can hold (`Instruction.Listable`) is read back from the line that
shows it (`Instruction.says_render`), and a code unit of such instructions from the listing that is
written for it.
-/

namespace BytecodeFlow

open Text Listing

namespace Instruction

/-! ## How an instruction is shown -/

/-- The argument as it is shown. -/
def shownArgument (i : Instruction) : Option (List Char) :=
  i.arg.map fun arg => (toString arg).toList

/-- The words that show an instruction, its target left out. -/
def shownWords (i : Instruction) : List (List Char) :=
  (toString i.offset).toList :: i.opcode.name.toList :: i.shownArgument.toList

/-- The comment that shows the target, unless that is the argument, and the space before it. -/
def shownTarget (i : Instruction) : List Char :=
  match i.jumpTarget with
  | some target =>
    if i.arg = i.argval then [] else " (to ".toList ++ (toString target).toList ++ [')']
  | none => []

theorem toList_render (i : Instruction) :
    i.render.toList = [' '].intercalate i.shownWords ++ i.shownTarget := by
  have hwords : [' '].intercalate i.shownWords = (toString i.offset).toList ++ ' ' ::
      i.opcode.name.toList ++ (i.arg.map fun arg => ' ' :: (toString arg).toList).getD [] := by
    unfold shownWords shownArgument
    cases i.arg <;> simp
  rw [hwords]
  unfold render shownTarget
  cases i.jumpTarget with
  | none => cases i.arg <;> simp
  | some target =>
    by_cases h : i.arg = i.argval
    · simp only [if_pos h]
      cases i.arg <;> simp
    · simp only [if_neg h]
      cases i.arg <;> simp

/-! ## The characters of a shown instruction -/

/-- The characters that an instruction's words are made of. -/
def isShown (c : Char) : Bool := c.isDigit || c.isUpper || c == '_'

theorem isBlank_of_isShown {c : Char} (h : isShown c = true) : isBlank c = false := by
  simp only [isShown, Bool.or_eq_true, beq_iff_eq] at h
  rcases h with (h | h) | rfl
  · exact isBlank_of_isDigit h
  · exact isBlank_of_isUpper h
  · rfl

section Shown

variable {i : Instruction} {word : List Char} {c : Char}

/-- The words are numerals and the opcode name. -/
theorem shownWords_cases (h : 0 ≤ i.offset) (hword : word ∈ i.shownWords) :
    (∃ n : Nat, word = (toString n).toList) ∨ word = i.opcode.name.toList := by
  simp only [shownWords, List.mem_cons, Option.mem_toList, shownArgument, Option.map_eq_some_iff]
    at hword
  rcases hword with rfl | rfl | hword
  · exact .inl ⟨_, congrArg String.toList (toString_of_nonneg h)⟩
  · exact .inr rfl
  · obtain ⟨arg, _, rfl⟩ := hword
    exact .inl ⟨arg, rfl⟩

theorem isShown_of_mem (h : 0 ≤ i.offset) (hword : word ∈ i.shownWords) (hc : c ∈ word) :
    isShown c = true := by
  rcases shownWords_cases h hword with ⟨n, rfl⟩ | rfl
  · simp [isShown, isDigit_of_mem_toString hc]
  · rcases Opcode.isUpper_or_underscore_of_mem_name hc with hc | rfl
    · simp [isShown, hc]
    · rfl

theorem isWord_of_mem_shownWords (h : 0 ≤ i.offset) (hword : word ∈ i.shownWords) :
    IsWord word := by
  constructor
  · rcases shownWords_cases h hword with ⟨n, rfl⟩ | rfl
    · exact toList_toString_ne_nil n
    · exact i.opcode.toList_name_ne_nil
  · intro c hc
    exact isBlank_of_isShown (isShown_of_mem h hword hc)

/-- No other character is shown before the comment. -/
theorem not_mem_shownWords (h : 0 ≤ i.offset) (hc : isShown c = false) (hspace : c ≠ ' ') :
    c ∉ [' '].intercalate i.shownWords := by
  intro hmem
  rcases mem_intercalate hmem with hmem | ⟨word, hword, hmem⟩
  · exact hspace (List.mem_singleton.1 hmem)
  · rw [isShown_of_mem h hword hmem] at hc
    cases hc

theorem not_mem_shownTarget (hc : isShown c = false) (hcomment : c ∉ " (to )".toList) :
    c ∉ i.shownTarget := by
  unfold shownTarget
  split
  · rename_i target htarget
    split
    · exact List.not_mem_nil
    · intro hmem
      rw [toString_of_nonneg (jumpTarget_nonneg htarget), List.mem_append, List.mem_append] at hmem
      rcases hmem with (hmem | hmem) | hmem
      · exact hcomment (List.mem_append_left [')'] hmem)
      · simp [isShown, isDigit_of_mem_toString hmem] at hc
      · exact hcomment (List.mem_append_right " (to ".toList hmem)
  · exact List.not_mem_nil

/-- Besides the words, only the comment's own characters are shown. -/
theorem not_mem_render (h : 0 ≤ i.offset) (hc : isShown c = false)
    (hcomment : c ∉ " (to )".toList) : c ∉ i.render.toList := by
  have hspace : c ≠ ' ' := by
    rintro rfl
    exact hcomment (by decide)
  rw [toList_render, List.mem_append, not_or]
  exact ⟨not_mem_shownWords h hc hspace, not_mem_shownTarget hc hcomment⟩

end Shown

/-! ## The line of an instruction -/

/-- What a listing can say of an instruction: offsets and targets are in range, an argument is an
unsigned number and follows only an opcode that takes one, and only a target may differ from the
argument. -/
structure Listable (i : Instruction) : Prop where
  offset_nonneg : 0 ≤ i.offset
  offset_le : i.offset ≤ Offset.greatest
  arg_lt (arg : Nat) : arg ∈ i.arg → arg < 0x100000000
  takesArg : i.opcode.hasArg = false → i.arg = none
  plain : i.opcode.hasJumpTarget = false → i.argval = i.arg
  bare : i.opcode.hasJumpTarget = true → i.argval = none → i.arg = none
  target : i.opcode.hasJumpTarget = true → ∀ target ∈ i.argval, target ≤ Offset.greatest

section Listable

variable {i : Instruction}

/-- Either the argument is the resolved argument, or the target is shown in a comment. -/
theorem Listable.shownTarget_cases (h : i.Listable) :
    i.shownTarget = [] ∧ i.argval = i.arg ∨
      ∃ target ≤ Offset.greatest, i.argval = some target ∧
        i.shownTarget = " (to ".toList ++ (toString target).toList ++ [')'] := by
  by_cases heq : i.arg = i.argval
  · left
    unfold shownTarget
    cases i.jumpTarget <;> simp [heq]
  · right
    cases hop : i.opcode.hasJumpTarget with
    | false => exact absurd (h.plain hop).symm heq
    | true =>
      cases hargval : i.argval with
      | none => exact absurd ((h.bare hop hargval).trans hargval.symm) heq
      | some target =>
        have hle := h.target hop target hargval
        have htarget : i.jumpTarget = some (target : Int) := by
          simp [jumpTarget, hop, hargval, Offset.ofNat?, hle]
        refine ⟨target, hle, rfl, ?_⟩
        simp only [shownTarget, htarget, if_neg heq]
        rfl

/-- The comment of the line is looked for after the words. -/
theorem Listable.split_shownWords (h : i.Listable) (rest : List Char) :
    codeText ([' '].intercalate i.shownWords ++ rest) =
        [' '].intercalate i.shownWords ++ codeText rest ∧
      commentText ([' '].intercalate i.shownWords ++ rest) = commentText rest := by
  have hparen : '(' ∉ [' '].intercalate i.shownWords :=
    not_mem_shownWords h.offset_nonneg rfl (by decide)
  exact ⟨codeText_append hparen rest, commentText_append hparen rest⟩

/-- The words of the line are the shown ones. -/
theorem Listable.codeWords_render (h : i.Listable) :
    codeWords i.render.toList = i.shownWords := by
  have hshown : words ([' '].intercalate i.shownWords) = i.shownWords :=
    words_intercalate fun _ => isWord_of_mem_shownWords h.offset_nonneg
  have hwords : words (codeText i.render.toList) = i.shownWords := by
    rw [toList_render, (h.split_shownWords _).1]
    rcases h.shownTarget_cases with ⟨htarget, _⟩ | ⟨target, _, _, htarget⟩
    · rw [htarget, codeText, List.takeWhile_nil, List.append_nil, hshown]
    · have hspace : codeText i.shownTarget = [' '] := by
        rw [htarget]
        rfl
      rw [hspace, words_append_cons rfl, hshown, words_nil, List.append_nil]
  -- The marker is no word of a shown instruction.
  rw [codeWords, hwords, List.filter_eq_self]
  intro word hword
  rw [bne_iff_ne]
  rintro rfl
  exact absurd (isShown_of_mem h.offset_nonneg hword (c := '>') (by simp)) (by decide)

/-- A target in a comment is found. -/
theorem targetText?_shown (target : Nat) :
    targetText? (commentText (" (to ".toList ++ (toString target).toList ++ [')'])) =
      some (toString target).toList := by
  have htrim : IsTrimmed (toString target).toList := (isWord_toString target).isTrimmed
  show targetText? ('(' :: 't' :: 'o' :: ' ' :: ((toString target).toList ++ [')'])) = _
  simp only [targetText?, List.getLast?_concat, if_true, List.dropLast_concat, htrim.trim_eq]

/-- The comment of the line resolves the argument. -/
theorem Listable.resolves_render (h : i.Listable) :
    Resolves (commentText i.render.toList) i.arg i.argval := by
  rw [toList_render, (h.split_shownWords _).2]
  rcases h.shownTarget_cases with ⟨htarget, hargval⟩ | ⟨target, hle, hargval, htarget⟩
  · rw [htarget]
    exact hargval
  · have hlt : target < 0x100000000 := by
      rw [Offset.greatest] at hle
      omega
    rw [htarget, Resolves, targetText?_shown]
    exact ⟨target, unsigned?_toString hlt, hargval⟩

/-- There are no blanks at either end of the line. -/
theorem Listable.isTrimmed_render (h : i.Listable) : IsTrimmed i.render.toList := by
  have hwords : IsTrimmed ([' '].intercalate i.shownWords) :=
    .intercalate _ (by simp [shownWords]) fun _ hword =>
      (isWord_of_mem_shownWords h.offset_nonneg hword).isTrimmed
  rw [toList_render]
  rcases h.shownTarget_cases with ⟨htarget, _⟩ | ⟨target, _, _, htarget⟩
  · rwa [htarget, List.append_nil]
  · have hparen : IsTrimmed [')'] := ⟨⟨')', [], rfl, rfl⟩, ⟨[], ')', rfl, rfl⟩⟩
    rw [htarget, ← List.append_assoc]
    exact hwords.append _ hparen

/-- The line that shows an instruction says it, but for the flag. -/
theorem Listable.says_render (h : i.Listable) :
    Says i.render.toList none (toString i.offset).toList i.shownArgument
      { i with isJumpTarget := false } where
  words := h.codeWords_render
  label := by simp
  numeral := by
    rw [toString_of_nonneg h.offset_nonneg, isNumber, List.all_eq_true]
    exact fun _ hc => isDigit_of_mem_toString hc
  offset := by
    have hnonneg := h.offset_nonneg
    have hle := h.offset_le
    rw [Offset.greatest] at hle
    rw [toString_of_nonneg hnonneg]
    exact ⟨i.offset.toNat, unsigned?_toString (by omega),
      Offset.ofNat?_eq_some_iff.2 ⟨by rw [Offset.greatest]; omega, Int.toNat_of_nonneg hnonneg⟩⟩
  arg := by
    show Option.Rel _ (i.arg.map _) i.arg
    cases harg : i.arg with
    | none => exact .none
    | some arg => exact .some (unsigned?_toString (h.arg_lt arg harg))
  takesArg := h.takesArg
  resolved := h.resolves_render
  target := h.target
  unflagged := rfl

/-- The line of an instruction is read for it. -/
theorem Listable.readLine_render (h : i.Listable) :
    readLine i.render.toList = .ok { i with isJumpTarget := false } :=
  readLine_eq_ok_iff.2 ⟨_, _, _, h.says_render⟩

end Listable

end Instruction

namespace Listing

/-- The lines of a written listing are those of its instructions. -/
theorem lines_render {code : List Instruction} (h : ∀ i ∈ code, i.Listable) :
    lines (render code).toList = code.map fun i => i.render.toList := by
  have htext : (render code).toList = ['\n'].intercalate (code.map fun i => i.render.toList) := by
    rw [render, String.toList_intercalate, List.map_map]
    rfl
  rw [htext, lines_intercalate]
  intro line hline
  obtain ⟨i, hi, rfl⟩ := List.mem_map.1 hline
  exact ⟨(h i hi).isTrimmed_render,
    Instruction.not_mem_render (h i hi).offset_nonneg rfl (by decide)⟩

/-- A written listing is read back; the flags are computed anew. -/
theorem parse_render_of_listable {code : List Instruction} (hascending : Instruction.Ascending code)
    (h : ∀ i ∈ code, i.Listable) :
    parse (render code) = .ok (Instruction.markJumpTargets code) := by
  have hlines : codeLines (lines (render code).toList) = code.map fun i => i.render.toList := by
    rw [lines_render h, codeLines, List.filter_eq_self]
    intro line hline
    obtain ⟨i, hi, rfl⟩ := List.mem_map.1 hline
    simp [(h i hi).isTrimmed_render.trim_eq, not_isSkipped_of_readLine (h i hi).readLine_render]
  refine parse_eq_ok_iff.2 ⟨code.map fun i => { i with isJumpTarget := false }, ?_, ?_, ?_⟩
  · rw [hlines, List.forall₂_map_left_iff, List.forall₂_map_right_iff, List.forall₂_same]
    intro i hi
    rw [(h i hi).isTrimmed_render.trim_eq]
    exact (h i hi).readLine_render
  · rw [List.pairwise_map]
    exact hascending
  · rw [Instruction.markJumpTargets_unflagged]

/-- What a line says can be shown again, if only a target differs from the argument. -/
theorem Says.listable {text number : List Char} {label operand : Option (List Char)}
    {i : Instruction} (h : Says text label number operand i)
    (hplain : i.opcode.hasJumpTarget = false → i.argval = i.arg) : i.Listable where
  offset_nonneg := h.offset_nonneg
  offset_le := h.offset_le
  arg_lt := h.arg_lt
  takesArg := h.takesArg
  plain := hplain
  bare := fun _ hargval => (h.bare hargval).2.1
  target := h.target

/-- A listing that has been read is read alike when it is written again, if only targets differ
from the arguments. -/
theorem parse_render_of_parse {source : String} {code : List Instruction}
    (h : parse source = .ok code)
    (hplain : ∀ i ∈ code, i.opcode.hasJumpTarget = false → i.argval = i.arg) :
    parse (render code) = .ok code := by
  have hlistable : ∀ i ∈ code, i.Listable := by
    intro i hi
    obtain ⟨text, _, label, number, operand, hline⟩ := exists_says_of_parse h hi
    have hunflagged : Instruction.Listable { i with isJumpTarget := false } :=
      hline.listable (hplain i hi)
    exact { hunflagged with }
  rw [parse_render_of_listable (pairwise_of_parse h) hlistable, markJumpTargets_of_parse h]

/-- Writing and reading a listing are inverse. -/
theorem parse_render :
    (∀ code, Instruction.Ascending code → (∀ i ∈ code, i.Listable) →
      parse (render code) = .ok (Instruction.markJumpTargets code)) ∧
    (∀ source code, parse source = .ok code →
      (∀ i ∈ code, i.opcode.hasJumpTarget = false → i.argval = i.arg) →
      parse (render code) = .ok code) :=
  ⟨fun _ => parse_render_of_listable, fun _ _ => parse_render_of_parse⟩

/-- The source line numbers, markers and comments of a listing are lost when it is written again.
One jump has only a target, one a target beside its argument, one an argument that is its target,
and one neither. -/
theorem parse_render_jumps :
    let code : List Instruction := [⟨.setupLoop, 0, some 4, some 6, false⟩,
      ⟨.jumpAbsolute, 2, none, some 2, true⟩, ⟨.popJumpIfTrue, 4, some 2, some 2, false⟩,
      ⟨.loadConst, 6, some 4294967295, some 4294967295, true⟩,
      ⟨.jumpForward, 2147483647, none, none, false⟩]
    let written := "0 SETUP_LOOP 4 (to 6)\n2 JUMP_ABSOLUTE (to 2)\n4 POP_JUMP_IF_TRUE 2\n" ++
      "6 LOAD_CONST 4294967295\n2147483647 JUMP_FORWARD"
    let source := "# loop\n 7 0 SETUP_LOOP +4 (to 6)\r\n >> 2 JUMP_ABSOLUTE (to 02 )\n\n" ++
      "4 POP_JUMP_IF_TRUE 2 (x)\n8 >> 6 LOAD_CONST 4294967295\n2147483647 JUMP_FORWARD\n"
    render code = written ∧ parse written = .ok code ∧ parse source = .ok code ∧
      parse (render code) = .ok code := by
  intro code written source
  have hascending : Instruction.Ascending code := by
    show code.Pairwise _
    decide
  have hlistable : ∀ i ∈ code, i.Listable := by
    intro i hi
    simp only [code, List.mem_cons, List.not_mem_nil, or_false] at hi
    rcases hi with rfl | rfl | rfl | rfl | rfl <;> constructor <;> decide
  have hrender : render code = written := by decide +kernel
  have hparse : parse source = .ok code := by decide +kernel
  have hplain : ∀ i ∈ code, i.opcode.hasJumpTarget = false → i.argval = i.arg := by decide
  refine ⟨hrender, ?_, hparse, parse_render.2 source code hparse hplain⟩
  rw [← hrender, parse_render.1 code hascending hlistable]
  rfl

end Listing

end BytecodeFlow
