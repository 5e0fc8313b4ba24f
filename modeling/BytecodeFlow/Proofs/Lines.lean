import BytecodeFlow.Fallible
import BytecodeFlow.Listing.Basic
import Mathlib.Data.List.Forall2

/-!
# What an accepted listing says

A line is accepted for an instruction exactly if it says it (`Listing.Says`): its words are at most
one line number, the offset, the opcode name and at most one argument, and its comment resolves the
argument. A listing is accepted for the instructions of its lines if their offsets ascend
(`Listing.parse_eq_ok_iff`).
-/

namespace BytecodeFlow

open Text

/-- An opcode name is no number. -/
theorem Opcode.isNumber_name (op : Opcode) : Listing.isNumber op.name.toList = false := by
  obtain ⟨c, rest, hname⟩ := List.exists_cons_of_ne_nil op.toList_name_ne_nil
  have hc : c.isDigit = false := by
    have hmem : c ∈ op.name.toList := by simp [hname]
    rcases isUpper_or_underscore_of_mem_name hmem with h | rfl
    · have hlow := (toNat_of_isUpper h).1
      rw [Char.isDigit, Bool.and_eq_false_iff]
      right
      rw [decide_eq_false_iff_not]
      intro hhigh
      have : c.toNat ≤ 57 := hhigh
      omega
    · rfl
  simp [Listing.isNumber, hname, hc]

namespace Listing

/-! ## The parts of a line -/

section Parts

variable {numbers operands : List (List Char)} {text name comment : List Char} {value : Nat}
  {offset : Int} {opcode : Opcode} {arg argval : Option Nat}

theorem readNumber_eq_ok_iff : readNumber text = .ok value ↔ unsigned? text = some value := by
  unfold readNumber
  cases unsigned? text with
  | none => simp
  | some v => simp

/-- One line number may stand before the offset. -/
theorem readOffset_eq_ok_iff :
    readOffset numbers = .ok value ↔
      ∃ (label : Option (List Char)) (number : List Char),
        numbers = label.toList ++ [number] ∧ unsigned? number = some value := by
  constructor
  · intro h
    unfold readOffset at h
    split at h
    · cases h
    · rename_i number
      exact ⟨none, number, rfl, readNumber_eq_ok_iff.1 h⟩
    · rename_i label number
      exact ⟨some label, number, rfl, readNumber_eq_ok_iff.1 h⟩
    · cases h
  · intro h
    obtain ⟨label, number, rfl, hvalue⟩ := h
    cases label with
    | none => exact readNumber_eq_ok_iff.2 hvalue
    | some label => exact readNumber_eq_ok_iff.2 hvalue

theorem readOpcode_eq_ok_iff : readOpcode name = .ok opcode ↔ name = opcode.name.toList := by
  unfold readOpcode
  constructor
  · intro h
    split at h
    · rename_i found hfound
      cases h
      rw [Opcode.name_of_ofName? hfound, String.toList_ofList]
    · cases h
  · intro h
    rw [h, String.ofList_toList, Opcode.ofName?_name]

/-- At most one argument may follow the opcode name. -/
theorem readArgument_eq_ok_iff :
    readArgument operands = .ok arg ↔
      ∃ operand : Option (List Char), operands = operand.toList ∧
        Option.Rel (fun word value => unsigned? word = some value) operand arg := by
  constructor
  · intro h
    unfold readArgument at h
    split at h
    · cases h
      exact ⟨none, rfl, .none⟩
    · rename_i word
      obtain ⟨value, hword, rfl⟩ := map_eq_ok_iff.1 h
      exact ⟨some word, rfl, .some (readNumber_eq_ok_iff.1 hword)⟩
    · obtain ⟨_, _, h⟩ := bind_eq_ok_iff.1 h
      cases h
  · intro h
    obtain ⟨operand, rfl, hrel⟩ := h
    cases hrel with
    | none => rfl
    | some hword =>
      rw [Option.toList_some, readArgument, readNumber_eq_ok_iff.2 hword]
      rfl

theorem checkArgument_eq_ok_iff :
    checkArgument opcode arg = .ok () ↔ (opcode.hasArg = false → arg = none) := by
  unfold checkArgument
  cases arg <;> cases opcode.hasArg <;> simp

theorem checkRange_eq_ok_iff : checkRange value = .ok offset ↔ Offset.ofNat? value = some offset := by
  unfold checkRange
  cases Offset.ofNat? value with
  | none => simp
  | some v => simp

/-- The resolved argument of a line: the target in its comment if there is one, else the
argument. -/
def Resolves (comment : List Char) (arg argval : Option Nat) : Prop :=
  match targetText? comment with
  | some text => ∃ value, unsigned? text = some value ∧ argval = some value
  | none => argval = arg

/-- What has no resolved argument has neither a target in its comment nor an argument. -/
theorem resolves_none_iff : Resolves comment arg none ↔ targetText? comment = none ∧ arg = none := by
  unfold Resolves
  cases targetText? comment with
  | none => simp [eq_comm]
  | some text => simp

theorem readResolved_eq_ok_iff :
    readResolved comment arg = .ok argval ↔ Resolves comment arg argval := by
  unfold readResolved Resolves
  cases targetText? comment with
  | none => simp [eq_comm]
  | some text => simp [map_eq_ok_iff, readNumber_eq_ok_iff, @eq_comm _ argval]

theorem checkTarget_eq_ok_iff :
    checkTarget opcode argval = .ok () ↔
      (opcode.hasJumpTarget = true → ∀ target ∈ argval, target ≤ Offset.greatest) := by
  unfold checkTarget
  cases argval with
  | none => simp
  | some target =>
    cases opcode.hasJumpTarget with
    | false => simp
    | true =>
      by_cases hle : target ≤ Offset.greatest <;>
        simp [checkRange, Offset.ofNat?, hle, Except.map]

theorem readWords_eq_ok_iff {i : Instruction} :
    readWords numbers name operands comment = .ok i ↔
      (∃ value, readOffset numbers = .ok value ∧ checkRange value = .ok i.offset) ∧
      readOpcode name = .ok i.opcode ∧ readArgument operands = .ok i.arg ∧
      checkArgument i.opcode i.arg = .ok () ∧ readResolved comment i.arg = .ok i.argval ∧
      checkTarget i.opcode i.argval = .ok () ∧ i.isJumpTarget = false := by
  simp only [readWords, bind_eq_ok_iff, pure_eq_ok, Except.ok.injEq]
  constructor
  · intro h
    obtain ⟨value, hvalue, opcode, hopcode, arg, harg, _, hcheck, offset, hrange, argval, hresolved,
      _, htarget, rfl⟩ := h
    exact ⟨⟨value, hvalue, hrange⟩, hopcode, harg, hcheck, hresolved, htarget, rfl⟩
  · intro h
    obtain ⟨⟨value, hvalue, hrange⟩, hopcode, harg, hcheck, hresolved, htarget, hflag⟩ := h
    obtain ⟨opcode, offset, arg, argval, flag⟩ := i
    cases hflag
    exact ⟨value, hvalue, opcode, hopcode, arg, harg, (), hcheck, offset, hrange, argval, hresolved,
      (), htarget, rfl⟩

end Parts

/-! ## One line -/

/-- The comment of a line is looked for after a text without parentheses. -/
theorem codeText_append {before : List Char} (h : '(' ∉ before) (after : List Char) :
    codeText (before ++ after) = before ++ codeText after :=
  List.takeWhile_append_of_pos fun _ hc => bne_iff_ne.2 (ne_of_mem_of_not_mem hc h)

theorem commentText_append {before : List Char} (h : '(' ∉ before) (after : List Char) :
    commentText (before ++ after) = commentText after :=
  List.dropWhile_append_of_pos fun _ hc => bne_iff_ne.2 (ne_of_mem_of_not_mem hc h)

/-- The line says the instruction, which is not flagged yet: in the words before its comment, by an
offset that is a number and may follow a line number, and an opcode name that an operand may follow;
and in its comment. -/
structure Says (text : List Char) (label : Option (List Char)) (number : List Char)
    (operand : Option (List Char)) (i : Instruction) : Prop where
  words : codeWords text = label.toList ++ number :: i.opcode.name.toList :: operand.toList
  label : ∀ word ∈ label, isNumber word = true
  numeral : isNumber number = true
  offset : ∃ value, unsigned? number = some value ∧ Offset.ofNat? value = some i.offset
  arg : Option.Rel (fun word value => unsigned? word = some value) operand i.arg
  takesArg : i.opcode.hasArg = false → i.arg = none
  resolved : Resolves (commentText text) i.arg i.argval
  target : i.opcode.hasJumpTarget = true → ∀ target ∈ i.argval, target ≤ Offset.greatest
  unflagged : i.isJumpTarget = false

section Says

variable {text number : List Char} {label operand : Option (List Char)} {i : Instruction}

theorem Says.offset_nonneg (h : Says text label number operand i) : 0 ≤ i.offset := by
  obtain ⟨_, _, hoffset⟩ := h.offset
  exact Offset.nonneg_of_ofNat? hoffset

theorem Says.offset_le (h : Says text label number operand i) : i.offset ≤ Offset.greatest := by
  obtain ⟨value, _, hoffset⟩ := h.offset
  have := Offset.ofNat?_eq_some_iff.1 hoffset
  omega

/-- An argument that was read is an unsigned number. -/
theorem Says.arg_lt (h : Says text label number operand i) (arg : Nat) (harg : arg ∈ i.arg) :
    arg < 0x100000000 := by
  have hrel := h.arg
  rw [Option.mem_def.1 harg] at hrel
  cases hrel with
  | some hword => exact lt_of_unsigned? hword

/-- Where nothing is resolved, there is neither an argument nor a comment with a target. -/
theorem Says.bare (h : Says text label number operand i) (hargval : i.argval = none) :
    operand = none ∧ i.arg = none ∧ targetText? (commentText text) = none := by
  have hresolved := h.resolved
  rw [hargval, resolves_none_iff] at hresolved
  obtain ⟨hcomment, harg⟩ := hresolved
  have hrel := h.arg
  rw [harg] at hrel
  cases hrel
  exact ⟨rfl, harg, hcomment⟩

end Says

/-- The numbers before the opcode name end where it begins. -/
theorem split_codeWords {text name : List Char} {numbers operands : List (List Char)}
    (h : codeWords text = numbers ++ name :: operands)
    (hnumbers : ∀ word ∈ numbers, isNumber word = true) (hname : isNumber name = false) :
    (codeWords text).takeWhile isNumber = numbers ∧
      (codeWords text).dropWhile isNumber = name :: operands := by
  have hstop : ¬ isNumber name = true := by simp [hname]
  rw [h, List.takeWhile_append_of_pos hnumbers, List.dropWhile_append_of_pos hnumbers,
    List.takeWhile_cons_of_neg hstop, List.dropWhile_cons_of_neg hstop, List.append_nil]
  exact ⟨rfl, rfl⟩

/-- A line is accepted for what it says. -/
theorem readLine_eq_ok_iff {text : List Char} {i : Instruction} :
    readLine text = .ok i ↔ ∃ label number operand, Says text label number operand i := by
  constructor
  · intro h
    unfold readLine at h
    split at h
    · cases h
    · rename_i name operands hdrop
      obtain ⟨⟨value, hvalue, hrange⟩, hopcode, harg, hcheck, hresolved, htarget, hflag⟩ :=
        readWords_eq_ok_iff.1 h
      obtain ⟨label, number, hnumbers, hvalue⟩ := readOffset_eq_ok_iff.1 hvalue
      obtain ⟨operand, rfl, hrel⟩ := readArgument_eq_ok_iff.1 harg
      have hwords := List.takeWhile_append_dropWhile (p := isNumber) (l := codeWords text)
      have hall : ∀ word ∈ label.toList ++ [number], isNumber word = true := by
        rw [← hnumbers]
        exact List.all_eq_true.1 List.all_takeWhile
      rw [hdrop, hnumbers, readOpcode_eq_ok_iff.1 hopcode] at hwords
      exact ⟨label, number, operand, {
        words := by simpa using hwords.symm
        label := fun word hword => hall word (by simp [Option.mem_def.1 hword])
        numeral := hall number (by simp)
        offset := ⟨value, hvalue, checkRange_eq_ok_iff.1 hrange⟩
        arg := hrel
        takesArg := checkArgument_eq_ok_iff.1 hcheck
        resolved := readResolved_eq_ok_iff.1 hresolved
        target := checkTarget_eq_ok_iff.1 htarget
        unflagged := hflag }⟩
  · intro h
    obtain ⟨label, number, operand, h⟩ := h
    obtain ⟨value, hvalue, hrange⟩ := h.offset
    have hnumbers : ∀ word ∈ label.toList ++ [number], isNumber word = true := by
      intro word hword
      rcases List.mem_append.1 hword with hword | hword
      · exact h.label word (Option.mem_toList.1 hword)
      · cases List.mem_singleton.1 hword
        exact h.numeral
    have hwords : codeWords text =
        (label.toList ++ [number]) ++ i.opcode.name.toList :: operand.toList := by
      simpa using h.words
    obtain ⟨htake, hdrop⟩ := split_codeWords hwords hnumbers i.opcode.isNumber_name
    unfold readLine
    rw [hdrop, htake]
    exact readWords_eq_ok_iff.2 ⟨⟨value, readOffset_eq_ok_iff.2 ⟨label, number, rfl, hvalue⟩,
      checkRange_eq_ok_iff.2 hrange⟩, readOpcode_eq_ok_iff.2 rfl,
      readArgument_eq_ok_iff.2 ⟨operand, rfl, h.arg⟩, checkArgument_eq_ok_iff.2 h.takesArg,
      readResolved_eq_ok_iff.2 h.resolved, checkTarget_eq_ok_iff.2 h.target, h.unflagged⟩

/-- What is read is not skipped, since a number comes before all else. -/
theorem not_isSkipped_of_readLine {text : List Char} {i : Instruction} (h : readLine text = .ok i) :
    isSkipped text = false := by
  obtain ⟨label, number, operand, hsays⟩ := readLine_eq_ok_iff.1 h
  have hwords := hsays.words
  cases text with
  | nil => cases label <;> cases hwords
  | cons c rest =>
    by_contra hskipped
    have hc : c = '#' := by simpa [isSkipped] using hskipped
    obtain ⟨w, ws, hfirst⟩ := words_cons (c := '#') (by rfl) (codeText rest)
    have hcode : codeWords ('#' :: rest) = ('#' :: w) :: ws.filter (· != ['>', '>']) := by
      have htext : codeText ('#' :: rest) = '#' :: codeText rest := rfl
      rw [codeWords, htext, hfirst]
      rfl
    rw [hc, hcode] at hwords
    have hnumber : isNumber ('#' :: w) = true := by
      cases label with
      | none =>
        obtain ⟨rfl, _⟩ := List.cons.inj hwords
        exact hsays.numeral
      | some label =>
        obtain ⟨rfl, _⟩ := List.cons.inj hwords
        exact hsays.label _ rfl
    cases hnumber

/-! ## All lines -/

theorem checkOrder_eq_ok_iff {previous : Option Int} {offset : Int} :
    checkOrder previous offset = .ok () ↔ ∀ p ∈ previous, p < offset := by
  unfold checkOrder
  cases previous with
  | none => simp
  | some p =>
    by_cases hle : offset ≤ p
    · simp [hle]
    · simp [hle, Int.not_le.1 hle]

/-- The lines that hold an instruction. -/
def codeLines (texts : List (List Char)) : List (List Char) :=
  texts.filter fun text => !isSkipped (trim text)

@[simp] theorem codeLines_cons_of_skipped {text : List Char} (h : isSkipped (trim text) = true)
    (rest : List (List Char)) : codeLines (text :: rest) = codeLines rest := by
  simp [codeLines, h]

@[simp] theorem codeLines_cons_of_not_skipped {text : List Char}
    (h : isSkipped (trim text) = false) (rest : List (List Char)) :
    codeLines (text :: rest) = text :: codeLines rest := by
  simp [codeLines, h]

/-- The first line is accepted, and the others after it. -/
theorem readLines_cons_eq_ok_iff {previous : Option Int} {line : Nat} {text : List Char}
    {rest : List (List Char)} {code : List Instruction} (h : isSkipped (trim text) = false) :
    readLines previous line (text :: rest) = .ok code ↔
      ∃ i more, readLine (trim text) = .ok i ∧ (∀ p ∈ previous, p < i.offset) ∧
        readLines (some i.offset) (line + 1) rest = .ok more ∧ code = i :: more := by
  simp only [readLines, h, Bool.false_eq_true, if_false, ← checkOrder_eq_ok_iff]
  cases hline : readLine (trim text) with
  | error fault => simp
  | ok i =>
    cases horder : checkOrder previous i.offset with
    | error fault => simp [horder]
    | ok _ => simp [horder, map_eq_ok_iff, @eq_comm _ code]

/-- Lines are accepted for the instructions they hold, at offsets that ascend from that of the
instruction before them. -/
theorem readLines_eq_ok_iff {previous : Option Int} {line : Nat} {texts : List (List Char)}
    {code : List Instruction} :
    readLines previous line texts = .ok code ↔
      List.Forall₂ (fun text i => readLine (trim text) = .ok i) (codeLines texts) code ∧
        (previous.toList ++ code.map (·.offset)).IsChain (· < ·) := by
  induction texts generalizing previous line code with
  | nil =>
    simp only [readLines, Except.ok.injEq, codeLines, List.filter_nil, List.forall₂_nil_left_iff]
    constructor
    · intro h
      subst h
      cases previous <;> simp
    · intro h
      exact h.1.symm
  | cons text rest ih =>
    cases hskip : isSkipped (trim text) with
    | true =>
      rw [codeLines_cons_of_skipped hskip, readLines, if_pos hskip, ih]
    | false =>
      have hchain (i : Instruction) (more : List Instruction) :
          (previous.toList ++ (i :: more).map (·.offset)).IsChain (· < ·) ↔
            (∀ p ∈ previous, p < i.offset) ∧
              (i.offset :: more.map (·.offset)).IsChain (· < ·) := by
        cases previous <;> simp [List.isChain_cons_cons]
      rw [readLines_cons_eq_ok_iff hskip, codeLines_cons_of_not_skipped hskip,
        List.forall₂_cons_left_iff]
      constructor
      · intro h
        obtain ⟨i, more, hline, horder, hrest, rfl⟩ := h
        obtain ⟨hlines, hoffsets⟩ := ih.1 hrest
        exact ⟨⟨i, more, hline, hlines, rfl⟩, (hchain i more).2 ⟨horder, hoffsets⟩⟩
      · intro h
        obtain ⟨⟨i, more, hline, hlines, rfl⟩, hoffsets⟩ := h
        obtain ⟨horder, hoffsets⟩ := (hchain i more).1 hoffsets
        exact ⟨i, more, hline, horder, ih.2 ⟨hlines, hoffsets⟩, rfl⟩

/-- A listing is accepted for the instructions of its lines, if their offsets ascend; the jump
targets among them are flagged. -/
theorem parse_eq_ok_iff {source : String} {code : List Instruction} :
    parse source = .ok code ↔
      ∃ raw, List.Forall₂ (fun text i => readLine (trim text) = .ok i)
          (codeLines (lines source.toList)) raw ∧
        raw.Pairwise (fun i j => i.offset < j.offset) ∧ code = Instruction.markJumpTargets raw := by
  have hascending (raw : List Instruction) :
      ((none : Option Int).toList ++ raw.map (·.offset)).IsChain (· < ·) ↔
        raw.Pairwise fun i j => i.offset < j.offset := by
    rw [Option.toList_none, List.nil_append, List.isChain_iff_pairwise, List.pairwise_map]
  simp only [parse, map_eq_ok_iff, readLines_eq_ok_iff, hascending, and_assoc, @eq_comm _ code]

section Pairs

variable {α β : Type} {R : α → β → Prop} {as : List α} {bs : List β}

theorem exists_of_mem_left (h : List.Forall₂ R as bs) {a : α} (ha : a ∈ as) :
    ∃ b ∈ bs, R a b := by
  induction h with
  | nil => cases ha
  | cons hrel _ ih =>
    rcases List.mem_cons.1 ha with rfl | ha
    · exact ⟨_, List.mem_cons_self, hrel⟩
    · obtain ⟨b, hb, hrel⟩ := ih ha
      exact ⟨b, List.mem_cons_of_mem _ hb, hrel⟩

theorem exists_of_mem_right (h : List.Forall₂ R as bs) {b : β} (hb : b ∈ bs) :
    ∃ a ∈ as, R a b :=
  exists_of_mem_left h.flip hb

end Pairs

section Accepted

variable {source : String} {code : List Instruction}

/-- Each line of an accepted listing is skipped or says an instruction. -/
theorem exists_readLine_of_parse (h : parse source = .ok code) {text : List Char}
    (htext : text ∈ codeLines (lines source.toList)) : ∃ i, readLine (trim text) = .ok i := by
  obtain ⟨raw, hlines, _, rfl⟩ := parse_eq_ok_iff.1 h
  obtain ⟨i, _, hread⟩ := exists_of_mem_left hlines htext
  exact ⟨i, hread⟩

/-- Each instruction of an accepted listing is said by a line of it. -/
theorem exists_says_of_parse (h : parse source = .ok code) {i : Instruction} (hi : i ∈ code) :
    ∃ text ∈ codeLines (lines source.toList), ∃ label number operand,
      Says (trim text) label number operand { i with isJumpTarget := false } := by
  obtain ⟨raw, hlines, _, rfl⟩ := parse_eq_ok_iff.1 h
  obtain ⟨j, hj, rfl⟩ := List.mem_map.1 hi
  obtain ⟨text, htext, hread⟩ := exists_of_mem_right hlines hj
  obtain ⟨label, number, operand, hline⟩ := readLine_eq_ok_iff.1 hread
  refine ⟨text, htext, label, number, operand, ?_⟩
  have hflag := hline.unflagged
  obtain ⟨opcode, offset, arg, argval, flag⟩ := j
  cases hflag
  exact hline

/-- The offsets of an accepted listing ascend. -/
theorem pairwise_of_parse (h : parse source = .ok code) :
    code.Pairwise fun i j => i.offset < j.offset := by
  obtain ⟨raw, _, hascending, rfl⟩ := parse_eq_ok_iff.1 h
  rw [Instruction.markJumpTargets, List.pairwise_map]
  exact hascending

/-- The jump targets of an accepted listing are flagged. -/
theorem markJumpTargets_of_parse (h : parse source = .ok code) :
    Instruction.markJumpTargets code = code := by
  obtain ⟨raw, _, _, rfl⟩ := parse_eq_ok_iff.1 h
  exact Instruction.markJumpTargets_markJumpTargets raw

end Accepted

end Listing

end BytecodeFlow
