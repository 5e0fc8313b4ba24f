import BytecodeFlow.Proofs.Concatenation
import Mathlib.Logic.Relation

/-!
# Decorations of a listing

Much of a listing carries no meaning: remarks, white space, jump-target markers, source line
numbers and comments without a target. `Listing.Edit` lists how these can be changed. What a line is
read for hangs on its words before the comment and on the target in the comment only
(`Listing.readLine_trim_eq`), so that such a change leaves each line its reading
(`Listing.LineEdit.readLine_trim`), and an accepted listing is read alike after any number of
changes (`Listing.parse_of_edits`).
-/

namespace BytecodeFlow

open Text

namespace Listing

/-- White space, or nothing. -/
def AllBlank (cs : List Char) : Prop := ∀ c ∈ cs, isBlank c = true

instance (cs : List Char) : Decidable (AllBlank cs) :=
  inferInstanceAs (Decidable (∀ c ∈ cs, isBlank c = true))

/-- The text of lines, with a line feed between any two. -/
def unlines (ls : List (List Char)) : List Char := ['\n'].intercalate ls

/-- The marker of a jump target. -/
def marker : List Char := ['>', '>']

/-- A line that is white space, or starts with a number sign after white space. -/
def IsRemark (line : List Char) : Prop :=
  ∃ gap, AllBlank gap ∧ (line = gap ∨ ∃ rest, line = gap ++ '#' :: rest)

/-- The second line is the first one with one more word between two parts of it, where white space
stands apart what is not at an end of the line. -/
inductive Inserts (before word after : List Char) : List Char → List Char → Prop where
  | between {gap left right : List Char} (blank : AllBlank gap) (leftBlank : AllBlank left)
      (rightBlank : AllBlank right) (apart : before ≠ [] → after ≠ [] → gap ≠ [])
      (leftApart : before ≠ [] → left ≠ []) (rightApart : after ≠ [] → right ≠ []) :
      Inserts before word after (before ++ gap ++ after) (before ++ left ++ word ++ right ++ after)

/-- The second line is the first one with one more marker before the comment. -/
def AddsMarker (line line' : List Char) : Prop :=
  ∃ before after, '(' ∉ before ∧ Inserts before marker after line line'

/-- The second line is the first one, which has an offset but no line number, with a line number
before the offset: at most markers come before it. -/
structure AddsLabel (label line line' : List Char) : Prop where
  ne_nil : label ≠ []
  number : isNumber label = true
  unlabelled : ∃ offset, (codeWords line).takeWhile isNumber = [offset]
  inserts : ∃ before after, '(' ∉ before ∧ (∀ word ∈ words before, word = marker) ∧
    Inserts before label after line line'

/-- A change to one line that does not change what the line says. -/
inductive LineEdit : List Char → List Char → Prop where
  /-- White space at the ends. -/
  | pad {line left right : List Char} (leftBlank : AllBlank left) (rightBlank : AllBlank right) :
      LineEdit line (left ++ line ++ right)
  /-- Other white space before the comment. -/
  | respace {before gap gap' after : List Char} (code : '(' ∉ before) (blank : AllBlank gap)
      (ne_nil : gap ≠ []) (blank' : AllBlank gap') (ne_nil' : gap' ≠ []) :
      LineEdit (before ++ gap ++ after) (before ++ gap' ++ after)
  | addMarker {line line' : List Char} (code : ¬ IsRemark line) (adds : AddsMarker line line') :
      LineEdit line line'
  | removeMarker {line line' : List Char} (code : ¬ IsRemark line') (adds : AddsMarker line line') :
      LineEdit line' line
  | addLabel {line line' label : List Char} (code : ¬ IsRemark line)
      (adds : AddsLabel label line line') : LineEdit line line'
  | removeLabel {line line' label : List Char} (code : ¬ IsRemark line')
      (adds : AddsLabel label line line') : LineEdit line' line
  | replaceLabel {line line' line'' label label' : List Char} (code : ¬ IsRemark line')
      (adds : AddsLabel label line line') (adds' : AddsLabel label' line line'') :
      LineEdit line' line''
  /-- A comment that gives no target. -/
  | comment {line text : List Char} (code : ¬ IsRemark line) (bare : '(' ∉ line)
      (paren : text.head? = some '(')
      (noTarget : ¬ ∃ target, trim text = "(to ".toList ++ target ++ [')']) :
      LineEdit line (line ++ text)

/-- A change to a text that does not change what it says as a listing. -/
inductive Edit : List Char → List Char → Prop where
  /-- A remark is put in, before a line or after one. -/
  | insertRemark (before after : List (List Char)) {line : List Char}
      (unbroken : ∀ l ∈ before ++ line :: after, '\n' ∉ l) (remark : IsRemark line) :
      Edit (unlines (before ++ after)) (unlines (before ++ line :: after))
  /-- A remark is put in after the last line feed, and no line feed after it. -/
  | appendRemark (before : List (List Char)) {line : List Char}
      (unbroken : ∀ l ∈ before ++ [line], '\n' ∉ l) (remark : IsRemark line) :
      Edit (unlines (before ++ [[]])) (unlines (before ++ [line]))
  /-- A line is changed, but not the white space after it, such as a carriage return. -/
  | change (before after : List (List Char)) {line line' trail : List Char}
      (unbroken : ∀ l ∈ before ++ (line ++ trail) :: (line' ++ trail) :: after, '\n' ∉ l)
      (blank : AllBlank trail) (edit : LineEdit line line') :
      Edit (unlines (before ++ (line ++ trail) :: after))
        (unlines (before ++ (line' ++ trail) :: after))
  /-- A line that a line feed ends gets a carriage return before it. -/
  | endWithReturn (before after : List (List Char)) {line next : List Char}
      (unbroken : ∀ l ∈ before ++ line :: next :: after, '\n' ∉ l) :
      Edit (unlines (before ++ line :: next :: after))
        (unlines (before ++ (line ++ ['\r']) :: next :: after))

/-! ## What the reading of a line hangs on -/

section Reading

variable {line line' before after word text : List Char}

theorem isSkipped_eq (text : List Char) : isSkipped text = text.head?.all (· == '#') := by
  cases text with
  | nil => rfl
  | cons c rest => simp [isSkipped]

theorem allBlank_nil : AllBlank [] := by
  simp [AllBlank]

theorem AllBlank.paren_not_mem {gap : List Char} (h : AllBlank gap) : '(' ∉ gap := by
  intro hmem
  cases h '(' hmem

theorem AllBlank.find?_eq_none {gap : List Char} (h : AllBlank gap) :
    (gap.find? fun c => !isBlank c) = none := by
  simpa [AllBlank] using h

/-- The remarks are the lines that are skipped. -/
theorem isSkipped_trim_iff : isSkipped (trim line) = true ↔ IsRemark line := by
  rw [isSkipped_eq, head?_trim]
  constructor
  · intro h
    cases hfind : line.find? fun c => !isBlank c with
    | none => exact ⟨line, by simpa [AllBlank] using hfind, .inl rfl⟩
    | some c =>
      obtain ⟨_, gap, rest, hline, hgap⟩ := List.find?_eq_some_iff_append.1 hfind
      rw [hfind] at h
      have hc : c = '#' := by simpa using h
      exact ⟨gap, by simpa [AllBlank] using hgap, .inr ⟨rest, by rw [hline, hc]⟩⟩
  · rintro ⟨gap, hgap, rfl | ⟨rest, rfl⟩⟩
    · rw [hgap.find?_eq_none]
      rfl
    · rw [List.find?_append, hgap.find?_eq_none]
      rfl

instance (line : List Char) : Decidable (IsRemark line) := decidable_of_iff _ isSkipped_trim_iff

theorem paren_not_mem_codeText (line : List Char) : '(' ∉ codeText line := by
  intro h
  have := List.all_eq_true.1 (List.all_takeWhile (p := (· != '(')) (l := line)) '(' h
  cases this

theorem codeText_append_commentText (line : List Char) :
    codeText line ++ commentText line = line :=
  List.takeWhile_append_dropWhile

theorem parts_of_not_mem (h : '(' ∉ line) : codeText line = line ∧ commentText line = [] := by
  have hcode := codeText_append h []
  have hcomment := commentText_append h []
  rw [List.append_nil] at hcode hcomment
  exact ⟨hcode.trans (List.append_nil line), hcomment⟩

/-- The first parenthesis opens the comment. -/
theorem parts_append_paren (h : '(' ∉ before) (rest : List Char) :
    codeText (before ++ '(' :: rest) = before ∧
      commentText (before ++ '(' :: rest) = '(' :: rest := by
  rw [codeText_append h, commentText_append h]
  exact ⟨List.append_nil before, rfl⟩

/-- A line is its code, which the first parenthesis ends if there is one. -/
theorem eq_codeText_or (line : List Char) :
    line = codeText line ∨ ∃ rest, line = codeText line ++ '(' :: rest := by
  have hline := codeText_append_commentText line
  cases h : commentText line with
  | nil =>
    rw [h, List.append_nil] at hline
    exact .inl hline.symm
  | cons c rest =>
    have hc : c = '(' := by
      have hhead := List.head?_dropWhile_not (· != '(') line
      rw [show line.dropWhile (· != '(') = c :: rest from h] at hhead
      exact bne_eq_false_iff_eq.1 hhead
    rw [h, hc] at hline
    exact .inr ⟨rest, hline.symm⟩

/-- White space at the end of a line makes no word, and is cut off from the comment. -/
theorem parts_trimEnd (line : List Char) :
    words (codeText (trimEnd line)) = words (codeText line) ∧
      commentText (trimEnd line) = trimEnd (commentText line) := by
  have hparen := paren_not_mem_codeText line
  rcases eq_codeText_or line with hline | ⟨rest, hline⟩
  · rw [← hline] at hparen
    obtain ⟨gap, hgap, hblank⟩ := exists_trimEnd_append line
    have hparen' : '(' ∉ trimEnd line := by
      intro hmem
      rw [hgap] at hparen
      exact hparen (List.mem_append_left gap hmem)
    have hwords : words line = words (trimEnd line) := by
      have hsplit := @words_append_gap (trimEnd line) gap [] hblank (by simp)
      rwa [List.append_nil, ← hgap, words_nil, List.append_nil] at hsplit
    rw [(parts_of_not_mem hparen).1, (parts_of_not_mem hparen).2, (parts_of_not_mem hparen').1,
      (parts_of_not_mem hparen').2, hwords]
    exact ⟨rfl, rfl⟩
  · generalize codeText line = code at hline hparen
    subst hline
    rw [trimEnd_append_cons (by rfl), (parts_append_paren hparen _).1,
      (parts_append_paren hparen _).2, (parts_append_paren hparen rest).2]
    exact ⟨rfl, (trimEnd_append_cons rfl [] rest).symm⟩

/-- A trimmed line has the same words before its comment, and its comment ends where the white space
at the end of the line begins. -/
theorem parts_trim (line : List Char) :
    codeWords (trim line) = codeWords line ∧
      commentText (trim line) = trimEnd (commentText line) := by
  obtain ⟨hwords, hcomment⟩ := parts_trimEnd (line.dropWhile isBlank)
  have hgap : AllBlank (line.takeWhile isBlank) := List.all_eq_true.1 List.all_takeWhile
  have hline : line.takeWhile isBlank ++ line.dropWhile isBlank = line :=
    List.takeWhile_append_dropWhile
  have hcode := codeText_append hgap.paren_not_mem (line.dropWhile isBlank)
  have hcomment' := commentText_append hgap.paren_not_mem (line.dropWhile isBlank)
  rw [hline] at hcode hcomment'
  rw [codeWords, codeWords, trim, hwords, hcomment, hcode, words_blank_append hgap, hcomment']
  exact ⟨rfl, rfl⟩

/-- A line is read for its offset, the words from the opcode name on and the target. -/
theorem readLine_congr {a b : List Char}
    (hoffset : readOffset ((codeWords a).takeWhile isNumber) =
      readOffset ((codeWords b).takeWhile isNumber))
    (hwords : (codeWords a).dropWhile isNumber = (codeWords b).dropWhile isNumber)
    (htarget : targetText? (commentText a) = targetText? (commentText b)) :
    readLine a = readLine b := by
  rw [readLine, readLine, hwords]
  simp only [readWords, readResolved, hoffset, htarget]

/-- A line that is trimmed is read for the words before its comment and the target in it. -/
theorem readLine_trim_eq {a b : List Char}
    (hoffset : readOffset ((codeWords a).takeWhile isNumber) =
      readOffset ((codeWords b).takeWhile isNumber))
    (hwords : (codeWords a).dropWhile isNumber = (codeWords b).dropWhile isNumber)
    (htarget : targetText? (trimEnd (commentText a)) = targetText? (trimEnd (commentText b))) :
    readLine (trim a) = readLine (trim b) := by
  apply readLine_congr
  · rw [(parts_trim a).1, (parts_trim b).1, hoffset]
  · rw [(parts_trim a).1, (parts_trim b).1, hwords]
  · rw [(parts_trim a).2, (parts_trim b).2, htarget]

/-! ## The changes to one line -/

theorem Inserts.front (h : line' = word ++ ' ' :: line) : Inserts [] word line line line' := by
  have hinserts := @Inserts.between [] word line [] [] [' '] allBlank_nil allBlank_nil
    (by simp [AllBlank]) (by simp) (by simp) (by simp)
  rw [h]
  simpa using hinserts

/-- A word put in before the comment is one more word, and nothing else changes. -/
theorem Inserts.parts (h : Inserts before word after line line') (hbefore : '(' ∉ before)
    (hword : IsWord word) (hparen : '(' ∉ word) :
    words (codeText line) = words before ++ words (codeText after) ∧
      words (codeText line') = words before ++ word :: words (codeText after) ∧
      commentText line' = commentText line := by
  have hne (hcode : codeText after ≠ []) : after ≠ [] := by
    rintro rfl
    exact hcode rfl
  cases h with
  | @between gap left right hgap hleft hright hapart hleftApart hrightApart =>
    have hline : '(' ∉ before ++ gap := by simp [hbefore, hgap.paren_not_mem]
    have hline' : '(' ∉ before ++ left ++ word ++ right := by
      simp [hbefore, hleft.paren_not_mem, hparen, hright.paren_not_mem]
    refine ⟨?_, ?_, ?_⟩
    · rw [codeText_append hline, words_append_gap hgap fun hb ha => hapart hb (hne ha)]
    · have hrest : words (word ++ right ++ codeText after) = word :: words (codeText after) := by
        rw [words_append_gap hright fun _ ha => hrightApart (hne ha), hword.words_eq]
        rfl
      rw [codeText_append hline', ← hrest, ← words_append_gap hleft fun hb _ => hleftApart hb]
      simp only [List.append_assoc]
    · rw [commentText_append hline, commentText_append hline']

theorem AddsMarker.readLine_trim (h : AddsMarker line line') :
    readLine (trim line') = readLine (trim line) := by
  obtain ⟨before, after, hbefore, h⟩ := h
  obtain ⟨hwords, hwords', hcomment⟩ := h.parts hbefore (by decide) (by decide)
  have hcode : codeWords line' = codeWords line := by
    rw [codeWords, codeWords, hwords, hwords']
    simp [marker]
  exact readLine_trim_eq (by rw [hcode]) (by rw [hcode]) (by rw [hcomment])

/-- The line number is the first word that counts. -/
theorem AddsLabel.parts (h : AddsLabel word line line') :
    codeWords line' = word :: codeWords line ∧ commentText line' = commentText line := by
  obtain ⟨before, after, hbefore, hmarkers, hinserts⟩ := h.inserts
  have hdigit (c : Char) (hc : c ∈ word) : c.isDigit = true := List.all_eq_true.1 h.number c hc
  have hparen : '(' ∉ word := fun hmem => absurd (hdigit '(' hmem) (by decide)
  have hword : IsWord word := ⟨h.ne_nil, fun c hc => isBlank_of_isDigit (hdigit c hc)⟩
  obtain ⟨hwords, hwords', hcomment⟩ := hinserts.parts hbefore hword hparen
  have hnone : (words before).filter (· != marker) = [] := by simpa using hmarkers
  have hmarker : (word != marker) = true := by
    rw [bne_iff_ne]
    rintro rfl
    cases h.number
  refine ⟨?_, hcomment⟩
  change (words (codeText line')).filter (· != marker) =
    word :: (words (codeText line)).filter (· != marker)
  rw [hwords, hwords', List.filter_append, List.filter_append, hnone, List.filter_cons,
    if_pos hmarker]
  rfl

theorem AddsLabel.readLine_trim (h : AddsLabel word line line') :
    readLine (trim line') = readLine (trim line) := by
  obtain ⟨hcode, hcomment⟩ := h.parts
  obtain ⟨offset, hoffset⟩ := h.unlabelled
  apply readLine_trim_eq
  · rw [hcode, List.takeWhile_cons_of_pos h.number, hoffset]
    rfl
  · rw [hcode, List.dropWhile_cons_of_pos h.number]
  · rw [hcomment]

/-- A target stands between `(to ` and a closing parenthesis. -/
theorem exists_of_targetText? {comment target : List Char} (h : targetText? comment = some target) :
    ∃ target, comment = "(to ".toList ++ target ++ [')'] := by
  unfold targetText? at h
  split at h
  · rename_i rest
    split at h
    · rename_i hlast
      obtain ⟨target, rfl⟩ := List.getLast?_eq_some_iff.1 hlast
      exact ⟨target, rfl⟩
    · cases h
  · cases h

theorem readLine_trim_append_comment (hbare : '(' ∉ line) (hparen : text.head? = some '(')
    (hnone : ¬ ∃ target, trim text = "(to ".toList ++ target ++ [')']) :
    readLine (trim (line ++ text)) = readLine (trim line) := by
  obtain ⟨rest, rfl⟩ := List.head?_eq_some_iff.1 hparen
  have htrim : trim ('(' :: rest) = trimEnd ('(' :: rest) := by
    rw [trim, List.dropWhile_cons_of_neg (by decide)]
  have hcode : codeWords (line ++ '(' :: rest) = codeWords line := by
    rw [codeWords, codeWords, (parts_append_paren hbare rest).1, (parts_of_not_mem hbare).1]
  apply readLine_trim_eq
  · rw [hcode]
  · rw [hcode]
  · rw [(parts_append_paren hbare rest).2, (parts_of_not_mem hbare).2, ← htrim]
    cases h : targetText? (trim ('(' :: rest)) with
    | none => rfl
    | some target => exact absurd (exists_of_targetText? h) hnone

theorem readLine_trim_respace {gap gap' : List Char} (hbefore : '(' ∉ before) (hgap : AllBlank gap)
    (hne : gap ≠ []) (hgap' : AllBlank gap') (hne' : gap' ≠ []) :
    readLine (trim (before ++ gap' ++ after)) = readLine (trim (before ++ gap ++ after)) := by
  have hline : '(' ∉ before ++ gap := by simp [hbefore, hgap.paren_not_mem]
  have hline' : '(' ∉ before ++ gap' := by simp [hbefore, hgap'.paren_not_mem]
  have hcode : codeWords (before ++ gap' ++ after) = codeWords (before ++ gap ++ after) := by
    rw [codeWords, codeWords, codeText_append hline, codeText_append hline',
      words_append_gap hgap fun _ _ => hne, words_append_gap hgap' fun _ _ => hne']
  refine readLine_trim_eq (by rw [hcode]) (by rw [hcode]) ?_
  rw [commentText_append hline, commentText_append hline']

theorem trim_pad {left right : List Char} (hleft : AllBlank left) (hright : AllBlank right) :
    trim (left ++ line ++ right) = trim line := by
  rw [trim_append_right hright, trim_append_left hleft]

/-- A line reads the same after a change. -/
theorem LineEdit.readLine_trim (h : LineEdit line line') :
    readLine (trim line') = readLine (trim line) := by
  cases h with
  | pad hleft hright => rw [trim_pad hleft hright]
  | respace hbefore hgap hne hgap' hne' => exact readLine_trim_respace hbefore hgap hne hgap' hne'
  | addMarker _ adds => exact adds.readLine_trim
  | removeMarker _ adds => exact adds.readLine_trim.symm
  | addLabel _ adds => exact adds.readLine_trim
  | removeLabel _ adds => exact adds.readLine_trim.symm
  | replaceLabel _ adds adds' => exact adds'.readLine_trim.trans adds.readLine_trim.symm
  | comment _ hbare hparen hnone => exact readLine_trim_append_comment hbare hparen hnone

/-- A remark stays one. -/
theorem LineEdit.isRemark (h : LineEdit line line') (hremark : IsRemark line) : IsRemark line' := by
  rw [← isSkipped_trim_iff] at hremark ⊢
  cases h with
  | pad hleft hright => rwa [trim_pad hleft hright]
  | @respace before gap gap' after _ hgap hne hgap' hne' =>
    rw [isSkipped_eq, head?_trim, List.find?_append, List.find?_append] at hremark ⊢
    rwa [hgap'.find?_eq_none, ← hgap.find?_eq_none]
  | addMarker hcode _ | removeMarker hcode _ | addLabel hcode _ | removeLabel hcode _
  | replaceLabel hcode _ _ | comment hcode _ _ _ =>
    exact absurd (isSkipped_trim_iff.1 hremark) hcode

end Reading

/-! ## The readings of a listing -/

/-- What the lines that hold instructions are read for. -/
def readings (texts : List (List Char)) : List (Except Fault Instruction) :=
  (codeLines texts).map fun text => readLine (trim text)

section Readings

variable {source : String} {code : List Instruction} {line line' : List Char}
  {texts : List (List Char)}

theorem readings_append (xs ys : List (List Char)) :
    readings (xs ++ ys) = readings xs ++ readings ys := by
  simp [readings, codeLines]

theorem readings_append_cons (before : List (List Char)) (line : List Char)
    (after : List (List Char)) :
    readings (before ++ line :: after) = readings before ++ readings [line] ++ readings after := by
  rw [List.append_cons, readings_append, readings_append]

theorem readings_eq_numbered (line : Nat) (texts : List (List Char)) :
    readings texts = (numbered line texts).map fun x => readLine x.1 := by
  induction texts generalizing line with
  | nil => rfl
  | cons text rest ih =>
    have ih := ih (line + 1)
    cases h : isSkipped (trim text) with
    | true =>
      rw [numbered_cons_of_skipped h, ← ih, readings, codeLines_cons_of_skipped h, readings]
    | false =>
      rw [numbered_cons h, List.map_cons, ← ih, readings, codeLines_cons_of_not_skipped h, readings,
        List.map_cons]

/-- A listing is accepted if all lines that hold instructions are, and their offsets ascend. -/
theorem parse_eq_ok_iff_readings :
    parse source = .ok code ↔
      ∃ raw, readings (pieces (· == '\n') source.toList) = raw.map .ok ∧
        raw.Pairwise (fun i j => i.offset < j.offset) ∧ code = Instruction.markJumpTargets raw := by
  have hlines : readings (pieces (· == '\n') source.toList) = readings (lines source.toList) := by
    rw [lines, readings_eq_numbered 1, readings_eq_numbered 1, numbered_endedLines]
  rw [parse_eq_ok_iff, hlines]
  refine exists_congr fun raw => and_congr_left' ?_
  rw [readings, ← List.forall₂_eq_eq_eq, List.forall₂_map_left_iff, List.forall₂_map_right_iff]

theorem readings_pieces_unlines (h : ∀ l ∈ texts, '\n' ∉ l) :
    readings (pieces (· == '\n') (unlines texts)) = readings texts := by
  by_cases hne : texts = []
  · subst hne
    rfl
  · rw [unlines, pieces_intercalate_lineFeed hne h]

theorem readings_of_isRemark (h : IsRemark line) : readings [line] = [] := by
  rw [readings, codeLines_cons_of_skipped (isSkipped_trim_iff.2 h)]
  rfl

theorem readings_singleton_congr (h : trim line' = trim line) :
    readings [line'] = readings [line] := by
  cases hskip : isSkipped (trim line) with
  | true => simp [readings, hskip, h]
  | false => simp [readings, hskip, h]

/-- A line is changed, with the white space after it. -/
theorem Edit.changeLine (before after : List (List Char))
    (unbroken : ∀ l ∈ before ++ line :: line' :: after, '\n' ∉ l) (edit : LineEdit line line') :
    Edit (unlines (before ++ line :: after)) (unlines (before ++ line' :: after)) := by
  have h := @Edit.change before after line line' []
  simp only [List.append_nil] at h
  exact h unbroken allBlank_nil edit

/-- What a line is read for, if it is accepted, a change leaves as it is. -/
theorem LineEdit.readings_eq (h : LineEdit line line')
    (haccepted : ∀ r ∈ readings [line], ∃ i, r = .ok i) : readings [line'] = readings [line] := by
  cases hskip : isSkipped (trim line) with
  | true =>
    have hremark := isSkipped_trim_iff.1 hskip
    rw [readings_of_isRemark hremark, readings_of_isRemark (h.isRemark hremark)]
  | false =>
    have hline : readings [line] = [readLine (trim line)] := by
      rw [readings, codeLines_cons_of_not_skipped hskip]
      rfl
    rw [hline] at haccepted ⊢
    obtain ⟨i, hi⟩ := haccepted _ List.mem_cons_self
    have hread := h.readLine_trim
    have hskip' : isSkipped (trim line') = false :=
      not_isSkipped_of_readLine (hread.trans hi)
    rw [readings, codeLines_cons_of_not_skipped hskip', ← hread]
    rfl

/-- What a listing is read for, if its lines are accepted, a change leaves as it is. -/
theorem Edit.readings_eq {s t : List Char} (h : Edit s t)
    (haccepted : ∀ r ∈ readings (pieces (· == '\n') s), ∃ i, r = .ok i) :
    readings (pieces (· == '\n') t) = readings (pieces (· == '\n') s) := by
  cases h with
  | @insertRemark before after line unbroken remark =>
    have hold : ∀ l ∈ before ++ after, '\n' ∉ l := fun l hl => unbroken l (by grind)
    rw [readings_pieces_unlines unbroken, readings_pieces_unlines hold, readings_append_cons,
      readings_of_isRemark remark, List.append_nil, readings_append]
  | @appendRemark before line unbroken remark =>
    have hold : ∀ l ∈ before ++ [[]], '\n' ∉ l := by
      intro l hl
      rcases List.mem_append.1 hl with hl | hl
      · exact unbroken l (List.mem_append_left _ hl)
      · simp [List.mem_singleton.1 hl]
    rw [readings_pieces_unlines unbroken, readings_pieces_unlines hold, readings_append,
      readings_of_isRemark remark, readings_append]
    rfl
  | @change before after line line' trail unbroken blank edit =>
    have hold : ∀ l ∈ before ++ (line ++ trail) :: after, '\n' ∉ l := fun l hl =>
      unbroken l (by grind)
    have hnew : ∀ l ∈ before ++ (line' ++ trail) :: after, '\n' ∉ l := fun l hl =>
      unbroken l (by grind)
    rw [readings_pieces_unlines hold, readings_append_cons,
      readings_singleton_congr (trim_append_right blank line)] at haccepted
    have hline := edit.readings_eq fun r hr => haccepted r (by simp [hr])
    rw [readings_pieces_unlines hold, readings_pieces_unlines hnew, readings_append_cons,
      readings_append_cons, readings_singleton_congr (trim_append_right blank line),
      readings_singleton_congr (trim_append_right blank line'), hline]
  | @endWithReturn before after line next unbroken =>
    have hnew : ∀ l ∈ before ++ (line ++ ['\r']) :: next :: after, '\n' ∉ l := by
      intro l hl
      have := unbroken l
      have := unbroken line (by simp)
      grind
    rw [readings_pieces_unlines unbroken, readings_pieces_unlines hnew, readings_append_cons,
      readings_append_cons, readings_singleton_congr (trim_append_right (by simp) line)]

/-- A listing that is accepted is accepted for the same instructions, flags included, after any
number of changes to what carries no meaning. -/
theorem parse_of_edits {s t : String} (h : parse s = .ok code)
    (hedits : Relation.ReflTransGen Edit s.toList t.toList) : parse t = .ok code := by
  obtain ⟨raw, hraw, hascending, hcode⟩ := parse_eq_ok_iff_readings.1 h
  refine parse_eq_ok_iff_readings.2 ⟨raw, ?_, hascending, hcode⟩
  generalize t.toList = text at hedits
  induction hedits with
  | refl => exact hraw
  | tail _ hedit ih =>
    rw [hedit.readings_eq, ih]
    rw [ih]
    intro r hr
    obtain ⟨i, _, rfl⟩ := List.mem_map.1 hr
    exact ⟨i, rfl⟩

/-- A jump and its target get a remark, a line number, a carriage return, a marker and a comment.
The line number is too large to be read as a number, the comment is not closed, and it is not for
the marker that the target is flagged. -/
theorem parse_of_edits_fiveEdits :
    let s := "0 JUMP_ABSOLUTE 2\n2 RETURN_VALUE"
    let t := "# loop\n99999999999 0 JUMP_ABSOLUTE 2\r\n>> 2 RETURN_VALUE(to 0"
    let code : List Instruction :=
      [⟨.jumpAbsolute, 0, some 2, some 2, false⟩, ⟨.returnValue, 2, none, none, true⟩]
    parse s = .ok code ∧ Relation.ReflTransGen Edit s.toList t.toList ∧ parse t = .ok code := by
  intro s t code
  have hs : parse s = .ok code := by decide +kernel
  have hedits : Relation.ReflTransGen Edit s.toList t.toList := by
    have hremark := @Edit.insertRemark [] ["0 JUMP_ABSOLUTE 2".toList, "2 RETURN_VALUE".toList]
      "# loop".toList (by decide +kernel) (by decide +kernel)
    have hlabel := @Edit.changeLine "0 JUMP_ABSOLUTE 2".toList
      "99999999999 0 JUMP_ABSOLUTE 2".toList ["# loop".toList] ["2 RETURN_VALUE".toList]
      (by decide +kernel) (.addLabel (by decide +kernel)
        { ne_nil := by decide +kernel
          number := by decide +kernel
          unlabelled := ⟨['0'], by decide +kernel⟩
          inserts := ⟨[], _, by decide, by decide,
            @Inserts.front _ _ "99999999999".toList (by decide +kernel)⟩ })
    have hreturn := @Edit.endWithReturn ["# loop".toList] []
      "99999999999 0 JUMP_ABSOLUTE 2".toList "2 RETURN_VALUE".toList (by decide +kernel)
    have hmarker := @Edit.changeLine "2 RETURN_VALUE".toList ">> 2 RETURN_VALUE".toList
      ["# loop".toList, "99999999999 0 JUMP_ABSOLUTE 2".toList ++ ['\r']] []
      (by decide +kernel)
      (.addMarker (by decide +kernel) ⟨[], _, by decide, .front (by decide +kernel)⟩)
    have hcomment := @Edit.changeLine ">> 2 RETURN_VALUE".toList
      (">> 2 RETURN_VALUE".toList ++ "(to 0".toList)
      ["# loop".toList, "99999999999 0 JUMP_ABSOLUTE 2".toList ++ ['\r']] []
      (by decide +kernel) (.comment (by decide +kernel) (by decide +kernel) (by decide +kernel)
        fun ⟨target, h⟩ => by
          have hlast := congrArg List.getLast? h
          rw [List.getLast?_concat] at hlast
          revert hlast
          decide +kernel)
    have hlines : s.toList = unlines ["0 JUMP_ABSOLUTE 2".toList, "2 RETURN_VALUE".toList] := by
      decide +kernel
    have hlines' : t.toList = unlines ["# loop".toList,
        "99999999999 0 JUMP_ABSOLUTE 2".toList ++ ['\r'],
        ">> 2 RETURN_VALUE".toList ++ "(to 0".toList] := by
      decide +kernel
    rw [hlines, hlines']
    exact ((((Relation.ReflTransGen.single hremark).tail hlabel).tail hreturn).tail hmarker).tail
      hcomment
  exact ⟨hs, hedits, parse_of_edits hs hedits⟩

end Readings

end Listing

end BytecodeFlow
