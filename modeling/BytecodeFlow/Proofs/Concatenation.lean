import BytecodeFlow.Proofs.Lines

/-!
# Listings one after the other

Which lines of a listing hold instructions and what their numbers are (`Listing.numbered`) is one
question, and how these lines are read is another (`Listing.readNumbered`). Both answers for a text
followed by a line feed and a second text are put together from those for the two texts, so that it
is known what the whole is read for, and which error is reported (`Listing.parse_append`).
-/

namespace BytecodeFlow

open Text

namespace Instruction

theorem jumpTargets_append (code more : List Instruction) :
    jumpTargets (code ++ more) = jumpTargets code ++ jumpTargets more := by
  simp [jumpTargets]

/-- The flags of the parts are overwritten, since either part can jump into the other. -/
theorem markJumpTargets_append (code more : List Instruction) :
    markJumpTargets (markJumpTargets code ++ markJumpTargets more) =
      markJumpTargets (code ++ more) := by
  rw [markJumpTargets, jumpTargets_append, jumpTargets_markJumpTargets, jumpTargets_markJumpTargets]
  simp [markJumpTargets, jumpTargets_append, Function.comp_def]

end Instruction

namespace Listing

/-! ## The lines that hold instructions -/

/-- The trimmed lines that hold an instruction, each with its number, where the first line has
number `line`. -/
def numbered (line : Nat) (texts : List (List Char)) : List (List Char × Nat) :=
  ((texts.map trim).zipIdx line).filter fun x => !isSkipped x.1

/-- The lines of a listing that hold an instruction, trimmed, and their numbers from 1 on. -/
def instructionLines (source : String) : List (List Char × Nat) :=
  numbered 1 (lines source.toList)

/-- The number of lines that come before a text which follows this one after a line feed. -/
def linesBefore (source : String) : Nat :=
  1 + source.toList.count '\n'

section Numbered

variable {line : Nat} {text : List Char} {rest : List (List Char)}

theorem numbered_cons_of_skipped (h : isSkipped (trim text) = true) :
    numbered line (text :: rest) = numbered (line + 1) rest := by
  simp [numbered, h]

theorem numbered_cons (h : isSkipped (trim text) = false) :
    numbered line (text :: rest) = (trim text, line) :: numbered (line + 1) rest := by
  simp [numbered, h]

theorem numbered_append (line : Nat) (xs ys : List (List Char)) :
    numbered line (xs ++ ys) = numbered line xs ++ numbered (line + xs.length) ys := by
  simp [numbered, List.zipIdx_append]

theorem numbered_add (k line : Nat) (texts : List (List Char)) :
    numbered (k + line) texts = (numbered line texts).map fun x => (x.1, k + x.2) := by
  induction texts generalizing line with
  | nil => rfl
  | cons text rest ih =>
    have ih := ih (line + 1)
    rw [← Nat.add_assoc] at ih
    cases h : isSkipped (trim text) with
    | true => rw [numbered_cons_of_skipped h, numbered_cons_of_skipped h, ih]
    | false => rw [numbered_cons h, numbered_cons h, ih, List.map_cons]

/-- The numbers ascend. -/
theorem pairwise_numbered (line : Nat) (texts : List (List Char)) :
    (numbered line texts).Pairwise fun x y => x.2 < y.2 := by
  refine List.Pairwise.filter _ ?_
  rw [← List.pairwise_map, List.zipIdx_map_snd]
  exact List.pairwise_lt_range'

/-- The carriage returns that end lines do not matter, and neither does an empty last line. -/
theorem numbered_endedLines (line : Nat) (ps : List (List Char)) :
    numbered line (endedLines ps) = numbered line ps := by
  induction ps generalizing line with
  | nil => rfl
  | cons piece rest ih =>
    by_cases hrest : rest = []
    · subst hrest
      cases piece with
      | nil => rfl
      | cons c piece => rfl
    · rw [endedLines_cons hrest]
      have htrim := trim_dropReturn piece
      cases h : isSkipped (trim piece) with
      | true =>
        rw [numbered_cons_of_skipped h, numbered_cons_of_skipped (by rw [htrim, h]), ih]
      | false => rw [numbered_cons h, numbered_cons (by rw [htrim, h]), htrim, ih]

theorem instructionLines_eq (source : String) :
    instructionLines source = numbered 1 (pieces (· == '\n') source.toList) :=
  numbered_endedLines 1 _

theorem pairwise_instructionLines (source : String) :
    (instructionLines source).Pairwise fun x y => x.2 < y.2 :=
  pairwise_numbered 1 _

/-- The lines of two texts with a line feed between them: those of the second are numbered on. -/
theorem instructionLines_append (s t : String) :
    instructionLines (s ++ "\n" ++ t) = instructionLines s ++
      (instructionLines t).map fun x => (x.1, linesBefore s + x.2) := by
  have htext : (s ++ "\n" ++ t).toList = s.toList ++ '\n' :: t.toList := by simp
  have hstart : 1 + (s.toList.count '\n' + 1) = linesBefore s + 1 := by
    rw [linesBefore]
    omega
  rw [instructionLines_eq, instructionLines_eq, instructionLines_eq, htext,
    pieces_append_cons rfl, numbered_append, length_pieces, hstart, numbered_add]

end Numbered

/-! ## Reading numbered lines -/

/-- The instruction of a line that comes after one at `previous`. -/
def readAfter (previous : Option Int) (text : List Char) : Except Fault Instruction := do
  let i ← readLine text
  checkOrder previous i.offset
  return i

/-- The instructions of numbered lines, after an instruction at `previous`. -/
def readNumbered (previous : Option Int) :
    List (List Char × Nat) → Except Error (List Instruction)
  | [] => .ok []
  | (text, line) :: rest =>
    match readAfter previous text with
    | .error fault => .error ⟨line, fault⟩
    | .ok i => (readNumbered (some i.offset) rest).map (i :: ·)

theorem readLines_eq_readNumbered (previous : Option Int) (line : Nat)
    (texts : List (List Char)) :
    readLines previous line texts = readNumbered previous (numbered line texts) := by
  induction texts generalizing previous line with
  | nil => rfl
  | cons text rest ih =>
    cases h : isSkipped (trim text) with
    | true => rw [readLines, if_pos h, numbered_cons_of_skipped h, ih]
    | false =>
      rw [numbered_cons h, readLines, if_neg (by simp [h]), readNumbered]
      simp only [ih]
      rfl

theorem parse_eq_readNumbered (source : String) :
    parse source =
      (readNumbered none (instructionLines source)).map Instruction.markJumpTargets := by
  rw [parse, readLines_eq_readNumbered]
  rfl

/-- The offset of the last instruction. -/
def lastOffset (previous : Option Int) (code : List Instruction) : Option Int :=
  (code.getLast?.map (·.offset)).or previous

section Reading

variable {previous : Option Int} {p : Int} {text : List Char} {i : Instruction}
  {ls : List (List Char × Nat)} {code : List Instruction} {m : Nat} {fault : Fault}

@[simp] theorem lastOffset_cons (previous : Option Int) (i : Instruction)
    (code : List Instruction) : lastOffset previous (i :: code) = lastOffset (some i.offset) code := by
  cases code with
  | nil => rfl
  | cons j rest =>
    have hlast := List.getLast?_eq_some_getLast (List.cons_ne_nil j rest)
    simp [lastOffset, List.getLast?_cons_cons, hlast]

@[simp] theorem readAfter_none (text : List Char) : readAfter none text = readLine text := by
  unfold readAfter checkOrder
  cases readLine text <;> rfl

/-- Where the order is kept, what comes before does not matter. -/
theorem readAfter_some (h : ∀ i, readLine text = .ok i → p < i.offset) :
    readAfter (some p) text = readLine text := by
  unfold readAfter checkOrder
  cases hread : readLine text with
  | error fault => rfl
  | ok i => simp [Int.not_le.2 (h i hread)]

theorem readAfter_of_le (hread : readLine text = .ok i) (hle : i.offset ≤ p) :
    readAfter (some p) text = .error (.outOfOrder i.offset p) := by
  simp [readAfter, hread, checkOrder, hle]

theorem readAfter_eq_ok_iff :
    readAfter previous text = .ok i ↔ readLine text = .ok i ∧ ∀ q ∈ previous, q < i.offset := by
  simp only [readAfter, bind_eq_ok_iff, pure_eq_ok, Except.ok.injEq, ← checkOrder_eq_ok_iff]
  constructor
  · rintro ⟨j, hread, _, horder, rfl⟩
    exact ⟨hread, horder⟩
  · rintro ⟨hread, horder⟩
    exact ⟨i, hread, (), horder, rfl⟩

/-- Lines are accepted one after the other. -/
theorem readNumbered_cons_eq_ok_iff {x : List Char × Nat} :
    readNumbered previous (x :: ls) = .ok code ↔ ∃ i more, readAfter previous x.1 = .ok i ∧
      readNumbered (some i.offset) ls = .ok more ∧ code = i :: more := by
  rw [readNumbered]
  cases readAfter previous x.1 with
  | error fault => simp
  | ok i => simp [map_eq_ok_iff, @eq_comm _ code]

/-- Lines are faulty if the first one is, or if it is accepted and the others are faulty. -/
theorem readNumbered_cons_eq_error_iff {x : List Char × Nat} {e : Error} :
    readNumbered previous (x :: ls) = .error e ↔
      (∃ fault, readAfter previous x.1 = .error fault ∧ e = ⟨x.2, fault⟩) ∨
      ∃ i, readAfter previous x.1 = .ok i ∧ readNumbered (some i.offset) ls = .error e := by
  rw [readNumbered]
  cases readAfter previous x.1 with
  | error fault => simp [@eq_comm _ e]
  | ok i => cases h : readNumbered (some i.offset) ls <;> simp [h, Except.map]

/-- The lines after the first ones are read after their last instruction, unless one of them is
faulty. -/
theorem readNumbered_append (previous : Option Int) (ls more : List (List Char × Nat)) :
    readNumbered previous (ls ++ more) = (readNumbered previous ls).bind fun code =>
      (readNumbered (lastOffset previous code) more).map (code ++ ·) := by
  induction ls generalizing previous with
  | nil =>
    show readNumbered previous more = (readNumbered previous more).map id
    cases readNumbered previous more <;> rfl
  | cons x rest ih =>
    rw [List.cons_append, readNumbered, readNumbered]
    cases readAfter previous x.1 with
    | error fault => rfl
    | ok i =>
      simp only [ih]
      cases readNumbered (some i.offset) rest with
      | error e => rfl
      | ok code =>
        simp only [Except.bind, Except.map, lastOffset_cons]
        cases readNumbered (lastOffset (some i.offset) code) more <;> rfl

/-- Other numbers change nothing but the line of an error. -/
theorem readNumbered_map (f : Nat → Nat) (previous : Option Int) (ls : List (List Char × Nat)) :
    readNumbered previous (ls.map fun x => (x.1, f x.2)) =
      (readNumbered previous ls).mapError fun e => ⟨f e.line, e.fault⟩ := by
  induction ls generalizing previous with
  | nil => rfl
  | cons x rest ih =>
    rw [List.map_cons, readNumbered, readNumbered]
    cases readAfter previous x.1 with
    | error fault => rfl
    | ok i =>
      simp only [ih]
      cases readNumbered (some i.offset) rest <;> rfl

/-- The error that is reported is the first one: the lines before it are accepted. -/
theorem exists_of_readNumbered_eq_error (h : readNumbered previous ls = .error ⟨m, fault⟩) :
    ∃ before text after code, ls = before ++ (text, m) :: after ∧
      readNumbered previous before = .ok code ∧
      readAfter (lastOffset previous code) text = .error fault := by
  induction ls generalizing previous with
  | nil => cases h
  | cons x rest ih =>
    rcases readNumbered_cons_eq_error_iff.1 h with ⟨_, hafter, heq⟩ | ⟨i, hafter, hrest⟩
    · cases heq
      exact ⟨[], x.1, rest, [], rfl, rfl, by simpa [lastOffset] using hafter⟩
    · obtain ⟨before, text, after, code, rfl, hbefore, hfault⟩ := ih hrest
      exact ⟨x :: before, text, after, i :: code, rfl,
        readNumbered_cons_eq_ok_iff.2 ⟨i, code, hafter, hbefore, rfl⟩, by simpa using hfault⟩

/-- Accepted lines hold instructions after the one before them. -/
theorem exists_readLine_of_readNumbered (h : readNumbered previous ls = .ok code)
    {x : List Char × Nat} (hx : x ∈ ls) :
    ∃ i, readLine x.1 = .ok i ∧ ∀ q ∈ previous, q < i.offset := by
  induction ls generalizing previous code with
  | nil => cases hx
  | cons y rest ih =>
    obtain ⟨j, more, hafter, hrest, rfl⟩ := readNumbered_cons_eq_ok_iff.1 h
    obtain ⟨hread, horder⟩ := readAfter_eq_ok_iff.1 hafter
    rcases List.mem_cons.1 hx with rfl | hx
    · exact ⟨j, hread, horder⟩
    · obtain ⟨i, hread, hlater⟩ := ih hrest hx
      exact ⟨i, hread, fun q hq => Int.lt_trans (horder q hq) (hlater _ rfl)⟩

/-- The first instruction is that of the first line. -/
theorem head?_of_readNumbered (h : readNumbered previous ls = .ok code) :
    ls.head?.map (fun x => readLine x.1) = code.head?.map .ok := by
  cases ls with
  | nil =>
    cases h
    rfl
  | cons x rest =>
    obtain ⟨i, more, hafter, _, rfl⟩ := readNumbered_cons_eq_ok_iff.1 h
    rw [List.head?_cons, Option.map_some, (readAfter_eq_ok_iff.1 hafter).1]
    rfl

/-! ## Reading on -/

/-- Lines are read on as from the start, if their first instruction keeps the order. -/
theorem readNumbered_eq_none (h : ∀ p ∈ previous, ∀ x ∈ ls.head?, ∀ i, readLine x.1 = .ok i →
    p < i.offset) : readNumbered previous ls = readNumbered none ls := by
  cases previous with
  | none => rfl
  | some p =>
    cases ls with
    | nil => rfl
    | cons x rest => rw [readNumbered, readNumbered, readAfter_some (h p rfl x rfl), readAfter_none]

/-- Lines are refused at once if their first instruction does not keep the order. -/
theorem readNumbered_of_le {x : List Char × Nat} (hx : ls.head? = some x)
    (hread : readLine x.1 = .ok i) (hle : i.offset ≤ p) :
    readNumbered (some p) ls = .error ⟨x.2, .outOfOrder i.offset p⟩ := by
  obtain ⟨rest, rfl⟩ := List.head?_eq_some_iff.1 hx
  rw [readNumbered, readAfter_of_le hread hle]

/-- The lines before an error are accepted. -/
theorem exists_readLine_before_error (hnumbers : ls.Pairwise fun x y => x.2 < y.2)
    (h : readNumbered previous ls = .error ⟨m, fault⟩) {x : List Char × Nat} (hx : x ∈ ls)
    (hlt : x.2 < m) : ∃ i, readLine x.1 = .ok i ∧ ∀ q ∈ previous, q < i.offset := by
  obtain ⟨before, text, after, code, rfl, hbefore, _⟩ := exists_of_readNumbered_eq_error h
  rw [List.pairwise_append, List.pairwise_cons] at hnumbers
  obtain ⟨_, ⟨hafter, _⟩, _⟩ := hnumbers
  rcases List.mem_append.1 hx with hx | hx
  · exact exists_readLine_of_readNumbered hbefore hx
  · rcases List.mem_cons.1 hx with rfl | hx
    · exact absurd hlt (Nat.lt_irrefl m)
    · exact absurd (hafter x hx) (Nat.lt_asymm hlt)

/-- If the first line is accepted, an error comes later. -/
theorem lt_of_readNumbered_eq_error (hnumbers : ls.Pairwise fun x y => x.2 < y.2)
    (h : readNumbered none ls = .error ⟨m, fault⟩) {x : List Char × Nat} (hx : ls.head? = some x)
    (hread : readLine x.1 = .ok i) : x.2 < m := by
  obtain ⟨before, text, after, code, rfl, hbefore, hfault⟩ := exists_of_readNumbered_eq_error h
  cases before with
  | nil =>
    cases hx
    cases hbefore
    have hfault : readLine text = .error fault := by simpa [lastOffset] using hfault
    rw [hread] at hfault
    cases hfault
  | cons first before =>
    cases hx
    rw [List.cons_append, List.pairwise_cons] at hnumbers
    exact hnumbers.1 (text, m) (by simp)

/-- No line before an error holds an instruction before that of the first line. -/
theorem exists_head_le_of_lt (hnumbers : ls.Pairwise fun x y => x.2 < y.2)
    (h : readNumbered none ls = .error ⟨m, fault⟩) {y : List Char × Nat} (hy : y ∈ ls)
    (hlt : y.2 < m) {j : Instruction} (hj : readLine y.1 = .ok j) :
    ∃ x i, ls.head? = some x ∧ readLine x.1 = .ok i ∧ i.offset ≤ j.offset := by
  cases ls with
  | nil => cases hy
  | cons x rest =>
    rcases List.mem_cons.1 hy with rfl | hy
    · exact ⟨y, j, rfl, hj, Int.le_refl _⟩
    · obtain ⟨hfirst, hrest⟩ := List.pairwise_cons.1 hnumbers
      have hx : x.2 < m := Nat.lt_trans (hfirst y hy) hlt
      rcases readNumbered_cons_eq_error_iff.1 h with ⟨_, _, heq⟩ | ⟨i, hafter, herror⟩
      · cases heq
        exact absurd hx (Nat.lt_irrefl _)
      · obtain ⟨j', hj', hlater⟩ := exists_readLine_before_error hrest herror hy hlt
        rw [hj] at hj'
        cases hj'
        exact ⟨x, i, rfl, (readAfter_eq_ok_iff.1 hafter).1, Int.le_of_lt (hlater _ rfl)⟩

end Reading

/-! ## Two listings -/

/-- A line before line `m` of a listing holds an instruction that is not after `p`. -/
def OvertakenBefore (source : String) (m : Nat) (p : Int) : Prop :=
  ∃ x ∈ instructionLines source, x.2 < m ∧ ∃ i ∈ (readLine x.1).toOption, i.offset ≤ p

instance (source : String) (m : Nat) (p : Int) : Decidable (OvertakenBefore source m p) :=
  inferInstanceAs (Decidable (∃ x ∈ instructionLines source, _))

section Append

variable {s t : String} {e : Error} {code : List Instruction}

theorem exists_readNumbered_of_parse (h : parse s = .ok code) :
    ∃ raw, readNumbered none (instructionLines s) = .ok raw ∧
      code = Instruction.markJumpTargets raw := by
  rw [parse_eq_readNumbered] at h
  obtain ⟨raw, hraw, hcode⟩ := map_eq_ok_iff.1 h
  exact ⟨raw, hraw, hcode.symm⟩

theorem readNumbered_of_parse_eq_error (h : parse s = .error e) :
    readNumbered none (instructionLines s) = .error e := by
  rw [parse_eq_readNumbered] at h
  cases hread : readNumbered none (instructionLines s) with
  | error e' =>
    rw [hread] at h
    exact h
  | ok raw =>
    rw [hread] at h
    cases h

/-- An error in the first text is reported. -/
theorem parse_append_of_error (h : parse s = .error e) (t : String) :
    parse (s ++ "\n" ++ t) = .error e := by
  rw [parse_eq_readNumbered, instructionLines_append, readNumbered_append,
    readNumbered_of_parse_eq_error h]
  rfl

/-- The second text is read on after the last instruction of the first. -/
theorem parse_append_of_ok (h : readNumbered none (instructionLines s) = .ok code) (t : String) :
    parse (s ++ "\n" ++ t) =
      (((readNumbered (lastOffset none code) (instructionLines t)).mapError fun e =>
        ⟨linesBefore s + e.line, e.fault⟩).map (code ++ ·)).map
        Instruction.markJumpTargets := by
  rw [parse_eq_readNumbered, instructionLines_append, readNumbered_append, h,
    ← readNumbered_map fun n => linesBefore s + n]
  rfl

theorem lastOffset_markJumpTargets (code : List Instruction) :
    (Instruction.markJumpTargets code).getLast?.map (·.offset) = lastOffset none code := by
  simp [lastOffset, Instruction.markJumpTargets, Function.comp_def]

theorem head?_markJumpTargets (code : List Instruction) :
    (Instruction.markJumpTargets code).head?.map (·.offset) = code.head?.map (·.offset) := by
  simp [Instruction.markJumpTargets, Function.comp_def]

/-- Reading two texts with a line feed between them. An error in the first is reported. Where both
are accepted, so is the whole, with the flags computed anew, unless the first instruction of the
second is not after the last of the first: that is then the error, and the lines of the second text
are numbered on. So they are where only the second text has an error. That is reported, unless some
instruction before it is not after the last of the first text: then the first line of the second
text that holds an instruction is out of order. -/
theorem parse_append (s t : String) :
    (∀ e, parse s = .error e → parse (s ++ "\n" ++ t) = .error e) ∧
    (∀ a b, parse s = .ok a → parse t = .ok b →
      ((∀ p ∈ a.getLast?.map (·.offset), ∀ q ∈ b.head?.map (·.offset), p < q) →
        parse (s ++ "\n" ++ t) = .ok (Instruction.markJumpTargets (a ++ b))) ∧
      ∀ p q, a.getLast?.map (·.offset) = some p → b.head?.map (·.offset) = some q → q ≤ p →
        ∃ x i, (instructionLines t).head? = some x ∧ readLine x.1 = .ok i ∧ i.offset = q ∧
          parse (s ++ "\n" ++ t) = .error ⟨linesBefore s + x.2, .outOfOrder q p⟩) ∧
    ∀ a m fault, parse s = .ok a → parse t = .error ⟨m, fault⟩ →
      ((∀ p ∈ a.getLast?.map (·.offset), ¬ OvertakenBefore t m p) →
        parse (s ++ "\n" ++ t) = .error ⟨linesBefore s + m, fault⟩) ∧
      ∀ p, a.getLast?.map (·.offset) = some p → OvertakenBefore t m p →
        ∃ x i, (instructionLines t).head? = some x ∧ readLine x.1 = .ok i ∧
          parse (s ++ "\n" ++ t) = .error ⟨linesBefore s + x.2, .outOfOrder i.offset p⟩ := by
  refine ⟨fun e he => parse_append_of_error he t, ?_, ?_⟩
  · intro a b ha hb
    obtain ⟨code, hcode, rfl⟩ := exists_readNumbered_of_parse ha
    obtain ⟨more, hmore, rfl⟩ := exists_readNumbered_of_parse hb
    have hwhole := parse_append_of_ok hcode t
    have hfirst := head?_of_readNumbered hmore
    rw [lastOffset_markJumpTargets, head?_markJumpTargets]
    constructor
    · intro horder
      rw [hwhole, readNumbered_eq_none, hmore, Instruction.markJumpTargets_append]
      · rfl
      · intro p hp x hx i hi
        rw [Option.mem_def.1 hx, Option.map_some, hi] at hfirst
        obtain ⟨j, hj, hij⟩ := Option.map_eq_some_iff.1 hfirst.symm
        cases hij
        exact horder p hp _ (Option.mem_map_of_mem _ hj)
    · intro p q hp hq hle
      obtain ⟨i, hi, rfl⟩ := Option.map_eq_some_iff.1 hq
      rw [hi, Option.map_some] at hfirst
      obtain ⟨x, hx, hread⟩ := Option.map_eq_some_iff.1 hfirst
      refine ⟨x, i, hx, hread, rfl, ?_⟩
      rw [hwhole, hp, readNumbered_of_le hx hread hle]
      rfl
  · intro a m fault ha ht
    obtain ⟨code, hcode, rfl⟩ := exists_readNumbered_of_parse ha
    have hwhole := parse_append_of_ok hcode t
    have herror := readNumbered_of_parse_eq_error ht
    have hnumbers := pairwise_instructionLines t
    rw [lastOffset_markJumpTargets]
    constructor
    · intro hkept
      rw [hwhole, readNumbered_eq_none, herror]
      · rfl
      · intro p hp x hx i hread
        by_contra hle
        have hlt := lt_of_readNumbered_eq_error hnumbers herror hx hread
        exact hkept p hp
          ⟨x, List.mem_of_head? hx, hlt, i, mem_toOption_iff.2 hread, Int.not_lt.1 hle⟩
    · intro p hp hovertaken
      obtain ⟨y, hy, hlt, j, hj, hle⟩ := hovertaken
      obtain ⟨x, i, hx, hread, hfirst⟩ :=
        exists_head_le_of_lt hnumbers herror hy hlt (mem_toOption_iff.1 hj)
      refine ⟨x, i, hx, hread, ?_⟩
      rw [hwhole, hp, readNumbered_of_le hx hread (Int.le_trans hfirst hle)]
      rfl

/-- The first text ends with a line feed and so has five lines. The jump of the second one flags the
instruction at 2 of the first, and the loop of the first flags that at 8 of the second. -/
theorem parse_append_fiveLines :
    let s := "# loop\n0 SETUP_LOOP 6 (to 8)\r\n\n  2 NOP\n"
    let a : List Instruction :=
      [⟨.setupLoop, 0, some 6, some 8, false⟩, ⟨.nop, 2, none, none, false⟩]
    let b : List Instruction :=
      [⟨.jumpAbsolute, 4, some 2, some 2, false⟩, ⟨.returnValue, 8, none, none, false⟩]
    parse s = .ok a ∧
    parse "\n4 JUMP_ABSOLUTE 2\n8 RETURN_VALUE" = .ok b ∧
    parse (s ++ "\n" ++ "\n4 JUMP_ABSOLUTE 2\n8 RETURN_VALUE") =
      .ok [⟨.setupLoop, 0, some 6, some 8, false⟩, ⟨.nop, 2, none, none, true⟩,
        ⟨.jumpAbsolute, 4, some 2, some 2, false⟩, ⟨.returnValue, 8, none, none, true⟩] ∧
    parse (s ++ "\n" ++ "\n2 JUMP_ABSOLUTE 2") = .error ⟨7, .outOfOrder 2 2⟩ ∧
    parse (s ++ "\n" ++ "4 NOP\n6 JUMP\n") = .error ⟨7, .unknownOpcode "JUMP"⟩ ∧
    parse (s ++ "\n" ++ "2 NOP\n6 JUMP\n") = .error ⟨6, .outOfOrder 2 2⟩ ∧
    parse ("2 NOP\n6 JUMP\n" ++ "\n" ++ s) = .error ⟨2, .unknownOpcode "JUMP"⟩ := by
  intro s a b
  have hs : parse s = .ok a := by decide +kernel
  have hk : linesBefore s = 5 := by decide +kernel
  have hb : parse "\n4 JUMP_ABSOLUTE 2\n8 RETURN_VALUE" = .ok b := by decide +kernel
  refine ⟨hs, hb, ?_, ?_, ?_, ?_, ?_⟩
  · rw [((parse_append s _).2.1 a b hs hb).1 (by decide)]
    rfl
  · have ht : parse "\n2 JUMP_ABSOLUTE 2" = .ok [⟨.jumpAbsolute, 2, some 2, some 2, true⟩] := by
      decide +kernel
    obtain ⟨x, i, hx, _, _, hwhole⟩ := ((parse_append s _).2.1 a _ hs ht).2 2 2 rfl rfl (by decide)
    have hline : (instructionLines "\n2 JUMP_ABSOLUTE 2").head?.map (·.2) = some 2 := by
      decide +kernel
    rw [hx, Option.map_some, Option.some_inj] at hline
    rw [hwhole, hk, hline]
  · have ht : parse "4 NOP\n6 JUMP\n" = .error ⟨2, .unknownOpcode "JUMP"⟩ := by decide +kernel
    have hkept : ¬ OvertakenBefore "4 NOP\n6 JUMP\n" 2 2 := by decide +kernel
    have hwhole := ((parse_append s _).2.2 a 2 _ hs ht).1 fun p hp => by
      cases hp
      exact hkept
    rw [hwhole, hk]
  · have ht : parse "2 NOP\n6 JUMP\n" = .error ⟨2, .unknownOpcode "JUMP"⟩ := by decide +kernel
    have hovertaken : OvertakenBefore "2 NOP\n6 JUMP\n" 2 2 := by decide +kernel
    obtain ⟨x, i, hx, hread, hwhole⟩ := ((parse_append s _).2.2 a 2 _ hs ht).2 2 rfl hovertaken
    have hline : (instructionLines "2 NOP\n6 JUMP\n").head? = some ("2 NOP".toList, 1) := by
      decide +kernel
    have htwo : readLine "2 NOP".toList = .ok ⟨.nop, 2, none, none, false⟩ := by decide +kernel
    rw [hx, Option.some_inj] at hline
    subst hline
    rw [htwo] at hread
    cases hread
    rw [hwhole, hk]
    rfl
  · exact (parse_append _ s).1 _ (by decide +kernel)

end Append

end Listing

end BytecodeFlow
