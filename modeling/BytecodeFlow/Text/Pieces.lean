import BytecodeFlow.Text.Blank

/-!
# Cutting a text into pieces

`pieces p` cuts a text at every character that satisfies `p`; words and lines are both read off
it. Cutting distributes over a separator (`pieces_append_cons`), which is what makes listings
concatenate. Pieces with a separator between them are read back (`pieces_intercalate`), and so are
words with blanks and lines with line feeds between them (`words_intercalate`,
`lines_intercalate`). `splitOnce` cuts at the first occurrence of a whole
word.
-/

namespace BytecodeFlow.Text

/-- Puts a character in front of the first piece. -/
def growFirst (c : Char) : List (List Char) → List (List Char)
  | [] => [[c]]
  | piece :: rest => (c :: piece) :: rest

/-- The pieces between the characters that satisfy `p`, empty ones included: a text with `n`
such characters has `n + 1` pieces. -/
def pieces (p : Char → Bool) : List Char → List (List Char)
  | [] => [[]]
  | c :: cs => if p c then [] :: pieces p cs else growFirst c (pieces p cs)

/-- The maximal runs without a blank. -/
def words (cs : List Char) : List (List Char) :=
  (pieces isBlank cs).filter fun piece => !piece.isEmpty

/-- The text without one carriage return at its end. -/
def dropReturn (cs : List Char) : List Char :=
  if cs.getLast? = some '\r' then cs.dropLast else cs

/-- The lines among the pieces between line feeds. A piece that a line feed ends loses one
carriage return; the last piece is ended by none, and is no line when it is empty. -/
def endedLines : List (List Char) → List (List Char)
  | [] => []
  | [last] => if last.isEmpty then [] else [last]
  | piece :: rest => dropReturn piece :: endedLines rest

/-- The lines of a text, without their ends. -/
def lines (cs : List Char) : List (List Char) :=
  endedLines (pieces (· == '\n') cs)

/-- What stands before and after the first occurrence of `mark`. -/
def splitOnce (mark : List Char) : List Char → Option (List Char × List Char)
  | [] => if mark.isEmpty then some ([], []) else none
  | c :: cs =>
    if mark.isPrefixOf (c :: cs) then some ([], (c :: cs).drop mark.length)
    else (splitOnce mark cs).map fun (before, after) => (c :: before, after)

/-! ## Pieces -/

theorem pieces_ne_nil (p : Char → Bool) (cs : List Char) : pieces p cs ≠ [] := by
  cases cs with
  | nil => simp [pieces]
  | cons c cs =>
    rw [pieces]
    split
    · simp
    · cases pieces p cs <;> simp [growFirst]

theorem growFirst_append {c : Char} {ps : List (List Char)} (h : ps ≠ []) (qs : List (List Char)) :
    growFirst c (ps ++ qs) = growFirst c ps ++ qs := by
  cases ps with
  | nil => exact absurd rfl h
  | cons => rfl

/-- A separator splits the cutting in two. -/
theorem pieces_append_cons {p : Char → Bool} {c : Char} (hc : p c = true) (as bs : List Char) :
    pieces p (as ++ c :: bs) = pieces p as ++ pieces p bs := by
  induction as with
  | nil => simp [pieces, hc]
  | cons a as ih =>
    simp only [List.cons_append, pieces, ih]
    split
    · rfl
    · exact growFirst_append (pieces_ne_nil p as) _

theorem pieces_cons {p : Char → Bool} {c : Char} (hc : p c = true) (cs : List Char) :
    pieces p (c :: cs) = [] :: pieces p cs :=
  pieces_append_cons hc [] cs

/-- A text without separators is one piece. -/
theorem pieces_of_forall_not {p : Char → Bool} {cs : List Char} (h : ∀ c ∈ cs, p c = false) :
    pieces p cs = [cs] := by
  induction cs with
  | nil => rfl
  | cons c cs ih =>
    have hc : p c = false := h c (by simp)
    rw [pieces, ih fun d hd => h d (by simp [hd])]
    simp [hc, growFirst]

theorem beq_eq_false_of_not_mem {c : Char} {cs : List Char} (h : c ∉ cs) :
    ∀ d ∈ cs, (d == c) = false := by
  intro d hd
  rw [beq_eq_false_iff_ne]
  rintro rfl
  exact h hd

theorem pieces_of_not_mem {c : Char} {cs : List Char} (h : c ∉ cs) : pieces (· == c) cs = [cs] :=
  pieces_of_forall_not (beq_eq_false_of_not_mem h)

/-- There is one piece more than there are separators. -/
theorem length_pieces (c : Char) (cs : List Char) :
    (pieces (· == c) cs).length = cs.count c + 1 := by
  induction cs with
  | nil => rfl
  | cons d cs ih =>
    rw [pieces, List.count_cons]
    split
    · simp [ih]
    · obtain ⟨piece, rest, hpieces⟩ := List.exists_cons_of_ne_nil (pieces_ne_nil (· == c) cs)
      rw [hpieces] at ih
      simpa [hpieces, growFirst] using ih

/-- Pieces with a separator between them are read back. -/
theorem pieces_intercalate {p : Char → Bool} {sep : Char} (hsep : p sep = true)
    {ls : List (List Char)} (hne : ls ≠ []) (h : ∀ l ∈ ls, ∀ c ∈ l, p c = false) :
    pieces p ([sep].intercalate ls) = ls := by
  induction ls with
  | nil => exact absurd rfl hne
  | cons l rest ih =>
    have hl : pieces p l = [l] := pieces_of_forall_not (h l (by simp))
    cases rest with
    | nil => simpa using hl
    | cons next rest =>
      have ih := ih (by simp) fun m hm => h m (by simp [hm])
      rw [List.intercalate_cons_cons, List.append_assoc, List.singleton_append,
        pieces_append_cons hsep, hl, ih]
      rfl

theorem mem_intercalate {sep : List Char} {ls : List (List Char)} {c : Char}
    (h : c ∈ sep.intercalate ls) : c ∈ sep ∨ ∃ l ∈ ls, c ∈ l := by
  induction ls with
  | nil => cases h
  | cons l rest ih =>
    cases rest with
    | nil => exact .inr ⟨l, by simp, by simpa using h⟩
    | cons next rest =>
      rw [List.intercalate_cons_cons, List.mem_append, List.mem_append] at h
      rcases h with (h | h) | h
      · exact .inr ⟨l, by simp, h⟩
      · exact .inl h
      · refine (ih h).imp_right fun hlater => ?_
        obtain ⟨m, hm, hc⟩ := hlater
        exact ⟨m, by simp [hm], hc⟩

/-! ## Words -/

/-- The text is not empty and has no blanks. -/
structure IsWord (w : List Char) : Prop where
  ne_nil : w ≠ []
  noBlank (c : Char) : c ∈ w → isBlank c = false

theorem isWord_iff {w : List Char} : IsWord w ↔ w ≠ [] ∧ w.all (!isBlank ·) = true := by
  constructor
  · intro h
    exact ⟨h.ne_nil, by simpa using h.noBlank⟩
  · intro h
    exact ⟨h.1, by simpa using h.2⟩

instance (w : List Char) : Decidable (IsWord w) := decidable_of_iff _ isWord_iff.symm

theorem IsWord.isTrimmed {w : List Char} (h : IsWord w) : IsTrimmed w := by
  obtain ⟨hne, hblank⟩ := h
  constructor
  · cases w with
    | nil => exact absurd rfl hne
    | cons c rest => exact ⟨c, rest, rfl, hblank c (by simp)⟩
  · refine ⟨w.dropLast, w.getLast hne, (List.dropLast_concat_getLast hne).symm, ?_⟩
    exact hblank _ (List.getLast_mem hne)

theorem IsWord.not_mem {w : List Char} (h : IsWord w) {c : Char} (hc : isBlank c = true) :
    c ∉ w := by
  intro hmem
  rw [h.noBlank c hmem] at hc
  cases hc

@[simp] theorem words_nil : words [] = [] := rfl

/-- A blank separates words. -/
theorem words_append_cons {c : Char} (hc : isBlank c = true) (as bs : List Char) :
    words (as ++ c :: bs) = words as ++ words bs := by
  rw [words, pieces_append_cons hc, List.filter_append, words, words]

theorem words_blank_append {gap : List Char} (h : ∀ c ∈ gap, isBlank c = true) (cs : List Char) :
    words (gap ++ cs) = words cs := by
  induction gap with
  | nil => rfl
  | cons c gap ih =>
    have hc : isBlank c = true := h c (by simp)
    have hsplit : words (c :: (gap ++ cs)) = words [] ++ words (gap ++ cs) :=
      words_append_cons hc [] (gap ++ cs)
    rw [List.cons_append, hsplit, words_nil, List.nil_append, ih fun d hd => h d (by simp [hd])]

/-- A gap separates words, and between texts of which one is empty there need not be one. -/
theorem words_append_gap {as gap bs : List Char} (h : ∀ c ∈ gap, isBlank c = true)
    (hne : as ≠ [] → bs ≠ [] → gap ≠ []) : words (as ++ gap ++ bs) = words as ++ words bs := by
  rw [List.append_assoc]
  cases gap with
  | nil =>
    by_cases has : as = []
    · simp [has]
    · have hbs : bs = [] := Classical.byContradiction fun hbs => hne has hbs rfl
      simp [hbs]
  | cons c gap =>
    rw [List.cons_append, words_append_cons (h c (by simp)),
      words_blank_append fun d hd => h d (by simp [hd])]

theorem IsWord.words_eq {w : List Char} (h : IsWord w) : words w = [w] := by
  rw [words, pieces_of_forall_not h.noBlank]
  simp [h.ne_nil]

/-- What is not blank starts a word. -/
theorem words_cons {c : Char} (hc : isBlank c = false) (cs : List Char) :
    ∃ w ws, words (c :: cs) = (c :: w) :: ws := by
  obtain ⟨piece, rest, hpieces⟩ := List.exists_cons_of_ne_nil (pieces_ne_nil isBlank cs)
  refine ⟨piece, rest.filter fun piece => !piece.isEmpty, ?_⟩
  rw [words, pieces, if_neg (by simp [hc]), hpieces, growFirst, List.filter_cons_of_pos (by rfl)]

/-- Words with a space between them are read back. -/
theorem words_intercalate {ws : List (List Char)} (h : ∀ w ∈ ws, IsWord w) :
    words ([' '].intercalate ws) = ws := by
  by_cases hne : ws = []
  · subst hne
    rfl
  · rw [words, pieces_intercalate rfl hne fun w hw => (h w hw).noBlank, List.filter_eq_self]
    intro w hw
    simpa using (h w hw).ne_nil

/-! ## Lines -/

theorem endedLines_cons {rest : List (List Char)} (h : rest ≠ []) (piece : List Char) :
    endedLines (piece :: rest) = dropReturn piece :: endedLines rest := by
  cases rest with
  | nil => exact absurd rfl h
  | cons next rest => rfl

/-- A piece between line feeds is a line, unless it is empty or a carriage return ends it. -/
theorem mem_endedLines {ps : List (List Char)} {piece : List Char} (h : piece ∈ ps)
    (hne : piece ≠ []) (hreturn : piece.getLast? ≠ some '\r') : piece ∈ endedLines ps := by
  induction ps with
  | nil => cases h
  | cons first rest ih =>
    by_cases hrest : rest = []
    · subst hrest
      cases List.mem_singleton.1 h
      simp [endedLines, hne]
    · rw [endedLines_cons hrest, List.mem_cons]
      rcases List.mem_cons.1 h with rfl | h
      · left
        rw [dropReturn, if_neg hreturn]
      · exact .inr (ih h)

theorem dropReturn_of_isTrimmed {cs : List Char} (h : IsTrimmed cs) : dropReturn cs = cs := by
  obtain ⟨before, c, rfl, hc⟩ := h.last
  have hne : c ≠ '\r' := by
    rintro rfl
    cases hc
  simp [dropReturn, hne]

/-- A carriage return is a blank, so that it does not show after trimming. -/
theorem trim_dropReturn (cs : List Char) : trim (dropReturn cs) = trim cs := by
  rw [dropReturn]
  split
  · rename_i hlast
    obtain ⟨before, rfl⟩ := List.getLast?_eq_some_iff.1 hlast
    rw [List.dropLast_concat, trim_append_right (by simp)]
  · rfl

/-- Lines with a line feed between them are the pieces between line feeds. -/
theorem pieces_intercalate_lineFeed {ls : List (List Char)} (hne : ls ≠ [])
    (h : ∀ l ∈ ls, '\n' ∉ l) : pieces (· == '\n') (['\n'].intercalate ls) = ls :=
  pieces_intercalate rfl hne fun l hl => beq_eq_false_of_not_mem (h l hl)

theorem endedLines_of_isTrimmed {ls : List (List Char)} (h : ∀ l ∈ ls, IsTrimmed l) :
    endedLines ls = ls := by
  induction ls with
  | nil => rfl
  | cons l rest ih =>
    have hl := h l (by simp)
    by_cases hrest : rest = []
    · simp [hrest, endedLines, hl.ne_nil]
    · rw [endedLines_cons hrest, dropReturn_of_isTrimmed hl, ih fun m hm => h m (by simp [hm])]

/-- Lines with a line feed between them are read back. -/
theorem lines_intercalate {ls : List (List Char)} (h : ∀ l ∈ ls, IsTrimmed l ∧ '\n' ∉ l) :
    lines (['\n'].intercalate ls) = ls := by
  by_cases hne : ls = []
  · subst hne
    rfl
  · rw [lines, pieces_intercalate_lineFeed hne fun l hl => (h l hl).2,
      endedLines_of_isTrimmed fun l hl => (h l hl).1]

/-! ## The first occurrence of a mark -/

/-- A text is cut at a mark that starts nowhere before. -/
theorem splitOnce_append {mark before after : List Char}
    (h : ∀ earlier c rest, before = earlier ++ c :: rest →
      ¬ mark <+: c :: rest ++ mark ++ after) :
    splitOnce mark (before ++ mark ++ after) = some (before, after) := by
  induction before with
  | nil =>
    cases hcs : mark ++ after with
    | nil =>
      obtain ⟨rfl, rfl⟩ := List.append_eq_nil_iff.1 hcs
      rfl
    | cons d ds =>
      have hprefix : mark.isPrefixOf (d :: ds) = true := by
        rw [← hcs]
        simp
      rw [List.nil_append, hcs, splitOnce, if_pos hprefix, ← hcs, List.drop_left]
  | cons c before ih =>
    have hprefix : ¬ mark.isPrefixOf (c :: (before ++ mark ++ after)) = true := by
      rw [List.isPrefixOf_iff_prefix]
      exact h [] c before rfl
    have ih := ih fun earlier d rest hbefore => h (c :: earlier) d rest (by rw [hbefore]; rfl)
    rw [List.cons_append, List.cons_append, splitOnce, if_neg hprefix, ih]
    rfl

end BytecodeFlow.Text
