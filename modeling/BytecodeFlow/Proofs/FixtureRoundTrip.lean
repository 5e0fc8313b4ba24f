import BytecodeFlow.Proofs.Lines
import BytecodeFlow.Trace.Fixture

/-!
# Fixtures that are read back

A listing, the boundary and the trace of a path are read as the listing's instructions and the
path (`Fixture.parse_renderTrace`). The boundary begins and ends with line feeds, so that a mark
could start before the one that was inserted; but then its middle line would be a line of the
listing, and no accepted listing has that (`Fixture.marker_not_mem_pieces`).
-/

namespace BytecodeFlow

open Text Listing

namespace Fixture

/-! ## The trace of a path -/

/-- A step as the tracer writes it, with the offset ahead. -/
def renderStep (step : Int × String) : String :=
  toString (step.1 + traceBias) ++ " " ++ step.2

/-- The trace of a path, one step a line. -/
def renderTrace (steps : List (Int × String)) : String :=
  "\n".intercalate (steps.map renderStep)

/-- What a trace can hold: an offset that is in range ahead too, and an opcode name that is one
word. -/
structure Traceable (step : Int × String) : Prop where
  least_le : Offset.least ≤ step.1
  ahead_le : step.1 + traceBias ≤ Offset.greatest
  word : IsWord step.2.toList

variable {step : Int × String} {steps : List (Int × String)}

theorem toList_renderStep (step : Int × String) :
    (renderStep step).toList = [' '].intercalate
      [(toString (step.1 + traceBias)).toList, step.2.toList] := by
  simp [renderStep]

theorem Traceable.isWord (h : Traceable step) :
    ∀ word ∈ [(toString (step.1 + traceBias)).toList, step.2.toList], IsWord word := by
  intro word hword
  rcases List.mem_cons.1 hword with rfl | hword
  · exact isWord_toString _
  · cases List.mem_singleton.1 hword
    exact h.word

theorem Traceable.readStep?_renderStep (h : Traceable step) :
    readStep? (renderStep step).toList = some step.1 := by
  have hlow := h.least_le
  have hhigh := h.ahead_le
  simp only [Offset.least, Offset.greatest, traceBias] at hlow hhigh
  have hreported : signed? (toString (step.1 + traceBias)).toList = some (step.1 + traceBias) :=
    signed?_toString (by rw [traceBias]; omega) (by rw [traceBias]; omega)
  rw [toList_renderStep, readStep?, words_intercalate h.isWord]
  show (signed? (toString (step.1 + traceBias)).toList).bind _ = _
  rw [hreported, Option.bind_some, Int.add_sub_cancel, if_pos h.least_le]

theorem Traceable.isTrimmed_renderStep (h : Traceable step) : IsTrimmed (renderStep step).toList := by
  rw [toList_renderStep]
  exact .intercalate _ (by simp) fun _ hword => (h.isWord _ hword).isTrimmed

theorem Traceable.lineFeed_not_mem_renderStep (h : Traceable step) :
    '\n' ∉ (renderStep step).toList := by
  rw [toList_renderStep]
  intro hmem
  rcases mem_intercalate hmem with hmem | ⟨word, hword, hmem⟩
  · simp at hmem
  · exact (h.isWord word hword).not_mem rfl hmem

/-- Lines that say steps are read as the path of these. -/
theorem readPath_renderStep (h : ∀ step ∈ steps, Traceable step) (line : Nat) :
    readPath line (steps.map fun step => (renderStep step).toList) = .ok (steps.map (·.1)) := by
  induction steps generalizing line with
  | nil => rfl
  | cons step rest ih =>
    have hstep := (h step (by simp)).readStep?_renderStep
    have hrest := ih (fun s hs => h s (by simp [hs])) (line + 1)
    simp only [List.map_cons, readPath, hstep, hrest]
    rfl

/-- The lines of a trace are those of its steps, with nothing to trim around them. -/
theorem lines_renderTrace (hne : steps ≠ []) (h : ∀ step ∈ steps, Traceable step) :
    lines (trim (renderTrace steps).toList) = steps.map fun step => (renderStep step).toList := by
  have htext : (renderTrace steps).toList =
      ['\n'].intercalate (steps.map fun step => (renderStep step).toList) := by
    rw [renderTrace, String.toList_intercalate, List.map_map]
    rfl
  have hlines : ∀ line ∈ steps.map fun step => (renderStep step).toList,
      IsTrimmed line ∧ '\n' ∉ line := by
    intro line hline
    obtain ⟨step, hstep, rfl⟩ := List.mem_map.1 hline
    exact ⟨(h step hstep).isTrimmed_renderStep, (h step hstep).lineFeed_not_mem_renderStep⟩
  have htrimmed : IsTrimmed (renderTrace steps).toList := by
    rw [htext]
    exact .intercalate _ (by simpa using hne) fun line hline => (hlines line hline).1
  rw [htrimmed.trim_eq, htext, lines_intercalate hlines]

/-! ## The boundary -/

/-- The line in the middle of the boundary. -/
def marker : List Char := "---162b4a78-0bc7-4966-a4e7-59aa1f784c39".toList

theorem toList_boundary :
    boundary.toList = '\n' :: '\n' :: '\n' :: (marker ++ ['\n', '\n', '\n']) := by
  decide

theorem lineFeed_not_mem_marker : '\n' ∉ marker := by decide

theorem isTrimmed_marker : IsTrimmed marker :=
  ⟨⟨'-', _, rfl, rfl⟩, ⟨marker.dropLast, '9', by decide, rfl⟩⟩

/-- The boundary puts two empty pieces before the marker, and two after it. -/
theorem pieces_boundary (before after : List Char) :
    pieces (· == '\n') (before ++ boundary.toList ++ after) =
      pieces (· == '\n') before ++
        [] :: [] :: marker :: [] :: [] :: pieces (· == '\n') after := by
  have htext : before ++ boundary.toList ++ after =
      before ++ '\n' :: ('\n' :: '\n' :: (marker ++ '\n' :: '\n' :: '\n' :: after)) := by
    simp [toList_boundary]
  have hmarker := pieces_of_not_mem lineFeed_not_mem_marker
  rw [htext, pieces_append_cons rfl, pieces_cons rfl, pieces_cons rfl, pieces_append_cons rfl,
    hmarker, pieces_cons rfl, pieces_cons rfl]
  rfl

/-- Where two empty pieces and a word come first, and come again after some pieces, these have the
word: they are not one or two, as the word would be empty then. -/
theorem mem_of_append_eq {ps s s' : List (List Char)} {w : List Char} (hw : w ≠ [])
    (hne : ps ≠ []) (h : ps ++ [] :: [] :: w :: s = [] :: [] :: w :: s') : w ∈ ps := by
  match ps, hne with
  | [p], _ =>
    simp only [List.cons_append, List.nil_append, List.cons.injEq] at h
    exact absurd h.2.2.1.symm hw
  | [p, q], _ =>
    simp only [List.cons_append, List.nil_append, List.cons.injEq] at h
    exact absurd h.2.2.1.symm hw
  | p :: q :: r :: rest, _ =>
    simp only [List.cons_append, List.cons.injEq] at h
    simp [h.2.2.1]

/-- No line of an accepted listing is the marker. -/
theorem marker_not_mem_pieces {listing : String} {instructions : List Instruction}
    (h : Listing.parse listing = .ok instructions) :
    marker ∉ pieces (· == '\n') listing.toList := by
  intro hmem
  have hline : marker ∈ lines listing.toList :=
    mem_endedLines hmem isTrimmed_marker.ne_nil (by decide)
  have hcode : marker ∈ codeLines (lines listing.toList) := by
    rw [codeLines, List.mem_filter, isTrimmed_marker.trim_eq]
    exact ⟨hline, rfl⟩
  obtain ⟨i, hread⟩ := exists_readLine_of_parse h hcode
  have hfault : readLine marker = .error .missingOffset := by decide +kernel
  rw [isTrimmed_marker.trim_eq, hfault] at hread
  cases hread

/-- A boundary after an accepted listing is the first one. -/
theorem splitOnce_boundary {listing : String} {instructions : List Instruction}
    (h : Listing.parse listing = .ok instructions) (after : List Char) :
    splitOnce boundary.toList (listing.toList ++ boundary.toList ++ after) =
      some (listing.toList, after) := by
  apply splitOnce_append
  intro earlier c rest hlisting hprefix
  obtain ⟨others, hothers⟩ := hprefix
  -- A boundary that starts inside the listing starts with a line feed of it.
  have hc : c = '\n' := by
    rw [toList_boundary] at hothers
    exact (List.cons.inj hothers).1.symm
  subst hc
  have hpieces : pieces (· == '\n') rest ++
      [] :: [] :: marker :: [] :: [] :: pieces (· == '\n') after =
      [] :: [] :: marker :: [] :: [] :: pieces (· == '\n') others := by
    have htext : listing.toList ++ boundary.toList ++ after =
        earlier ++ boundary.toList ++ others := by
      rw [List.append_assoc earlier, hothers, hlisting]
      simp
    have hcut := congrArg (pieces (· == '\n')) htext
    rw [pieces_boundary, pieces_boundary, hlisting, pieces_append_cons rfl,
      List.append_assoc] at hcut
    exact List.append_cancel_left hcut
  have hmarker := mem_of_append_eq isTrimmed_marker.ne_nil (pieces_ne_nil _ _) hpieces
  apply marker_not_mem_pieces h
  rw [hlisting, pieces_append_cons rfl]
  exact List.mem_append_right _ hmarker

/-- A listing and a trace with the boundary between them are read back as the fixture they are
written for. The boundary that is found is the one between them. -/
theorem parse_renderTrace {listing : String} {instructions : List Instruction}
    {steps : List (Int × String)} (h : Listing.parse listing = .ok instructions)
    (hne : steps ≠ []) (hsteps : ∀ step ∈ steps, Traceable step) :
    splitOnce boundary.toList (listing ++ boundary ++ renderTrace steps).toList =
        some (listing.toList, (renderTrace steps).toList) ∧
      parse (listing ++ boundary ++ renderTrace steps) =
        .ok ⟨instructions, steps.map (·.1)⟩ := by
  have hsplit : splitOnce boundary.toList (listing ++ boundary ++ renderTrace steps).toList =
      some (listing.toList, (renderTrace steps).toList) := by
    rw [String.toList_append, String.toList_append]
    exact splitOnce_boundary h _
  have hpath : readPath 1 (lines (trim (renderTrace steps).toList)) = .ok (steps.map (·.1)) := by
    rw [lines_renderTrace hne hsteps]
    exact readPath_renderStep hsteps 1
  refine ⟨hsplit, ?_⟩
  rw [parse, hsplit]
  simp only [String.ofList_toList, h, hpath]
  cases steps with
  | nil => exact absurd rfl hne
  | cons step rest => rfl

/-- The listing ends with line feeds like those that the boundary begins with, and the path goes
through the exit, the least offset and the greatest one that a trace can hold. -/
theorem parse_renderTrace_blankLines :
    let listing := "0 LOAD_CONST 0 (---)\n2 RETURN_VALUE\n\n\n"
    let instructions : List Instruction :=
      [⟨.loadConst, 0, some 0, some 0, false⟩, ⟨.returnValue, 2, none, none, false⟩]
    let steps : List (Int × String) := [(0, "LOAD_CONST"), (2, "RETURN_VALUE"), (-1, "---"),
      (-2147483648, "NOP"), (2147483645, "(to")]
    let trace := "2 LOAD_CONST\n4 RETURN_VALUE\n1 ---\n-2147483646 NOP\n2147483647 (to"
    Listing.parse listing = .ok instructions ∧ steps ≠ [] ∧ (∀ step ∈ steps, Traceable step) ∧
      renderTrace steps = trace ∧
      splitOnce boundary.toList (listing ++ boundary ++ trace).toList =
        some (listing.toList, trace.toList) ∧
      parse (listing ++ boundary ++ trace) =
        .ok ⟨instructions, [0, 2, -1, -2147483648, 2147483645]⟩ := by
  intro listing instructions steps trace
  have hlisting : Listing.parse listing = .ok instructions := by decide +kernel
  have hne : steps ≠ [] := by simp [steps]
  have hsteps : ∀ step ∈ steps, Traceable step := by
    intro step hstep
    simp only [steps, List.mem_cons, List.not_mem_nil, or_false] at hstep
    rcases hstep with rfl | rfl | rfl | rfl | rfl <;>
      exact ⟨by decide, by decide, by decide⟩
  have htrace : renderTrace steps = trace := by decide +kernel
  have hfixture := parse_renderTrace hlisting hne hsteps
  rw [htrace] at hfixture
  exact ⟨hlisting, hne, hsteps, htrace, hfixture⟩

end Fixture

end BytecodeFlow
