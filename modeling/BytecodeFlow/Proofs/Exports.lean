import BytecodeFlow.Diagram.Dot
import BytecodeFlow.Diagram.Mermaid
import BytecodeFlow.Proofs.Drawings
import BytecodeFlow.Proofs.Tables

/-!
# The exports of a graph

A graph is exported as a Mermaid flowchart and as a DOT graph. The one is drawn by looking nodes up
and the other from the list of nodes; both draw the outline (`Graph.toMermaid_eq_render`,
`Graph.toDot_eq_render`). Both are legible, so that graphs have the same flowchart, the same DOT
text and the same outline, or none of them (`Graph.exports_agree`).
-/

namespace BytecodeFlow

open Text Mermaid

/-- A text in which a character does not occur is not changed by replacing that character. -/
theorem flatMap_replace_of_not_mem {mark : Char} {replacement text : List Char} (h : mark ∉ text) :
    text.flatMap (fun c => if c = mark then replacement else [c]) = text := by
  induction text with
  | nil => rfl
  | cons c rest ih =>
    rw [List.mem_cons, not_or] at h
    rw [List.flatMap_cons, if_neg (Ne.symm h.1), ih h.2]
    rfl

/-- No character of a text has a property, if a check of them all says so. -/
theorem eq_false_of_all {p : Char → Bool} {text : List Char} (h : text.all (fun c => !p c) = true) :
    ∀ c ∈ text, p c = false := by
  simpa using h

/-- The characters that end a line or a part of it. -/
def isBreak (c : Char) : Bool := c == '"' || c == '\n'

/-- The characters that part what a line says. None of them occurs in an offset, in the name of a
node or in a shown instruction. -/
def isMark (c : Char) : Bool := isBreak c || c == '>'

section Marks

variable {c : Char}

theorem isBreak_of_isMark_eq_false (h : isMark c = false) : isBreak c = false :=
  (Bool.or_eq_false_iff.1 h).1

theorem isMark_iff : isMark c = true ↔ c = '"' ∨ c = '\n' ∨ c = '>' := by
  simp [isMark, isBreak, or_assoc]

theorem isMark_of_mem_toString {n : Int} (h : c ∈ (toString n).toList) : isMark c = false := by
  rw [← Bool.not_eq_true, isMark_iff]
  rcases isDigit_or_eq_minus_of_mem_toString h with hdigit | rfl
  · rintro (rfl | rfl | rfl) <;> cases hdigit
  · decide

theorem Sketch.Proper.isMark_of_mem_shown {s : Sketch} (hs : s.Proper) (h : c ∈ s.shown.toList) :
    isMark c = false := by
  rw [← Bool.not_eq_true, isMark_iff]
  rintro (rfl | rfl | rfl)
  all_goals exact hs.not_mem_shown rfl (by decide) h

theorem isMark_of_mem_flowchartName {offset : Int}
    (h : c ∈ (Graph.flowchartName offset).toList) : isMark c = false := by
  unfold Graph.flowchartName at h
  split at h
  · exact eq_false_of_all (by decide) c h
  · rw [String.toList_append, List.mem_append] at h
    rcases h with h | h
    · exact eq_false_of_all (by decide) c h
    · exact isMark_of_mem_toString h

end Marks

/-- The line consists of the parts, with quotes between them. -/
structure Quoted (line : String) (parts : List (List Char)) : Prop where
  text : line.toList = ['"'].intercalate parts
  ne_nil : parts ≠ []
  unbroken : ∀ l ∈ parts, ∀ c ∈ l, isBreak c = false

namespace Quoted

variable {line : String} {parts parts' : List (List Char)}

/-- A line is cut into its parts in one way. -/
theorem unique (h : Quoted line parts) (h' : Quoted line parts') : parts = parts' := by
  have hcut {parts : List (List Char)} (h : Quoted line parts) :
      pieces (· == '"') line.toList = parts := by
    rw [h.text]
    refine pieces_intercalate rfl h.ne_nil ?_
    intro l hl c hc
    exact (Bool.or_eq_false_iff.1 (h.unbroken l hl c hc)).1
  rw [← hcut h, hcut h']

theorem not_mem (h : Quoted line parts) {c : Char} (hc : c ≠ '"') (hparts : ∀ l ∈ parts, c ∉ l) :
    c ∉ line.toList := by
  intro hmem
  rw [h.text] at hmem
  rcases mem_intercalate hmem with hmem | ⟨l, hl, hmem⟩
  · exact hc (List.mem_singleton.1 hmem)
  · exact hparts l hl hmem

theorem lineFeed_not_mem (h : Quoted line parts) : '\n' ∉ line.toList := by
  refine h.not_mem (by decide) ?_
  intro l hl hmem
  cases h.unbroken l hl _ hmem

/-- There is no arrow in a line whose parts have no marks. -/
theorem isArrow_eq_false (h : Quoted line parts)
    (hparts : ∀ l ∈ parts, ∀ c ∈ l, isMark c = false) : Drawing.isArrow line = false := by
  rw [Drawing.isArrow, List.contains_eq_mem, decide_eq_false_iff_not]
  refine h.not_mem (by decide) ?_
  intro l hl hmem
  cases hparts l hl _ hmem

end Quoted

namespace Drawing

/-! ## DOT -/

/-- The DOT graph of an outline. -/
def dot : Drawing where
  before := ["digraph cfg \x7b", "    node [shape=box, fontname=monospace];"]
  node s := "    \"" ++ toString s.offset ++ "\" [label=\""
    ++ String.ofList (Graph.dotEscape s.shown.toList) ++ "\""
    ++ (if Offset.isExit s.offset then ", shape=oval" else "") ++ "];"
  edge s e := Graph.dotEdge s.offset e.1 e.2
  after := ["\x7d"]

section Dot

variable {s t : Sketch} {e f : Int × Nat}

/-- The parts of the line of a node. -/
def dotNodeParts (s : Sketch) : List (List Char) :=
  ["    ".toList, (toString s.offset).toList, " [label=".toList, s.shown.toList,
    (if Offset.isExit s.offset then ", shape=oval];" else "];").toList]

/-- The parts of the line of an edge. -/
def dotEdgeParts (s : Sketch) (e : Int × Nat) : List (List Char) :=
  ["    ".toList, (toString s.offset).toList, " -> ".toList, (toString e.1).toList,
    " [label=".toList, (toString e.2).toList, "];".toList]

theorem isMark_dotNodeParts (hs : s.Proper) :
    ∀ l ∈ dotNodeParts s, ∀ c ∈ l, isMark c = false := by
  simp only [dotNodeParts, List.forall_mem_cons]
  refine ⟨eq_false_of_all (by decide), fun _ => isMark_of_mem_toString,
    eq_false_of_all (by decide), fun _ => hs.isMark_of_mem_shown, ?_, by simp⟩
  cases Offset.isExit s.offset <;> exact eq_false_of_all (by decide)

theorem quoted_dot_node (hs : s.Proper) : Quoted (dot.node s) (dotNodeParts s) where
  text := by
    have hescape : Graph.dotEscape s.shown.toList = s.shown.toList :=
      flatMap_replace_of_not_mem (hs.not_mem_shown rfl (by decide))
    unfold dot dotNodeParts
    cases hexit : Offset.isExit s.offset <;> simp [hescape, hexit]
  ne_nil := List.cons_ne_nil _ _
  unbroken l hl c hc := isBreak_of_isMark_eq_false (isMark_dotNodeParts hs l hl c hc)

theorem quoted_dot_edge (s : Sketch) (e : Int × Nat) :
    Quoted (dot.edge s e) (dotEdgeParts s e) where
  text := by simp [dot, Graph.dotEdge, dotEdgeParts]
  ne_nil := List.cons_ne_nil _ _
  unbroken := by
    have hoffset (n : Int) : ∀ c ∈ (toString n).toList, isBreak c = false :=
      fun _ hc => isBreak_of_isMark_eq_false (isMark_of_mem_toString hc)
    simp only [dotEdgeParts, List.forall_mem_cons]
    exact ⟨eq_false_of_all (by decide), hoffset _, eq_false_of_all (by decide), hoffset _,
      eq_false_of_all (by decide), hoffset e.2, eq_false_of_all (by decide), by simp⟩

theorem legible_dot : dot.Legible where
  before_ne_nil := List.cons_ne_nil _ _
  frame := by decide
  node s hs := by
    have hline := quoted_dot_node hs
    exact ⟨hline.lineFeed_not_mem, hline.isArrow_eq_false (isMark_dotNodeParts hs)⟩
  edge s e hs he := by
    refine ⟨(quoted_dot_edge s e).lineFeed_not_mem, ?_⟩
    simp [isArrow, dot, Graph.dotEdge]
  shown s t hs ht h := by
    have hs := quoted_dot_node hs
    rw [h] at hs
    have hparts := hs.unique (quoted_dot_node ht)
    simp only [dotNodeParts, List.cons.injEq, String.toList_inj] at hparts
    exact hparts.2.2.2.1
  ends s t e f hs ht he hf h := by
    have hedge := quoted_dot_edge s e
    rw [h] at hedge
    have hparts := hedge.unique (quoted_dot_edge t f)
    simp only [dotEdgeParts, List.cons.injEq, String.toList_inj, Int.toString_eq_repr,
      Int.repr_inj] at hparts
    exact ⟨hparts.2.1, hparts.2.2.2.1⟩

end Dot

end Drawing

/-- The DOT text of a graph draws its outline. -/
theorem Graph.toDot_eq_render (g : Graph) : g.toDot = Drawing.dot.render g.outline := by
  have hlabel (n : Node) : dotLabel n = String.ofList (dotEscape n.sketch.shown.toList) := by
    unfold dotLabel Node.sketch Sketch.shown
    cases n.instruction with
    | none =>
      show "EXIT" = String.ofList (dotEscape "EXIT".toList)
      decide
    | some i => rfl
  have hnode : dotNode = fun n => Drawing.dot.node n.sketch := by
    funext n
    rw [dotNode, hlabel]
    rfl
  rw [toDot, Drawing.render, Drawing.lines_outline, dotLines, hnode]
  rfl

/-! ## Mermaid -/

/-- The shape of a node. -/
def Sketch.shape (s : Sketch) : Shape :=
  match s.text with
  | some _ => if 1 < s.successors.length then .rhombus else .rectangle
  | none => .stadium

/-- What the flowchart draws for an edge. -/
def Sketch.stroke (s : Sketch) (e : Int × Nat) : Edge :=
  ⟨if Offset.isExit e.1 then .dotted else .solid,
    if 1 < s.successors.length then toString e.2 else ""⟩

namespace Drawing

/-- The flowchart of an outline. -/
def mermaid : Drawing where
  before := ["flowchart TD"]
  node s := Flowchart.indent ++ Graph.flowchartName s.offset ++ (Label.mk s.shown s.shape).render
  edge s e := Flowchart.indent ++ Graph.flowchartName s.offset ++ (s.stroke e).render ++
    Graph.flowchartName e.1
  after := []

section Mermaid

variable {s t : Sketch} {e f : Int × Nat}

/-- The parts of the line of a node. -/
def mermaidNodeParts (s : Sketch) : List (List Char) :=
  [(Flowchart.indent ++ Graph.flowchartName s.offset ++ s.shape.brackets.1).toList,
    s.shown.toList, s.shape.brackets.2.toList]

theorem isMark_mermaidNodeParts (hs : s.Proper) :
    ∀ l ∈ mermaidNodeParts s, ∀ c ∈ l, isMark c = false := by
  simp only [mermaidNodeParts, List.forall_mem_cons, String.toList_append, List.forall_mem_append]
  refine ⟨⟨⟨eq_false_of_all (by decide), fun _ => isMark_of_mem_flowchartName⟩, ?_⟩,
    fun _ => hs.isMark_of_mem_shown, ?_, by simp⟩
  all_goals cases s.shape <;> exact eq_false_of_all (by decide)

theorem quoted_mermaid_node (hs : s.Proper) : Quoted (mermaid.node s) (mermaidNodeParts s) where
  text := by
    have hescape : escape s.shown.toList = s.shown.toList :=
      flatMap_replace_of_not_mem (hs.not_mem_shown rfl (by decide))
    simp [mermaid, Label.render, Label.body, mermaidNodeParts, hescape, hs.shown_ne_empty]
  ne_nil := List.cons_ne_nil _ _
  unbroken l hl c hc := isBreak_of_isMark_eq_false (isMark_mermaidNodeParts hs l hl c hc)

/-- The characters that arrows are made of, and those that stand around the text of an edge. -/
def isStroke (c : Char) : Bool := c == '-' || c == '>' || c == '|'

theorem isStroke_of_mem_flowchartName {offset : Int} (h : Offset.exit ≤ offset) {c : Char}
    (hc : c ∈ (Graph.flowchartName offset).toList) : isStroke c = false := by
  unfold Graph.flowchartName at hc
  split at hc
  · exact eq_false_of_all (by decide) c hc
  · rename_i hexit
    have hnonneg : 0 ≤ offset := by
      simp only [Offset.isExit, beq_iff_eq, Offset.exit] at h hexit
      omega
    rw [String.toList_append, List.mem_append, toString_of_nonneg hnonneg] at hc
    rcases hc with hc | hc
    · exact eq_false_of_all (by decide) c hc
    · have hdigit := isDigit_of_mem_toString hc
      rw [← Bool.not_eq_true, isStroke, Bool.or_eq_true, Bool.or_eq_true, beq_iff_eq, beq_iff_eq,
        beq_iff_eq]
      rintro ((rfl | rfl) | rfl) <;> cases hdigit

/-- An arrow begins and ends with a stroke, whether or not it has a text. -/
theorem exists_toList_arrow (e : Edge) :
    ∃ middle last, e.render.toList = '-' :: (middle ++ [last]) ∧ isStroke last = true := by
  obtain ⟨stroke, content⟩ := e
  by_cases hempty : content = ""
  · cases stroke with
    | solid => exact ⟨['-'], '>', by simp [Edge.render, Stroke.arrow, hempty], rfl⟩
    | dotted => exact ⟨['.', '-'], '>', by simp [Edge.render, Stroke.arrow, hempty], rfl⟩
  · refine ⟨stroke.arrow.toList.tail ++ "|\"".toList ++ content.toList ++ ['"'], '|', ?_, rfl⟩
    cases stroke <;> simp [Edge.render, Stroke.arrow, hempty]

/-- A numbered edge is one line with an arrow. -/
theorem arrow_of_stroke (s : Sketch) (e : Int × Nat) :
    '\n' ∉ (s.stroke e).render.toList ∧ '>' ∈ (s.stroke e).render.toList := by
  have hcontent : '\n' ∉ (s.stroke e).content.toList := by
    show '\n' ∉ (if 1 < s.successors.length then toString e.2 else "").toList
    split
    · intro hmem
      cases isMark_of_mem_toString (n := e.2) hmem
    · exact List.not_mem_nil
  unfold Edge.render
  split <;> cases (s.stroke e).stroke <;> simp [Stroke.arrow, hcontent]

/-- The line of an edge begins with the name of its source and ends with that of its target. -/
theorem pieces_mermaid_edge (hs : s.Proper) (he : e.1 ∈ s.successors) :
    ∃ middle, pieces isStroke (mermaid.edge s e).toList =
      (Flowchart.indent ++ Graph.flowchartName s.offset).toList ::
        (middle ++ [(Graph.flowchartName e.1).toList]) := by
  obtain ⟨middle, last, harrow, hlast⟩ := exists_toList_arrow (s.stroke e)
  have hline : (mermaid.edge s e).toList =
      (Flowchart.indent ++ Graph.flowchartName s.offset).toList ++
        '-' :: (middle ++ last :: (Graph.flowchartName e.1).toList) := by
    simp [mermaid, harrow]
  have hsource : ∀ c ∈ (Flowchart.indent ++ Graph.flowchartName s.offset).toList,
      isStroke c = false := by
    rw [String.toList_append, List.forall_mem_append]
    exact ⟨eq_false_of_all (by decide), fun _ => isStroke_of_mem_flowchartName hs.exit_le⟩
  refine ⟨pieces isStroke middle, ?_⟩
  rw [hline, pieces_append_cons rfl, pieces_append_cons hlast, pieces_of_forall_not hsource,
    pieces_of_forall_not fun _ => isStroke_of_mem_flowchartName (hs.exit_le_of_mem he)]
  rfl

theorem exit_ne_node (text : String) : "exit" ≠ "node" ++ text := by
  intro h
  have hhead := congrArg (fun name => name.toList.head?) h
  simp at hhead

theorem flowchartName_inj {a b : Int} (h : Graph.flowchartName a = Graph.flowchartName b) :
    a = b := by
  unfold Graph.flowchartName at h
  split at h <;> split at h
  · rename_i ha hb
    exact (beq_iff_eq.1 ha).trans (beq_iff_eq.1 hb).symm
  · exact absurd h (exit_ne_node _)
  · exact absurd h.symm (exit_ne_node _)
  · rw [String.append_right_inj, Int.toString_eq_repr, Int.toString_eq_repr, Int.repr_inj] at h
    exact h

theorem legible_mermaid : mermaid.Legible where
  before_ne_nil := List.cons_ne_nil _ _
  frame := by decide
  node s hs := by
    have hline := quoted_mermaid_node hs
    exact ⟨hline.lineFeed_not_mem, hline.isArrow_eq_false (isMark_mermaidNodeParts hs)⟩
  edge s e hs he := by
    have hname (offset : Int) : '\n' ∉ (Graph.flowchartName offset).toList := by
      intro hmem
      cases isMark_of_mem_flowchartName hmem
    obtain ⟨hbreak, harrow⟩ := arrow_of_stroke s e
    constructor
    · simp [mermaid, Flowchart.indent, hname, hbreak]
    · simp [isArrow, mermaid, harrow]
  shown s t hs ht h := by
    have hs := quoted_mermaid_node hs
    rw [h] at hs
    have hparts := hs.unique (quoted_mermaid_node ht)
    simp only [mermaidNodeParts, List.cons.injEq, String.toList_inj] at hparts
    exact hparts.2.1
  ends s t e f hs ht he hf h := by
    obtain ⟨middle, hst⟩ := pieces_mermaid_edge hs he
    obtain ⟨middle', ht⟩ := pieces_mermaid_edge ht hf
    rw [h, ht, List.cons.injEq, String.toList_inj] at hst
    obtain ⟨hsource, hrest⟩ := hst
    obtain ⟨_, htarget⟩ := List.append_inj' hrest rfl
    rw [List.cons.injEq, String.toList_inj] at htarget
    rw [String.append_right_inj] at hsource
    exact ⟨flowchartName_inj hsource.symm, flowchartName_inj htarget.1.symm⟩

end Mermaid

end Drawing

/-! ## Graphs -/

namespace Graph

variable {code code' : List Instruction} {g h : Graph}

theorem flowchartLabel_of_get? {n : Node} {offset : Int} (hget : g.get? offset = some n) :
    g.flowchartLabel offset = ⟨n.sketch.shown, n.sketch.shape⟩ := by
  rw [flowchartLabel, out_of_get? hget, hget, Option.bind_some]
  unfold Node.sketch Sketch.shown Sketch.shape
  cases n.instruction with
  | none => rfl
  | some i => rfl

/-- The flowchart of a graph draws its outline: looking up the offset of a node gives the node. -/
theorem toMermaid_eq_render (hcode : Instruction.Ascending code) (hg : Graph.build code = .ok g) :
    g.toMermaid = Drawing.mermaid.render g.outline := by
  have hget {n : Node} (hn : n ∈ g.nodes.toList) : g.get? n.offset = some n :=
    (get?_eq_some_iff hcode hg).2 ⟨by simpa using hn, rfl⟩
  have hnodes : g.nodeIds.map g.flowchart.nodeLine =
      g.nodes.toList.map fun n => Drawing.mermaid.node n.sketch := by
    rw [nodeIds, List.map_map]
    refine List.map_congr_left ?_
    intro n hn
    show Flowchart.indent ++ flowchartName n.offset ++ (g.flowchartLabel n.offset).render = _
    rw [flowchartLabel_of_get? (hget hn)]
    rfl
  have hedges : g.nodeIds.flatMap (fun a => (g.flowchartEdges a).map (g.flowchart.edgeLine a)) =
      g.nodes.toList.flatMap fun n => n.successors.zipIdx.map (Drawing.mermaid.edge n.sketch) := by
    rw [nodeIds, List.flatMap_map]
    refine List.flatMap_congr ?_
    intro n hn
    rw [flowchartEdges, out_of_get? (hget hn), List.map_map]
    rfl
  show "\n".intercalate (_ :: g.nodeIds.map g.flowchart.nodeLine ++ g.nodeIds.flatMap _) = _
  rw [Drawing.render, Drawing.lines_outline, ← hnodes, ← hedges, Drawing.mermaid, List.append_nil]
  rfl

theorem Built.exit_le (h : g.Built code) {n : Node} (hn : n ∈ g.nodes) :
    Offset.exit ≤ n.offset := by
  cases hexit : n.isExit with
  | true => rw [h.eq_exit hn hexit, Node.exit]
  | false => exact Int.le_trans (by decide) (h.offset_nonneg hn hexit)

/-- The nodes of a graph are at distinct offsets, and each but the exit shows an instruction. -/
theorem isOutline_outline (hcode : Instruction.Ascending code) (hg : Graph.build code = .ok g) :
    Sketch.IsOutline g.outline := by
  have hbuilt := Built.of_build hcode hg
  constructor
  · rw [outline, List.forall_mem_map]
    intro n hn
    rw [Array.mem_toList_iff] at hn
    have hwithin : ∀ b ∈ n.successors, Offset.exit ≤ b := by
      intro b hb
      obtain ⟨m, hm, rfl⟩ := hbuilt.closed n hn b hb
      exact hbuilt.exit_le hm
    cases hexit : n.isExit with
    | true =>
      rw [hbuilt.eq_exit hn hexit]
      exact .exit
    | false =>
      obtain ⟨i, next, hi, hv⟩ := hbuilt.visit n hn hexit
      have hnonneg := hbuilt.nonneg i (Instruction.mem_of_mem_withNext hi)
      rw [Node.sketch, hv.instruction, hv.offset]
      exact .instruction i n.successors hnonneg hwithin
  · rw [outline, List.map_map]
    exact hbuilt.nodup_offsets

/-- Graphs of code units in ascending order have the same Mermaid flowchart exactly if they have
the same outline, and the same DOT text exactly if they have the same outline. -/
theorem exports_agree (hcode : Instruction.Ascending code) (hcode' : Instruction.Ascending code')
    (hg : Graph.build code = .ok g) (hh : Graph.build code' = .ok h) :
    (g.toMermaid = h.toMermaid ↔ g.outline = h.outline) ∧
      (g.toDot = h.toDot ↔ g.outline = h.outline) := by
  have hgo := isOutline_outline hcode hg
  have hho := isOutline_outline hcode' hh
  rw [toMermaid_eq_render hcode hg, toMermaid_eq_render hcode' hh, toDot_eq_render, toDot_eq_render]
  exact ⟨⟨Drawing.legible_mermaid.eq_of_render_eq hgo hho, congrArg _⟩,
    ⟨Drawing.legible_dot.eq_of_render_eq hgo hho, congrArg _⟩⟩

/-- That the handler at 8 is jumped to does not show, since it is reached anyway. Nothing but its
flag keeps the instruction at 20 alive, so that without it both exports change. -/
theorem exports_agree_continueInFinally :
    let code := Instruction.continueInFinally
    let unflag := fun (offset : Int) (i : Instruction) =>
      { i with isJumpTarget := i.isJumpTarget && i.offset != offset }
    ∃ g h k, Graph.build code = .ok g ∧ Graph.build (code.map (unflag 8)) = .ok h ∧
      Graph.build (code.map (unflag 20)) = .ok k ∧ code.map (unflag 8) ≠ code ∧
      g.toMermaid = h.toMermaid ∧ g.toDot = h.toDot ∧
      g.toMermaid ≠ k.toMermaid ∧ g.toDot ≠ k.toDot := by
  intro code unflag
  have hcode : Instruction.Ascending code := Instruction.ascending_continueInFinally
  have hunflagged (offset : Int) : Instruction.Ascending (code.map (unflag offset)) := by
    rw [Instruction.Ascending, List.pairwise_map]
    exact hcode
  let before : List Sketch :=
    [⟨0, some "0 SETUP_LOOP 20", [2]⟩, ⟨2, some "2 SETUP_FINALLY 8", [4]⟩,
      ⟨4, some "4 CONTINUE_LOOP 2", [8]⟩, ⟨8, some "8 END_FINALLY", [10, 2]⟩,
      ⟨10, some "10 JUMP_ABSOLUTE 2", [2]⟩]
  let live : List Sketch :=
    [⟨20, some "20 LOAD_CONST 0", [22]⟩, ⟨22, some "22 RETURN_VALUE", [-1]⟩]
  let exit : Sketch := ⟨-1, none, []⟩
  obtain ⟨g, hg, hgo⟩ := exists_build code (·.outline = before ++ live ++ [exit])
    (by decide +kernel)
  obtain ⟨h, hh, hho⟩ := exists_build (code.map (unflag 8)) (·.outline = before ++ live ++ [exit])
    (by decide +kernel)
  obtain ⟨k, hk, hko⟩ := exists_build (code.map (unflag 20)) (·.outline = before ++ [exit])
    (by decide +kernel)
  rw [decide_eq_true_eq] at hgo hho hko
  have hsame : g.outline = h.outline := hgo.trans hho.symm
  have hother : g.outline ≠ k.outline := by
    rw [hgo, hko]
    decide
  obtain ⟨hmermaid, hdot⟩ := exports_agree hcode (hunflagged 8) hg hh
  obtain ⟨hmermaid', hdot'⟩ := exports_agree hcode (hunflagged 20) hg hk
  exact ⟨g, h, k, hg, hh, hk, by decide, hmermaid.2 hsame, hdot.2 hsame,
    fun heq => hother (hmermaid'.1 heq), fun heq => hother (hdot'.1 heq)⟩

end Graph

end BytecodeFlow
