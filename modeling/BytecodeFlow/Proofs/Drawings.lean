import BytecodeFlow.Graph.Basic
import BytecodeFlow.Proofs.ListingRoundTrip
import BytecodeFlow.Proofs.Rendering

/-!
# Drawings that are read back

A drawing of a graph shows the offset, the instruction and the successors of each node: the outline
of the graph (`Graph.outline`). It is a text with a line for each node and then a line for each
edge. Where an arrow tells edges from nodes, the line of a node tells its instruction and the line
of an edge tells its ends (`Drawing.Legible`), the nodes are read back with their edges: no two
outlines are drawn alike (`Drawing.Legible.eq_of_render_eq`).
-/

namespace BytecodeFlow

open Text

/-- What a drawing shows of a node. The exit has no text. -/
structure Sketch where
  offset : Int
  text : Option String
  successors : List Int
deriving DecidableEq

def Node.sketch (n : Node) : Sketch :=
  ⟨n.offset, n.instruction.map Instruction.render, n.successors⟩

/-- What a drawing shows of a graph: of each node the offset, how its instruction is shown, and the
successors in their order. -/
def Graph.outline (g : Graph) : List Sketch :=
  g.nodes.toList.map Node.sketch

namespace Sketch

variable {s t : Sketch} {ss ts : List Sketch}

/-- The text in the shape of a node. -/
def shown (s : Sketch) : String := s.text.getD "EXIT"

/-- The sketch of an instruction whose successors are instructions or the exit, or that of the
exit. -/
inductive Proper : Sketch → Prop where
  | instruction (i : Instruction) (successors : List Int) (nonneg : 0 ≤ i.offset)
      (within : ∀ b ∈ successors, Offset.exit ≤ b) : Proper ⟨i.offset, some i.render, successors⟩
  | exit : Proper ⟨Offset.exit, none, []⟩

theorem Proper.exit_le (h : s.Proper) : Offset.exit ≤ s.offset := by
  cases h with
  | instruction i successors nonneg within =>
    simp only [Offset.exit]
    omega
  | exit => exact Int.le_refl _

theorem Proper.exit_le_of_mem (h : s.Proper) {b : Int} (hb : b ∈ s.successors) :
    Offset.exit ≤ b := by
  cases h with
  | instruction i successors nonneg within => exact within b hb
  | exit => cases hb

theorem Proper.not_mem_shown (h : s.Proper) {c : Char} (hc : Instruction.isShown c = false)
    (hcomment : c ∉ " (to )".toList) : c ∉ s.shown.toList := by
  cases h with
  | instruction i successors nonneg within => exact Instruction.not_mem_render nonneg hc hcomment
  | exit =>
    intro hmem
    have hmem : c ∈ ['E', 'X', 'I', 'T'] := hmem
    simp only [List.mem_cons, List.not_mem_nil, or_false] at hmem
    rcases hmem with rfl | rfl | rfl | rfl <;> cases hc

/-- The first word of a shown instruction is its offset. -/
theorem head?_pieces_render (i : Instruction) :
    (pieces isSpace i.render.toList).head? = some (toString i.offset).toList := by
  obtain ⟨rest, hrest⟩ : ∃ rest, i.render.toList = (toString i.offset).toList ++ ' ' :: rest := by
    simp [Instruction.render, String.append_assoc]
  rw [hrest, pieces_append_cons rfl, pieces_of_forall_not fun _ hc => isSpace_of_mem_toString hc]
  rfl

theorem render_ne_exit {i : Instruction} (h : 0 ≤ i.offset) : i.render ≠ "EXIT" := by
  intro heq
  have hhead := head?_pieces_render i
  rw [heq, toString_of_nonneg h] at hhead
  have hexit : (pieces isSpace "EXIT".toList).head? = some ['E', 'X', 'I', 'T'] := by decide
  rw [hexit, Option.some_inj] at hhead
  have hmem : 'E' ∈ (toString i.offset.toNat).toList := by
    rw [← hhead]
    exact List.mem_cons_self
  cases isDigit_of_mem_toString hmem

theorem Proper.shown_ne_empty (h : s.Proper) : s.shown ≠ "" := by
  cases h with
  | instruction i successors nonneg within =>
    intro heq
    have hrender : i.render = "" := heq
    have hhead := head?_pieces_render i
    rw [hrender, String.toList_empty] at hhead
    exact (isWord_toString i.offset).ne_nil (Option.some_inj.1 hhead).symm
  | exit => decide

/-- A node is known by the text in its shape. -/
theorem Proper.eq_of_shown_eq (hs : s.Proper) (ht : t.Proper) (h : s.shown = t.shown) :
    s.offset = t.offset ∧ s.text = t.text := by
  cases hs with
  | instruction i successors nonneg within =>
    cases ht with
    | instruction j successors' nonneg' within' =>
      have hrender : i.render = j.render := h
      have hhead := head?_pieces_render i
      rw [hrender, head?_pieces_render j] at hhead
      simp only [Option.some_inj, String.toList_inj, Int.toString_eq_repr, Int.repr_inj] at hhead
      exact ⟨hhead.symm, congrArg some hrender⟩
    | exit => exact absurd h (render_ne_exit nonneg)
  | exit =>
    cases ht with
    | instruction j successors nonneg within => exact absurd h.symm (render_ne_exit nonneg)
    | exit => exact ⟨rfl, rfl⟩

/-! ## Edges -/

/-- The edges from the nodes in order, each by its source, its target and its number. -/
def arrows (ss : List Sketch) : List (Sketch × Int × Nat) :=
  ss.flatMap fun s => s.successors.zipIdx.map (s, ·)

/-- The edges from the nodes in order, each by the offsets of its ends. -/
def edges (ss : List Sketch) : List (Int × Int) :=
  ss.flatMap fun s => s.successors.map (s.offset, ·)

theorem mem_of_mem_arrows {a : Sketch × Int × Nat} (h : a ∈ arrows ss) :
    a.1 ∈ ss ∧ a.2.1 ∈ a.1.successors := by
  obtain ⟨s, hs, ha⟩ := List.mem_flatMap.1 h
  obtain ⟨e, he, rfl⟩ := List.mem_map.1 ha
  exact ⟨hs, List.fst_mem_of_mem_zipIdx he⟩

theorem map_arrows (ss : List Sketch) :
    (arrows ss).map (fun a => (a.1.offset, a.2.1)) = edges ss := by
  rw [arrows, edges, List.map_flatMap]
  congr 1
  funext s
  calc (s.successors.zipIdx.map (s, ·)).map (fun a => (a.1.offset, a.2.1))
      = (s.successors.zipIdx.map (·.1)).map (s.offset, ·) := by simp only [List.map_map]; rfl
    _ = s.successors.map (s.offset, ·) := by rw [List.zipIdx_map_fst]

/-- The nodes with these offsets and texts, and these edges between them. -/
def assemble (nodes : List (Int × Option String)) (edges : List (Int × Int)) : List Sketch :=
  nodes.map fun n => ⟨n.1, n.2, (edges.filter (·.1 == n.1)).map (·.2)⟩

theorem fst_mem_of_mem_edges {e : Int × Int} (h : e ∈ edges ss) : e.1 ∈ ss.map (·.offset) := by
  obtain ⟨s, hs, he⟩ := List.mem_flatMap.1 h
  obtain ⟨b, _, rfl⟩ := List.mem_map.1 he
  exact List.mem_map.2 ⟨s, hs, rfl⟩

/-- The successors of a node are the targets of the edges from its offset. -/
theorem targets_eq_successors (hdistinct : (ss.map (·.offset)).Nodup) (hs : s ∈ ss) :
    ((edges ss).filter (·.1 == s.offset)).map (·.2) = s.successors := by
  induction ss with
  | nil => cases hs
  | cons t rest ih =>
    rw [List.map_cons, List.nodup_cons] at hdistinct
    obtain ⟨hfirst, hrest⟩ := hdistinct
    have hedges : edges (t :: rest) = t.successors.map (t.offset, ·) ++ edges rest := rfl
    rw [hedges, List.filter_append]
    rcases List.mem_cons.1 hs with rfl | hs
    · -- the other nodes are at other offsets
      have hown : (s.successors.map (s.offset, ·)).filter (·.1 == s.offset) =
          s.successors.map (s.offset, ·) := by
        rw [List.filter_eq_self]
        simp
      have hothers : (edges rest).filter (·.1 == s.offset) = [] := by
        rw [List.filter_eq_nil_iff]
        intro e he heq
        rw [beq_iff_eq] at heq
        exact hfirst (heq ▸ fst_mem_of_mem_edges he)
      rw [hown, hothers, List.append_nil, List.map_map]
      exact List.map_id _
    · have hne : t.offset ≠ s.offset := fun heq => hfirst (heq ▸ List.mem_map.2 ⟨s, hs, rfl⟩)
      have hown : (t.successors.map (t.offset, ·)).filter (·.1 == s.offset) = [] := by
        rw [List.filter_eq_nil_iff]
        simp [hne]
      rw [hown, List.nil_append, ih hrest hs]

/-- Nodes at distinct offsets are known by their offsets, their texts and the edges between
them. -/
theorem assemble_edges (hdistinct : (ss.map (·.offset)).Nodup) :
    assemble (ss.map fun s => (s.offset, s.text)) (edges ss) = ss := by
  rw [assemble, List.map_map]
  refine (List.map_congr_left ?_).trans (List.map_id ss)
  intro s hs
  simp only [Function.comp_apply, targets_eq_successors hdistinct hs, id_eq]

/-- The nodes of an outline are proper, and no two of them are at one offset. -/
structure IsOutline (ss : List Sketch) : Prop where
  proper : ∀ s ∈ ss, s.Proper
  distinct : (ss.map (·.offset)).Nodup

end Sketch

/-! ## Drawings -/

/-- Texts that are the same one by one say the same, if each of them says something. -/
theorem map_eq_of_map_eq {α β γ : Type} {f : α → β} {g : α → γ} {xs ys : List α}
    (hfg : ∀ x ∈ xs, ∀ y ∈ ys, f x = f y → g x = g y) (h : xs.map f = ys.map f) :
    xs.map g = ys.map g := by
  induction xs generalizing ys with
  | nil =>
    rw [List.map_nil, eq_comm, List.map_eq_nil_iff] at h
    rw [h]
  | cons x xs ih =>
    cases ys with
    | nil => cases h
    | cons y ys =>
      rw [List.map_cons, List.map_cons, List.cons.injEq] at h
      rw [List.map_cons, List.map_cons, hfg x (by simp) y (by simp) h.1,
        ih (fun x hx y hy => hfg x (by simp [hx]) y (by simp [hy])) h.2]

/-- Lines that make the same text are the same. -/
theorem eq_of_intercalate_eq {ls ms : List String} (hls : ls ≠ []) (hms : ms ≠ [])
    (hl : ∀ l ∈ ls, '\n' ∉ l.toList) (hm : ∀ m ∈ ms, '\n' ∉ m.toList)
    (h : "\n".intercalate ls = "\n".intercalate ms) : ls = ms := by
  have hcut {ls : List String} (hne : ls ≠ []) (hl : ∀ l ∈ ls, '\n' ∉ l.toList) :
      pieces (· == '\n') ("\n".intercalate ls).toList = ls.map String.toList := by
    rw [String.toList_intercalate]
    refine pieces_intercalate_lineFeed (by simpa using hne) ?_
    simpa using hl
  have hpieces := hcut hls hl
  rw [h, hcut hms hm] at hpieces
  exact (List.map_inj_right fun _ _ => String.toList_inj.1).1 hpieces.symm

/-- A way to draw nodes: the lines before and after, the line of a node, and the line of an edge
from a node, which is given by its target and its number. -/
structure Drawing where
  before : List String
  node : Sketch → String
  edge : Sketch → Int × Nat → String
  after : List String

namespace Drawing

variable {d : Drawing} {ss ts : List Sketch}

def lines (d : Drawing) (ss : List Sketch) : List String :=
  d.before ++ ss.map d.node ++ (Sketch.arrows ss).map (fun a => d.edge a.1 a.2) ++ d.after

def render (d : Drawing) (ss : List Sketch) : String :=
  "\n".intercalate (d.lines ss)

/-- The lines of a graph's outline, node by node. -/
theorem lines_outline (d : Drawing) (g : Graph) :
    d.lines g.outline = d.before ++ g.nodes.toList.map (fun n => d.node n.sketch) ++
      g.nodes.toList.flatMap (fun n => n.successors.zipIdx.map (d.edge n.sketch)) ++ d.after := by
  simp only [lines, Graph.outline, Sketch.arrows, List.map_map, List.map_flatMap,
    List.flatMap_map]
  rfl

/-- Whether a line draws an edge. -/
def isArrow (line : String) : Bool := line.toList.contains '>'

/-- An edge is a line with an arrow and a node one without. The line of a node tells the text in
its shape, and the line of an edge tells both ends. -/
structure Legible (d : Drawing) : Prop where
  before_ne_nil : d.before ≠ []
  frame : ∀ l ∈ d.before ++ d.after, '\n' ∉ l.toList ∧ isArrow l = false
  node (s : Sketch) : s.Proper → '\n' ∉ (d.node s).toList ∧ isArrow (d.node s) = false
  edge (s : Sketch) (e : Int × Nat) : s.Proper → e.1 ∈ s.successors →
    '\n' ∉ (d.edge s e).toList ∧ isArrow (d.edge s e) = true
  shown (s t : Sketch) : s.Proper → t.Proper → d.node s = d.node t → s.shown = t.shown
  ends (s t : Sketch) (e f : Int × Nat) : s.Proper → t.Proper → e.1 ∈ s.successors →
    f.1 ∈ t.successors → d.edge s e = d.edge t f → s.offset = t.offset ∧ e.1 = f.1

theorem Legible.edge_of_mem_arrows (hd : d.Legible) (hs : Sketch.IsOutline ss)
    {a : Sketch × Int × Nat} (ha : a ∈ Sketch.arrows ss) :
    '\n' ∉ (d.edge a.1 a.2).toList ∧ isArrow (d.edge a.1 a.2) = true := by
  obtain ⟨hmem, htarget⟩ := Sketch.mem_of_mem_arrows ha
  exact hd.edge _ _ (hs.proper _ hmem) htarget

theorem Legible.lineFeed_not_mem (hd : d.Legible) (hs : Sketch.IsOutline ss) :
    ∀ l ∈ d.lines ss, '\n' ∉ l.toList := by
  intro l hl
  simp only [lines, List.mem_append, List.mem_map] at hl
  rcases hl with ((hl | ⟨s, hmem, rfl⟩) | ⟨a, ha, rfl⟩) | hl
  · exact (hd.frame l (by simp [hl])).1
  · exact (hd.node s (hs.proper s hmem)).1
  · exact (hd.edge_of_mem_arrows hs ha).1
  · exact (hd.frame l (by simp [hl])).1

theorem filter_of_not_isArrow {ls : List String} (h : ∀ l ∈ ls, isArrow l = false) :
    ls.filter isArrow = [] ∧ ls.filter (fun l => !isArrow l) = ls :=
  ⟨List.filter_eq_nil_iff.2 fun l hl => by simp [h l hl],
    List.filter_eq_self.2 fun l hl => by simp [h l hl]⟩

/-- The edges are the lines with an arrow. The nodes are those without one, between the lines of the
frame. -/
theorem Legible.filter_lines (hd : d.Legible) (hs : Sketch.IsOutline ss) :
    (d.lines ss).filter isArrow = ((Sketch.arrows ss).map fun a => d.edge a.1 a.2) ∧
      (d.lines ss).filter (fun l => !isArrow l) = d.before ++ ss.map d.node ++ d.after := by
  have hbefore := filter_of_not_isArrow fun l hl =>
    (hd.frame l (List.mem_append_left d.after hl)).2
  have hafter := filter_of_not_isArrow fun l hl =>
    (hd.frame l (List.mem_append_right d.before hl)).2
  have hnodes : ∀ l ∈ ss.map d.node, isArrow l = false := by
    rw [List.forall_mem_map]
    exact fun s hmem => (hd.node s (hs.proper s hmem)).2
  have hnodes := filter_of_not_isArrow hnodes
  have hedges : ∀ l ∈ (Sketch.arrows ss).map fun a => d.edge a.1 a.2, isArrow l = true := by
    rw [List.forall_mem_map]
    exact fun a ha => (hd.edge_of_mem_arrows hs ha).2
  have hkept := List.filter_eq_self.2 hedges
  have hdropped : ((Sketch.arrows ss).map fun a => d.edge a.1 a.2).filter (fun l => !isArrow l) =
      [] :=
    List.filter_eq_nil_iff.2 fun l hl => by simp [hedges l hl]
  constructor
  · simp only [lines, List.filter_append, hbefore, hafter, hnodes, hkept, List.nil_append,
      List.append_nil]
  · simp only [lines, List.filter_append, hbefore, hafter, hnodes, hdropped, List.append_nil]

/-- No two outlines are drawn alike. -/
theorem Legible.eq_of_render_eq (hd : d.Legible) (hs : Sketch.IsOutline ss)
    (ht : Sketch.IsOutline ts) (h : d.render ss = d.render ts) : ss = ts := by
  have hne (ss : List Sketch) : d.lines ss ≠ [] := by simp [lines, hd.before_ne_nil]
  have hlines : d.lines ss = d.lines ts :=
    eq_of_intercalate_eq (hne ss) (hne ts) (hd.lineFeed_not_mem hs) (hd.lineFeed_not_mem ht) h
  -- the arrow tells which lines are to be compared as nodes and which as edges
  have hnodes : ss.map (fun s => (s.offset, s.text)) = ts.map fun t => (t.offset, t.text) := by
    have hfilter := congrArg (List.filter fun l => !isArrow l) hlines
    rw [(hd.filter_lines hs).2, (hd.filter_lines ht).2] at hfilter
    have hdrawn := List.append_cancel_left (List.append_cancel_right hfilter)
    refine map_eq_of_map_eq ?_ hdrawn
    intro s hsmem t htmem hst
    have hps := hs.proper s hsmem
    have hpt := ht.proper t htmem
    obtain ⟨hoffset, htext⟩ := hps.eq_of_shown_eq hpt (hd.shown s t hps hpt hst)
    rw [hoffset, htext]
  have hedges : Sketch.edges ss = Sketch.edges ts := by
    have hfilter := congrArg (List.filter isArrow) hlines
    rw [(hd.filter_lines hs).1, (hd.filter_lines ht).1] at hfilter
    rw [← Sketch.map_arrows, ← Sketch.map_arrows]
    refine map_eq_of_map_eq ?_ hfilter
    intro a ha b hb hab
    obtain ⟨hsmem, hstarget⟩ := Sketch.mem_of_mem_arrows ha
    obtain ⟨htmem, httarget⟩ := Sketch.mem_of_mem_arrows hb
    obtain ⟨hsource, htarget⟩ := hd.ends a.1 b.1 a.2 b.2 (hs.proper _ hsmem) (ht.proper _ htmem)
      hstarget httarget hab
    rw [hsource, htarget]
  rw [← Sketch.assemble_edges hs.distinct, hnodes, hedges, Sketch.assemble_edges ht.distinct]

end Drawing

end BytecodeFlow
