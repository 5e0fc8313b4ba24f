import BytecodeFlow.Diagram.Mermaid
import BytecodeFlow.Text.Pieces

/-!
# Quoted labels

The label of a node in a Mermaid flowchart stands between double quotes, and each double quote in it
is written as an entity. No double quote is left, so the label ends where it should. Read from left
to right, an entity that was written for a quote never overlaps with the text around it: the last
characters of the entity are no quotes, so they can only have been in the label themselves
(`Mermaid.prefix_of_prefix_escape`). Replacing each entity by a quote therefore gives back every
label that holds no entity of its own (`Mermaid.Label.quoted_and_read_back`).
-/

namespace BytecodeFlow

namespace Text

/-- The text with each occurrence of a mark replaced, from left to right. A mark is not empty. -/
def replaceAll (mark replacement : List Char) : List Char → List Char
  | [] => []
  | c :: cs =>
    if mark <+: c :: cs then
      replacement ++ replaceAll mark replacement (cs.drop (mark.length - 1))
    else c :: replaceAll mark replacement cs
termination_by cs => cs.length
decreasing_by
  · rw [List.length_drop, List.length_cons]
    omega
  · exact Nat.lt_succ_self cs.length

section ReplaceAll

variable {mark replacement cs : List Char} {c : Char}

@[simp] theorem replaceAll_nil : replaceAll mark replacement [] = [] := by
  rw [replaceAll]

theorem replaceAll_append (hmark : mark ≠ []) :
    replaceAll mark replacement (mark ++ cs) = replacement ++ replaceAll mark replacement cs := by
  obtain ⟨d, rest, rfl⟩ := List.exists_cons_of_ne_nil hmark
  have hprefix : d :: rest <+: d :: (rest ++ cs) := List.prefix_append (d :: rest) cs
  rw [List.cons_append, replaceAll, if_pos hprefix]
  simp

theorem replaceAll_cons (h : ¬ mark <+: c :: cs) :
    replaceAll mark replacement (c :: cs) = c :: replaceAll mark replacement cs := by
  rw [replaceAll, if_neg h]

end ReplaceAll

end Text

namespace Mermaid

open Text

/-- What is written for a double quote. -/
def quoteEntity : List Char := "#quot;".toList

variable {content rest cs : List Char} {c : Char}

@[simp] theorem escape_quote (cs : List Char) : escape ('"' :: cs) = quoteEntity ++ escape cs := rfl

theorem escape_cons (h : c ≠ '"') (cs : List Char) : escape (c :: cs) = c :: escape cs := by
  simp [escape, h]

/-- The entities stand between the pieces that the double quotes cut the text into. -/
theorem escape_eq_intercalate (cs : List Char) :
    escape cs = quoteEntity.intercalate (pieces (· == '"') cs) := by
  induction cs with
  | nil => rfl
  | cons c cs ih =>
    obtain ⟨piece, more, hpieces⟩ := List.exists_cons_of_ne_nil (pieces_ne_nil (· == '"') cs)
    by_cases hc : c = '"'
    · subst hc
      rw [escape_quote, ih, pieces_cons rfl, hpieces, List.intercalate_cons_cons, List.nil_append]
    · rw [escape_cons hc, ih, pieces, if_neg (by simpa using hc), hpieces, growFirst]
      cases more with
      | nil => simp
      | cons next more => simp [List.intercalate_cons_cons]

theorem quote_not_mem_escape (cs : List Char) : '"' ∉ escape cs := by
  intro h
  obtain ⟨c, _, hmem⟩ := List.mem_flatMap.1 h
  by_cases hc : c = '"'
  · rw [if_pos hc] at hmem
    exact absurd hmem (by decide)
  · rw [if_neg hc, List.mem_singleton] at hmem
    exact hc hmem.symm

/-! ## Reading a label back -/

/-- What is written without quotes or number signs was there before. -/
theorem prefix_of_prefix_escape (hrest : ∀ c ∈ rest, c ≠ '"' ∧ c ≠ '#') (h : rest <+: escape cs) :
    rest <+: cs := by
  induction rest generalizing cs with
  | nil => exact List.nil_prefix
  | cons d rest ih =>
    obtain ⟨hquote, hsign⟩ := hrest d (by simp)
    cases cs with
    | nil => exact absurd h (by simp [escape])
    | cons c cs =>
      by_cases hc : c = '"'
      · -- an entity starts with a number sign
        subst hc
        exact absurd (List.cons_prefix_cons.1 h).1 hsign
      · rw [escape_cons hc, List.cons_prefix_cons] at h
        rw [List.cons_prefix_cons]
        exact ⟨h.1, ih (fun e he => hrest e (by simp [he])) h.2⟩

/-- No entity starts at a character that was in the label, unless one started there before. -/
theorem not_prefix_cons_escape (h : ¬ quoteEntity <:+: c :: cs) :
    ¬ quoteEntity <+: c :: escape cs := by
  intro hprefix
  obtain ⟨hsign, htail⟩ := List.cons_prefix_cons.1 hprefix
  have htail : "quot;".toList <+: cs := prefix_of_prefix_escape (by simp) htail
  exact h (List.cons_prefix_cons.2 ⟨hsign, htail⟩).isInfix

/-- A label without entities is read back. -/
theorem replaceAll_escape (h : ¬ quoteEntity <:+: cs) :
    replaceAll quoteEntity ['"'] (escape cs) = cs := by
  induction cs with
  | nil => exact replaceAll_nil
  | cons c cs ih =>
    have ih := ih fun hcs => h (hcs.trans (List.suffix_cons c cs).isInfix)
    by_cases hc : c = '"'
    · subst hc
      rw [escape_quote, replaceAll_append (by decide), ih, List.singleton_append]
    · rw [escape_cons hc, replaceAll_cons (not_prefix_cons_escape h), ih]

/-! ## Labels -/

namespace Label

theorem toList_body {l : Label} (h : l.content ≠ "") : l.body.toList = escape l.content.toList := by
  simp [body, h]

theorem quote_not_mem_body (l : Label) : '"' ∉ l.body.toList := by
  by_cases h : l.content = ""
  · have hbody : l.body = "empty" := by simp [body, h]
    rw [hbody]
    decide
  · rw [toList_body h]
    exact quote_not_mem_escape _

theorem toList_render (l : Label) :
    l.render.toList = l.shape.brackets.1.toList ++ '"' :: l.body.toList ++
      '"' :: l.shape.brackets.2.toList := by
  simp [render]

theorem count_quote_render (l : Label) : l.render.toList.count '"' = 2 := by
  have hbrackets (shape : Shape) : shape.brackets.1.toList.count '"' = 0 ∧
      shape.brackets.2.toList.count '"' = 0 := by
    cases shape <;> decide
  rw [toList_render]
  simp [hbrackets, List.count_eq_zero_of_not_mem l.quote_not_mem_body]

/-- Labels of one shape that are drawn alike have the same body. -/
theorem body_eq_of_render_eq {l m : Label} (hshape : l.shape = m.shape)
    (h : l.render = m.render) : l.body = m.body := by
  simpa [render, hshape, ← String.toList_inj] using h

/-- A label is its body between double quotes and brackets, and these are the only double quotes.
The body is what the double quotes of the content cut it into, with entities between. A content that
is not empty and holds no entity is read back from the body, so that no two such contents are drawn
alike in one shape. -/
theorem quoted_and_read_back :
    (∀ l : Label,
      l.render = l.shape.brackets.1 ++ "\"" ++ l.body ++ "\"" ++ l.shape.brackets.2 ∧
      '"' ∉ l.body.toList ∧ l.render.toList.count '"' = 2) ∧
    (∀ l : Label, l.content ≠ "" →
      l.body.toList = quoteEntity.intercalate (pieces (· == '"') l.content.toList) ∧
      (¬ quoteEntity <:+: l.content.toList →
        replaceAll quoteEntity ['"'] l.body.toList = l.content.toList)) ∧
    ∀ l m : Label, l.shape = m.shape →
      (l.content ≠ "" ∧ ¬ quoteEntity <:+: l.content.toList) →
      (m.content ≠ "" ∧ ¬ quoteEntity <:+: m.content.toList) →
      l.content ≠ m.content → l.render ≠ m.render := by
  have hread {l : Label} (hne : l.content ≠ "") (h : ¬ quoteEntity <:+: l.content.toList) :
      replaceAll quoteEntity ['"'] l.body.toList = l.content.toList := by
    rw [toList_body hne, replaceAll_escape h]
  refine ⟨?_, ?_, ?_⟩
  · intro l
    exact ⟨rfl, l.quote_not_mem_body, l.count_quote_render⟩
  · intro l hne
    exact ⟨(toList_body hne).trans (escape_eq_intercalate _), hread hne⟩
  · intro l m hshape hl hm hcontent hrender
    have hbody := congrArg String.toList (body_eq_of_render_eq hshape hrender)
    have hsame : l.content.toList = m.content.toList := by
      rw [← hread hl.1 hl.2, hbody, hread hm.1 hm.2]
    exact hcontent (String.toList_inj.1 hsame)

/-- Quotes at both ends and next to each other, and the end of an entity after one of them. -/
theorem quoted_and_read_back_looseEnd :
    let l : Label := ⟨"\"#\"\"quot;\"", .rhombus⟩
    let m : Label := ⟨"#quot\"", .rhombus⟩
    l.render = "\x7b\"#quot;##quot;#quot;quot;#quot;\"\x7d" ∧
      replaceAll quoteEntity ['"'] l.body.toList = l.content.toList ∧ l.render ≠ m.render := by
  intro l m
  obtain ⟨_, hread, hdistinct⟩ := quoted_and_read_back
  have hl : l.content ≠ "" ∧ ¬ quoteEntity <:+: l.content.toList := by decide +kernel
  have hm : m.content ≠ "" ∧ ¬ quoteEntity <:+: m.content.toList := by decide +kernel
  exact ⟨by decide +kernel, (hread l hl.1).2 hl.2, hdistinct l m rfl hl hm (by decide +kernel)⟩

end Label

end Mermaid

end BytecodeFlow
