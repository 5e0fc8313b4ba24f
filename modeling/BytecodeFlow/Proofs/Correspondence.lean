import BytecodeFlow.Proofs.Blocks
import Mathlib.Data.List.Forall2

/-!
# Offsets that correspond

Offsets are compared, looked up and passed on, and nothing else is done with them. So what is
computed from offsets that are in the same order, with the same entry and exit among them, is the
same up to the offsets. A correspondence relates such offsets (`Offset.Correspondence`), and every
walk along a block stack takes corresponding stacks and offsets to corresponding results.
-/

namespace BytecodeFlow

open Relator

/-- A relation between the offsets of two code units. It keeps their order, the entry and the
exit. -/
structure Offset.Correspondence (R : Int → Int → Prop) : Prop where
  lt_iff {a a' b b' : Int} : R a a' → R b b' → (a < b ↔ a' < b')
  entry : R Offset.entry Offset.entry
  exit : R Offset.exit Offset.exit

variable {R : Int → Int → Prop}

namespace Offset.Correspondence

theorem eq_iff (hR : Correspondence R) {a a' b b' : Int} (ha : R a a') (hb : R b b') :
    a = b ↔ a' = b' := by
  have hlt := hR.lt_iff ha hb
  have hgt := hR.lt_iff hb ha
  omega

theorem biUnique (hR : Correspondence R) : BiUnique R :=
  ⟨fun _ _ _ hac hbc => (hR.eq_iff hac hbc).2 rfl, fun _ _ _ hab hac => (hR.eq_iff hab hac).1 rfl⟩

end Offset.Correspondence

/-! ## Lists and options -/

section Lists

variable {α β γ δ : Type} {S : α → β → Prop} {T : γ → δ → Prop}

theorem rel_option_map {o : Option α} {o' : Option β} (h : Option.Rel S o o') {f : α → γ}
    {g : β → δ} (hfg : ∀ x y, S x y → T (f x) (g y)) : Option.Rel T (o.map f) (o'.map g) := by
  cases h with
  | none => exact .none
  | some hxy => exact .some (hfg _ _ hxy)

theorem rel_option_getD {o : Option α} {o' : Option β} (h : Option.Rel S o o') {x : α} {y : β}
    (hxy : S x y) : S (o.getD x) (o'.getD y) := by
  cases h with
  | none => exact hxy
  | some hxy => exact hxy

theorem rel_option_toList {o : Option α} {o' : Option β} (h : Option.Rel S o o') :
    List.Forall₂ S o.toList o'.toList := by
  cases h with
  | none => exact .nil
  | some hxy => exact .cons hxy .nil

theorem eq_none_of_rel {o : Option α} {o' : Option β} (h : Option.Rel S o o') (ho : o = none) :
    o' = none := by
  cases h with
  | none => rfl
  | some _ => cases ho

theorem exists_of_rel {o : Option α} {o' : Option β} (h : Option.Rel S o o') {x : α}
    (ho : o = some x) : ∃ y, o' = some y ∧ S x y := by
  cases h with
  | none => cases ho
  | some hxy =>
    cases ho
    exact ⟨_, rfl, hxy⟩

theorem rel_head? {l : List α} {l' : List β} (h : List.Forall₂ S l l') :
    Option.Rel S l.head? l'.head? := by
  cases h with
  | nil => exact .none
  | cons hxy _ => exact .some hxy

theorem rel_isEmpty {l : List α} {l' : List β} (h : List.Forall₂ S l l') :
    l.isEmpty = l'.isEmpty := by
  cases h with
  | nil => rfl
  | cons _ _ => rfl

theorem rel_getElem? {l : List α} {l' : List β} (h : List.Forall₂ S l l') (k : Nat) :
    Option.Rel S l[k]? l'[k]? := by
  induction h generalizing k with
  | nil => exact .none
  | cons hxy _ ih =>
    cases k with
    | zero => exact .some hxy
    | succ k => exact ih k

variable {p : α → Bool} {q : β → Bool} (hpq : ∀ x y, S x y → p x = q y) {l : List α} {l' : List β}
  (h : List.Forall₂ S l l')
include hpq h

/-- Searches for what corresponds find what corresponds. -/
theorem rel_find? : Option.Rel S (l.find? p) (l'.find? q) := by
  induction h with
  | nil => exact .none
  | @cons x y xs ys hxy hrest ih =>
    rw [List.find?_cons, List.find?_cons, hpq x y hxy]
    cases q y with
    | true => exact .some hxy
    | false => exact ih

theorem rel_takeWhile : List.Forall₂ S (l.takeWhile p) (l'.takeWhile q) := by
  induction h with
  | nil => exact .nil
  | @cons x y xs ys hxy hrest ih =>
    rw [List.takeWhile_cons, List.takeWhile_cons, hpq x y hxy]
    cases q y with
    | true => exact .cons hxy ih
    | false => exact .nil

theorem rel_filter : List.Forall₂ S (l.filter p) (l'.filter q) :=
  List.rel_filter (fun x y hxy => Bool.eq_iff_iff.1 (hpq x y hxy)) h

end Lists

/-- Duplicates are at the same places. -/
theorem rel_eraseDups {α : Type} [BEq α] [LawfulBEq α] {S : α → α → Prop} (hS : BiUnique S)
    {l l' : List α} (h : List.Forall₂ S l l') : List.Forall₂ S l.eraseDups l'.eraseDups := by
  induction hn : l.length using Nat.strongRecOn generalizing l l' with
  | _ n ih =>
    cases h with
    | nil => exact .nil
    | @cons x x' rest rest' hx hrest =>
      -- the recursion is on the filtered tail, which is no longer than the tail
      have hfilter : List.Forall₂ S (rest.filter fun y => !y == x)
          (rest'.filter fun y => !y == x') := by
        refine rel_filter ?_ hrest
        intro y y' hy
        rw [Bool.eq_iff_iff]
        simpa using not_congr (rel_eq hS hy hx)
      have hlen : (rest.filter fun y => !y == x).length ≤ rest.length := List.length_filter_le _ _
      rw [List.eraseDups_cons, List.eraseDups_cons]
      rw [List.length_cons] at hn
      exact .cons hx (ih _ (by omega) hfilter rfl)

/-- Both computations fail or neither does, with results that correspond. -/
inductive ExceptRel {α β ε φ : Type} (E : ε → φ → Prop) (S : α → β → Prop) :
    Except ε α → Except φ β → Prop where
  | ok {x : α} {y : β} (values : S x y) : ExceptRel E S (.ok x) (.ok y)
  | error {e : ε} {e' : φ} (failures : E e e') : ExceptRel E S (.error e) (.error e')

theorem ExceptRel.bind {α β γ δ ε φ : Type} {E : ε → φ → Prop} {S : α → β → Prop}
    {T : γ → δ → Prop} {x : Except ε α} {y : Except φ β} (h : ExceptRel E S x y)
    {g : α → Except ε γ} {k : β → Except φ δ} (hgk : ∀ v w, S v w → ExceptRel E T (g v) (k w)) :
    ExceptRel E T (x >>= g) (y >>= k) := by
  cases h with
  | ok values => exact hgk _ _ values
  | error failures => exact .error failures

/-! ## Scopes -/

/-- The scopes are of one kind and in one place, at corresponding offsets. -/
structure Scope.Corresponds (R : Int → Int → Prop) (s s' : Scope) : Prop where
  kind : s.kind = s'.kind
  exit : R s.exit s'.exit
  origin : R s.origin s'.origin
  parent : s.parent = s'.parent

/-- The arenas have corresponding scopes under the same ids. -/
def Arena.Corresponds (R : Int → Int → Prop) (a a' : Arena) : Prop :=
  List.Forall₂ (Scope.Corresponds R) a.scopes.toList a'.scopes.toList

/-- The entries of a stack have the same id and corresponding scopes. -/
def BlockStack.EntryCorresponds (R : Int → Int → Prop) (x x' : Nat × Scope) : Prop :=
  x.1 = x'.1 ∧ x.2.Corresponds R x'.2

theorem Scope.Corresponds.catches {s s' : Scope} (h : s.Corresponds R s')
    (hR : Offset.Correspondence R) {o o' : Int} (ho : R o o') : s.catches o = s'.catches o' := by
  rw [Scope.catches, Scope.catches, h.kind, decide_eq_decide.2 (hR.lt_iff ho h.exit)]

theorem Scope.Corresponds.intercepts {s s' : Scope} (h : s.Corresponds R s')
    (hR : Offset.Correspondence R) {o o' : Int} (ho : R o o') :
    s.intercepts o = s'.intercepts o' := by
  rw [Scope.intercepts, Scope.intercepts, h.kind, decide_eq_decide.2 (hR.lt_iff ho h.exit)]

namespace Arena

variable {a a' : Arena} (h : a.Corresponds R a')
include h

theorem Corresponds.get? (id : Nat) :
    Option.Rel (Scope.Corresponds R) (a.get? id) (a'.get? id) := by
  simpa [Arena.get?] using rel_getElem? h id

theorem Corresponds.size : a.size = a'.size := by
  simpa [Arena.size] using h.length_eq

theorem Corresponds.add (kind : ScopeKind) {exit exit' origin origin' : Int} (hexit : R exit exit')
    (horigin : R origin origin') (parent : Option Nat) :
    (a.add kind exit origin parent).Corresponds R (a'.add kind exit' origin' parent) := by
  show List.Forall₂ _ (a.scopes.push _).toList (a'.scopes.push _).toList
  rw [Array.toList_push, Array.toList_push]
  refine List.rel_append h (.cons ⟨rfl, hexit, horigin, ?_⟩ .nil)
  rw [h.size]

end Arena

/-! ## Walks along a block stack -/

namespace BlockStack

section Walks

variable {a a' : Arena} (ha : a.Corresponds R a') (s : BlockStack)
include ha

theorem rel_toList : List.Forall₂ (EntryCorresponds R) (s.toList a) (s.toList a') := by
  induction s using induction (a := a) with
  | none => simp
  | dangling id hg =>
    rw [toList_dangling hg, toList_dangling (eq_none_of_rel (ha.get? id) hg)]
    exact .nil
  | some id scope hg ih =>
    obtain ⟨scope', hg', hscope⟩ := exists_of_rel (ha.get? id) hg
    rw [toList_some hg, toList_some hg', ← hscope.parent]
    exact .cons ⟨rfl, hscope⟩ ih

theorem rel_scopes : List.Forall₂ (Scope.Corresponds R) (s.scopes a) (s.scopes a') :=
  List.rel_map (fun _ _ hx => hx.2) (rel_toList ha s)

theorem rel_innermostLoop? :
    Option.Rel (EntryCorresponds R) (s.innermostLoop? a) (s.innermostLoop? a') := by
  refine rel_find? ?_ (rel_toList ha s)
  intro x x' hx
  rw [hx.2.kind]

theorem closeLoop_eq : Resolution.closeLoop a s = Resolution.closeLoop a' s := by
  obtain ⟨top⟩ := s
  cases top with
  | none => rfl
  | some id =>
    cases hg : a.get? id with
    | none => simp [Resolution.closeLoop, hg, eq_none_of_rel (ha.get? id) hg]
    | some scope =>
      obtain ⟨scope', hg', hscope⟩ := exists_of_rel (ha.get? id) hg
      simp [Resolution.closeLoop, hg, hg', hscope.kind, hscope.parent]

variable (hR : Offset.Correspondence R) {o o' : Int} (ho : R o o')
include hR ho

/-- The same scopes are left on the way to corresponding offsets. -/
theorem popUntil_eq : s.popUntil a o = s.popUntil a' o' := by
  induction s using induction (a := a) with
  | none => simp
  | dangling id hg =>
    rw [popUntil_dangling hg, popUntil_dangling (eq_none_of_rel (ha.get? id) hg)]
  | some id scope hg ih =>
    obtain ⟨scope', hg', hscope⟩ := exists_of_rel (ha.get? id) hg
    by_cases hopen : o < scope.exit
    · rw [popUntil_open hg hopen, popUntil_open hg' ((hR.lt_iff ho hscope.exit).1 hopen)]
    · rw [popUntil_left hg hopen, popUntil_left hg' (mt (hR.lt_iff ho hscope.exit).2 hopen), ih,
        hscope.parent]

theorem rel_exceptionTarget :
    Option.Rel R (s.exceptionTarget a o) (s.exceptionTarget a' o') := by
  rw [exceptionTarget_eq, exceptionTarget_eq]
  have hfound := rel_find? (fun x x' hx => hx.2.catches hR ho) (rel_toList ha s)
  exact rel_option_map hfound fun x x' hx => hx.2.exit

theorem rel_returnTarget : R (s.returnTarget a o) (s.returnTarget a' o') := by
  rw [returnTarget_eq, returnTarget_eq]
  have hfound := rel_find? (fun x x' hx => hx.2.intercepts hR ho) (rel_toList ha s)
  exact rel_option_getD (rel_option_map hfound fun x x' hx => hx.2.exit) hR.exit

theorem rel_detour? (loop : Nat) : Option.Rel R (s.detour? a o loop) (s.detour? a' o' loop) := by
  have hinside := rel_takeWhile (p := (·.1 != loop)) (q := (·.1 != loop))
    (fun x x' hx => by rw [hx.1]) (rel_toList ha s)
  have hfound := rel_find? (fun x x' hx => hx.2.intercepts hR ho) hinside
  exact rel_option_map hfound fun x x' hx => hx.2.exit

end Walks

end BlockStack

/-! ## Path facts -/

/-- Inserting what corresponds puts it in the same place. -/
theorem rel_insert {α β : Type} {S : α → β → Prop} {before : α → α → Bool}
    {before' : β → β → Bool}
    (hbefore : ∀ x x' y y', S x x' → S y y' → before x y = before' x' y') {x : α} {x' : β}
    (hx : S x x') {l : List α} {l' : List β} (h : List.Forall₂ S l l') :
    List.Forall₂ S (Ordered.insert before x l) (Ordered.insert before' x' l') := by
  induction h with
  | nil => exact .cons hx .nil
  | @cons y y' rest rest' hy hrest ih =>
    rw [Ordered.insert, Ordered.insert, hbefore x x' y y' hx hy, hbefore y y' x x' hy hx]
    split
    · exact .cons hx (.cons hy hrest)
    · split
      · exact .cons hy ih
      · exact .cons hy hrest

theorem rel_union {α β : Type} {S : α → β → Prop} {before : α → α → Bool}
    {before' : β → β → Bool}
    (hbefore : ∀ x x' y y', S x x' → S y y' → before x y = before' x' y') {l k : List α}
    {l' k' : List β} (h : List.Forall₂ S l l') (hk : List.Forall₂ S k k') :
    List.Forall₂ S (Ordered.union before l k) (Ordered.union before' l' k') := by
  induction hk generalizing l l' with
  | nil => exact h
  | cons hx _ ih => exact ih (rel_insert hbefore hx h)

namespace PathFacts

/-- The restarts are of the same loop, at corresponding offsets. -/
def RestartCorresponds (R : Int → Int → Prop) (x x' : Nat × Int) : Prop :=
  x.1 = x'.1 ∧ R x.2 x'.2

/-- The same is pending, with restarts at corresponding offsets. -/
structure Corresponds (R : Int → Int → Prop) (f f' : PathFacts) : Prop where
  returned : f.returned = f'.returned
  raised : f.raised = f'.raised
  broken : f.broken = f'.broken
  continued : List.Forall₂ (RestartCorresponds R) f.continued f'.continued

variable {f f' g g' : PathFacts}

theorem corresponds_default : Corresponds R {} {} := ⟨rfl, rfl, rfl, .nil⟩

theorem restartBefore_eq (hR : Offset.Correspondence R) (x x' y y' : Nat × Int)
    (hx : RestartCorresponds R x x') (hy : RestartCorresponds R y y') :
    restartBefore x y = restartBefore x' y' := by
  rw [restartBefore, restartBefore, hx.1, hy.1, decide_eq_decide.2 (hR.lt_iff hx.2 hy.2)]

theorem Corresponds.setFlag (h : f.Corresponds R f') (flag : Flag) :
    (f.setFlag flag).Corresponds R (f'.setFlag flag) := by
  cases flag with
  | returned => exact ⟨rfl, h.raised, h.broken, h.continued⟩
  | raised => exact ⟨h.returned, rfl, h.broken, h.continued⟩

theorem Corresponds.clearFlag (h : f.Corresponds R f') (flag : Flag) :
    (f.clearFlag flag).Corresponds R (f'.clearFlag flag) := by
  cases flag with
  | returned => exact ⟨rfl, h.raised, h.broken, h.continued⟩
  | raised => exact ⟨h.returned, rfl, h.broken, h.continued⟩

theorem Corresponds.insertBroken (h : f.Corresponds R f') (loop : Nat) :
    (f.insertBroken loop).Corresponds R (f'.insertBroken loop) :=
  ⟨h.returned, h.raised, by simp only [PathFacts.insertBroken, h.broken], h.continued⟩

theorem Corresponds.removeBroken (h : f.Corresponds R f') (loop : Nat) :
    (f.removeBroken loop).Corresponds R (f'.removeBroken loop) :=
  ⟨h.returned, h.raised, by simp only [PathFacts.removeBroken, h.broken], h.continued⟩

theorem Corresponds.insertContinued (h : f.Corresponds R f') (hR : Offset.Correspondence R)
    (loop : Nat) {o o' : Int} (ho : R o o') :
    (f.insertContinued loop o).Corresponds R (f'.insertContinued loop o') := by
  have hrestart : RestartCorresponds R (loop, o) (loop, o') := ⟨rfl, ho⟩
  exact ⟨h.returned, h.raised, h.broken, rel_insert (restartBefore_eq hR) hrestart h.continued⟩

theorem Corresponds.removeContinued (h : f.Corresponds R f') (loop : Nat) :
    (f.removeContinued loop).Corresponds R (f'.removeContinued loop) :=
  ⟨h.returned, h.raised, h.broken, rel_filter (fun x x' hx => by rw [hx.1]) h.continued⟩

theorem Corresponds.restarts (h : f.Corresponds R f') (loop : Nat) :
    List.Forall₂ R (f.restarts loop) (f'.restarts loop) :=
  List.rel_map (fun _ _ hx => hx.2) (rel_filter (fun x x' hx => by rw [hx.1]) h.continued)

theorem Corresponds.union (h : f.Corresponds R f') (hg : g.Corresponds R g')
    (hR : Offset.Correspondence R) : (f.union g).Corresponds R (f'.union g') where
  returned := by rw [PathFacts.union, PathFacts.union, h.returned, hg.returned]
  raised := by rw [PathFacts.union, PathFacts.union, h.raised, hg.raised]
  broken := by rw [PathFacts.union, PathFacts.union, h.broken, hg.broken]
  continued := rel_union (restartBefore_eq hR) h.continued hg.continued

theorem corresponds_join (hR : Offset.Correspondence R) {paths paths' : List PathFacts}
    (h : List.Forall₂ (Corresponds R) paths paths') : (join paths).Corresponds R (join paths') :=
  List.rel_foldl (fun _ _ hf _ _ hg => hf.union hg hR) corresponds_default h

end PathFacts

end BytecodeFlow
