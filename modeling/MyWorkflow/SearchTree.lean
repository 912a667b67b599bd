import Mathlib.Data.List.Nodup
import Mathlib.Data.Tree.Basic
import Mathlib.Tactic.Common

set_option autoImplicit false

/-!
# Searching in trees

What a search finds, and the neighbours of a node, in terms of the in-order sequence.
-/
namespace MyWorkflow.SearchTree
open List

variable {α : Type}

def inorder : BinaryTree α → List α
  | .nil => []
  | .node x l r => inorder l ++ x :: inorder r

@[simp] theorem inorder_nil : inorder (.nil : BinaryTree α) = [] := rfl

@[simp] theorem inorder_node (x : α) (l r : BinaryTree α) :
    inorder (.node x l r) = inorder l ++ x :: inorder r := rfl

theorem inorder_eq_nil {t : BinaryTree α} : inorder t = [] ↔ t = .nil := by
  cases t <;> simp

inductive Side where
  | left
  | right
deriving DecidableEq, Repr

def bound (below : α → Bool) : BinaryTree α → Option α
  | .nil => none
  | .node x l r => if below x then (bound below l).or (some x) else bound below r

theorem bound_eq_find? {below : α → Bool} {t : BinaryTree α}
    (hs : (inorder t).Pairwise (fun a b => below a = true → below b = true)) :
    bound below t = (inorder t).find? below := by
  induction t with
  | nil => rfl
  | node x l r ihl ihr =>
    simp only [inorder_node, pairwise_append, pairwise_cons] at hs
    obtain ⟨hsl, ⟨-, hsr⟩, hlx⟩ := hs
    simp only [bound, inorder_node, List.find?_append, List.find?_cons]
    split_ifs with hx
    · rw [ihl hsl, hx]
    · have hleft : (inorder l).find? below = none := by
        rw [List.find?_eq_none]
        intro e he hbelow
        exact hx (hlx e he x mem_cons_self hbelow)
      rw [ihr hsr, hleft, Option.none_or, Bool.eq_false_iff.mpr hx]

/-! ## Neighbours -/

section Neighbours

variable [DecidableEq α]

def next (x : α) : List α → Option α
  | [] => none
  | a :: l => if a = x then l.head? else next x l

def prev (x : α) (l : List α) : Option α := next x l.reverse

theorem head?_erase (x : α) (l : List α) :
    (l.erase x).head? = if l.head? = some x then next x l else l.head? := by
  cases l with
  | nil => rfl
  | cons a l =>
    by_cases ha : a = x
    · simp [ha, next]
    · simp [ha, erase_cons_tail]

theorem getLast?_erase {l : List α} (x : α) (hn : l.Nodup) :
    (l.erase x).getLast? = if l.getLast? = some x then prev x l else l.getLast? := by
  have herase : (l.erase x).reverse = l.reverse.erase x := by
    rw [hn.erase_eq_filter, (nodup_reverse.mpr hn).erase_eq_filter, filter_reverse]
  rw [← List.head?_reverse, herase, head?_erase, prev, List.head?_reverse]

end Neighbours

/-! ## Three-way search -/

def search (cmp : α → Ordering) : BinaryTree α → Option α
  | .nil => none
  | .node x l r =>
    match cmp x with
    | .lt => search cmp l
    | .gt => search cmp r
    | .eq => some x

theorem search_eq_some {cmp : α → Ordering} {t : BinaryTree α} {x : α}
    (h : search cmp t = some x) : x ∈ inorder t ∧ cmp x = .eq := by
  induction t with
  | nil => cases h
  | node y l r ihl ihr =>
    rw [search] at h
    rw [inorder_node]
    split at h
    · have hl := ihl h
      exact ⟨by simp [hl.1], hl.2⟩
    · have hr := ihr h
      exact ⟨by simp [hr.1], hr.2⟩
    · next hy =>
      cases h
      exact ⟨by simp, hy⟩

theorem search_eq_none_iff {cmp : α → Ordering} {t : BinaryTree α}
    (hs : (inorder t).Pairwise
      (fun a b => (cmp a = .lt → cmp b = .lt) ∧ (cmp b = .gt → cmp a = .gt))) :
    search cmp t = none ↔ ∀ x ∈ inorder t, cmp x ≠ .eq := by
  induction t with
  | nil => simp [search]
  | node y l r ihl ihr =>
    simp only [inorder_node, pairwise_append, pairwise_cons] at hs
    obtain ⟨hsl, ⟨hyr, hsr⟩, hlx⟩ := hs
    rw [search]
    simp only [inorder_node, mem_append, mem_cons]
    split
    · next hy =>
      -- everything from `y` on is above
      rw [ihl hsl]
      refine ⟨fun h x hx => ?_, fun h x hx => h x (.inl hx)⟩
      obtain hx | rfl | hx := hx
      · exact h x hx
      · rw [hy]
        decide
      · rw [(hyr x hx).1 hy]
        decide
    · next hy =>
      rw [ihr hsr]
      refine ⟨fun h x hx => ?_, fun h x hx => h x (.inr (.inr hx))⟩
      obtain hx | rfl | hx := hx
      · rw [(hlx x hx y mem_cons_self).2 hy]
        decide
      · rw [hy]
        decide
      · exact h x hx
    · next hy => exact iff_of_false (by simp) (fun h => h y (.inr (.inl rfl)) hy)

end MyWorkflow.SearchTree
