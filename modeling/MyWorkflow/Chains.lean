import Mathlib.Data.List.Nodup
import Mathlib.Logic.Function.Basic
import Mathlib.Tactic.Common

set_option autoImplicit false

/-!
# Chains of links

Memory that holds singly linked lists whose links are inside the elements: a cell is the head of
a list or the link of an element, and what it points to is the next element.
-/
namespace MyWorkflow.Chains
open Function List

inductive Cell (ρ μ : Type) where
  | head (r : ρ)
  | link (m : μ)
deriving DecidableEq, Repr

variable {ρ μ : Type}

def Linked (next : Cell ρ μ → Option μ) : Cell ρ μ → List μ → Prop
  | c, [] => next c = none
  | c, m :: l => next c = some m ∧ Linked next (.link m) l

def lastCell : Cell ρ μ → List μ → Cell ρ μ
  | c, [] => c
  | _, m :: l => lastCell (.link m) l

@[simp] theorem lastCell_concat (c : Cell ρ μ) (l : List μ) (m : μ) :
    lastCell c (l ++ [m]) = .link m := by
  induction l generalizing c with
  | nil => rfl
  | cons x l ih => exact ih (.link x)

theorem lastCell_mem (c : Cell ρ μ) (l : List μ) :
    lastCell c l = c ∨ ∃ m ∈ l, lastCell c l = .link m := by
  induction l generalizing c with
  | nil => exact .inl rfl
  | cons x l ih =>
    rcases ih (.link x) with h | ⟨m, hm, h⟩
    · exact .inr ⟨x, mem_cons_self, h⟩
    · exact .inr ⟨m, mem_cons_of_mem _ hm, h⟩

variable {next : Cell ρ μ → Option μ} {c d : Cell ρ μ} {l l' : List μ} {m : μ}

theorem Linked.next_eq (h : Linked next c l) : next c = l.head? := by
  cases l with
  | nil => exact h
  | cons m l => exact h.1

variable [DecidableEq ρ] [DecidableEq μ]

theorem Linked.frame (h : Linked next c l) (hc : d ≠ c) (hl : ∀ m ∈ l, d ≠ .link m)
    (v : Option μ) : Linked (update next d v) c l := by
  induction l generalizing c with
  | nil => exact (update_of_ne hc.symm _ _).trans h
  | cons m l ih =>
    refine ⟨(update_of_ne hc.symm _ _).trans h.1, ?_⟩
    exact ih h.2 (hl m mem_cons_self) (fun x hx => hl x (mem_cons_of_mem _ hx))

theorem Linked.append (h : Linked next c l) (hm : m ∉ l) (hc : c ≠ .link m) (hn : l.Nodup)
    (hcl : ∀ x ∈ l, c ≠ .link x) :
    Linked (update (update next (.link m) none) (lastCell c l) (some m)) c
      (l ++ [m]) := by
  induction l generalizing c with
  | nil =>
    refine ⟨update_self _ _ _, ?_⟩
    exact (update_of_ne hc.symm _ _).trans (update_self _ _ _)
  | cons x l ih =>
    obtain ⟨hx, hn⟩ := nodup_cons.mp hn
    obtain ⟨hxm, hm⟩ := not_or.mp (mt mem_cons.mpr hm)
    have hlast : c ≠ lastCell (.link x) l := by
      rcases lastCell_mem (.link x : Cell ρ μ) l with heq | ⟨y, hy, heq⟩
      · rw [heq]
        exact hcl x mem_cons_self
      · rw [heq]
        exact hcl y (mem_cons_of_mem _ hy)
    refine ⟨?_, ?_⟩
    · exact (update_of_ne hlast _ _).trans ((update_of_ne hc _ _).trans h.1)
    · refine ih h.2 hm (by simpa using Ne.symm hxm) hn ?_
      intro y hy heq
      cases heq
      exact hx hy

theorem Linked.push (h : Linked next c l) (hm : m ∉ l) (hc : c ≠ .link m)
    (hcl : ∀ x ∈ l, c ≠ .link x) :
    Linked (update (update next (.link m) (next c)) c (some m)) c (m :: l) := by
  refine ⟨update_self _ _ _, ?_⟩
  cases l with
  | nil =>
    refine (update_of_ne hc.symm _ _).trans ?_
    exact (update_self _ _ _).trans h
  | cons x l =>
    refine ⟨?_, ?_⟩
    · refine (update_of_ne hc.symm _ _).trans ?_
      exact (update_self _ _ _).trans h.1
    · obtain ⟨hmx, hml⟩ := not_or.mp (mt mem_cons.mpr hm)
      have hframe : Linked (update next (.link m) (next c)) (.link x) l := by
        refine h.2.frame (by simpa using hmx) ?_ _
        intro y hy heq
        cases heq
        exact hml hy
      exact hframe.frame (hcl x mem_cons_self)
        (fun y hy => hcl y (mem_cons_of_mem _ hy)) _

theorem Linked.pop (h : Linked next c (m :: l)) (hcl : ∀ x ∈ l, c ≠ .link x) :
    Linked (update next c (next (.link m))) c l := by
  cases l with
  | nil => exact (update_self _ _ _).trans h.2
  | cons x l =>
    refine ⟨(update_self _ _ _).trans h.2.1, ?_⟩
    exact h.2.2.frame (hcl x mem_cons_self)
      (fun y hy => hcl y (mem_cons_of_mem _ hy)) _

end MyWorkflow.Chains
