import Mathlib.Algebra.BigOperators.Group.Finset.Basic
import Mathlib.Algebra.GroupWithZero.Nat
import Mathlib.Algebra.Order.BigOperators.Group.Finset
import Mathlib.Data.List.Perm.Basic
import Mathlib.Tactic.Common

set_option autoImplicit false

/-!
# Bags of running activities

A list whose order does not matter: an activity is taken out, makes a step and is put back.
-/
namespace MyWorkflow.Bags
open List

variable {α β : Type} [DecidableEq α]

def replace (x : α) (new bag : List α) : List α := new ++ bag.erase x

theorem perm_of_mem {x : α} {bag : List α} (h : x ∈ bag) : bag.Perm (x :: bag.erase x) :=
  perm_cons_erase h

theorem countP_replace (p : α → Bool) {x : α} {bag : List α} (h : x ∈ bag) (new : List α) :
    (replace x new bag).countP p + [x].countP p = bag.countP p + new.countP p := by
  have hp := (perm_of_mem h).countP_eq p
  rw [← singleton_append, countP_append] at hp
  rw [replace, countP_append]
  omega

/-- `bag'` is `bag` with `old` taken out and `new` put in. -/
def Swaps (old new bag bag' : List α) : Prop := (old ++ bag').Perm (new ++ bag)

theorem swaps_replace {x : α} {bag : List α} (h : x ∈ bag) (new : List α) :
    Swaps [x] new bag (replace x new bag) := by
  have hmiddle : (x :: (new ++ bag.erase x)).Perm (new ++ x :: bag.erase x) := perm_middle.symm
  exact hmiddle.trans ((perm_of_mem h).symm.append_left new)

section Swaps

variable {old new bag bag' : List α} (h : Swaps old new bag bag')

include h

omit [DecidableEq α] in
theorem Swaps.countP (p : α → Bool) : old.countP p + bag'.countP p = new.countP p + bag.countP p := by
  rw [← countP_append, ← countP_append]
  exact List.Perm.countP_eq p h

omit [DecidableEq α] in
theorem Swaps.mem {x : α} (hx : x ∈ bag') : x ∈ new ∨ x ∈ bag :=
  mem_append.mp ((List.Perm.mem_iff h).mp (mem_append_right old hx))

end Swaps

def holdings (held : α → List β) (bag : List α) : List β := bag.flatMap held

omit [DecidableEq α] in
theorem count_holdings_cons [BEq β] (held : α → List β) (x : α) (bag : List α) (b : β) :
    (holdings held (x :: bag)).count b = (held x).count b + (holdings held bag).count b := by
  rw [holdings, flatMap_cons, count_append]
  rfl

omit [DecidableEq α] in
theorem mem_holdings_cons {held : α → List β} {x : α} {bag : List α} {b : β} :
    b ∈ holdings held (x :: bag) ↔ b ∈ held x ∨ b ∈ holdings held bag := by
  rw [holdings, flatMap_cons, mem_append]
  rfl

theorem mem_holdings_replace {held : α → List β} {x : α} {new bag : List α} {b : β}
    (h : b ∈ holdings held (replace x new bag)) :
    b ∈ holdings held new ∨ b ∈ holdings held bag := by
  rw [holdings, replace, flatMap_append, mem_append] at h
  refine h.imp_right ?_
  intro hb
  obtain ⟨a, ha, hab⟩ := mem_flatMap.mp hb
  exact mem_flatMap.mpr ⟨a, mem_of_mem_erase ha, hab⟩

theorem count_holdings_replace [BEq β] (held : α → List β) {x : α} {bag : List α}
    (h : x ∈ bag) (new : List α) (b : β) :
    (holdings held (replace x new bag)).count b + (held x).count b =
      (holdings held bag).count b + (holdings held new).count b := by
  have hp := ((perm_of_mem h).flatMap_right held).count_eq b
  rw [flatMap_cons, count_append] at hp
  rw [holdings, holdings, holdings, replace, flatMap_append, count_append]
  omega

theorem count_map_replace [BEq β] (f : α → β) {x : α} {bag : List α} (h : x ∈ bag)
    (new : List α) (b : β) :
    ((replace x new bag).map f).count b + [f x].count b =
      (bag.map f).count b + (new.map f).count b := by
  have hp := ((perm_of_mem h).map f).count_eq b
  rw [map_cons, ← singleton_append, count_append] at hp
  rw [replace, map_append, count_append]
  omega

def load (f : α → ℕ) (bag : List α) : ℕ := (bag.map f).sum

omit [DecidableEq α] in
@[simp] theorem load_nil (f : α → ℕ) : load f [] = 0 := rfl

omit [DecidableEq α] in
@[simp] theorem load_cons (f : α → ℕ) (x : α) (bag : List α) :
    load f (x :: bag) = f x + load f bag := rfl

omit [DecidableEq α] in
@[simp] theorem load_append (f : α → ℕ) (a b : List α) : load f (a ++ b) = load f a + load f b := by
  rw [load, map_append, sum_append]
  rfl

theorem load_erase (f : α → ℕ) {x : α} {bag : List α} (h : x ∈ bag) :
    load f (bag.erase x) + f x = load f bag := by
  have hp := ((perm_of_mem h).map f).sum_eq
  rw [map_cons, sum_cons] at hp
  rw [load, load]
  omega

theorem load_replace (f : α → ℕ) {x : α} {bag : List α} (h : x ∈ bag) (new : List α) :
    load f (replace x new bag) + f x = load f bag + load f new := by
  have he := load_erase f h
  rw [replace, load_append]
  omega

omit [DecidableEq α] in
theorem le_load (f : α → ℕ) {x : α} {bag : List α} (h : x ∈ bag) : f x ≤ load f bag :=
  le_sum_of_mem (mem_map_of_mem h)

omit [DecidableEq α] in
theorem load_eq_zero {f : α → ℕ} {bag : List α} (h : ∀ x ∈ bag, f x = 0) : load f bag = 0 := by
  rw [load, sum_eq_zero]
  intro n hn
  obtain ⟨x, hx, rfl⟩ := mem_map.mp hn
  exact h x hx

def total (n : ℕ) (f : ℕ → ℕ) : ℕ := ∑ e ∈ Finset.range n, f e

theorem total_succ (n : ℕ) (f : ℕ → ℕ) : total (n + 1) f = total n f + f n :=
  Finset.sum_range_succ f n

theorem total_congr {n : ℕ} {f g : ℕ → ℕ} (h : ∀ e < n, f e = g e) : total n f = total n g :=
  Finset.sum_congr rfl (fun e he => h e (Finset.mem_range.mp he))

theorem total_change_of_lt {n e : ℕ} (he : e < n) {f g : ℕ → ℕ}
    (h : ∀ d < n, d ≠ e → g d = f d) : total n g + f e = total n f + g e := by
  have hmem : e ∈ Finset.range n := Finset.mem_range.mpr he
  have hf := Finset.sum_erase_add (Finset.range n) f hmem
  have hg := Finset.sum_erase_add (Finset.range n) g hmem
  have hrest : ∑ d ∈ (Finset.range n).erase e, g d = ∑ d ∈ (Finset.range n).erase e, f d := by
    refine Finset.sum_congr rfl ?_
    intro d hd
    obtain ⟨hne, hd⟩ := Finset.mem_erase.mp hd
    exact h d (Finset.mem_range.mp hd) hne
  rw [total, total]
  omega

theorem total_change {n e : ℕ} (he : e < n) {f g : ℕ → ℕ} (h : ∀ d, d ≠ e → g d = f d) :
    total n g + f e = total n f + g e :=
  total_change_of_lt he (fun d _ hd => h d hd)

theorem total_le {n : ℕ} {f g : ℕ → ℕ} (h : ∀ e, f e ≤ g e) : total n f ≤ total n g :=
  Finset.sum_le_sum (fun e _ => h e)

theorem le_total {n e : ℕ} (he : e < n) (f : ℕ → ℕ) : f e ≤ total n f :=
  Finset.single_le_sum (fun _ _ => Nat.zero_le _) (Finset.mem_range.mpr he)

theorem total_eq_zero {n : ℕ} {f : ℕ → ℕ} (h : ∀ e < n, f e = 0) : total n f = 0 :=
  Finset.sum_eq_zero (fun e he => h e (Finset.mem_range.mp he))

end MyWorkflow.Bags
