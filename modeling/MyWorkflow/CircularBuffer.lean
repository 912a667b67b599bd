import Mathlib.Logic.Function.Basic
import Mathlib.Tactic.Common

set_option autoImplicit false

/-!
# Circular buffers

A list in the slots of an array, from `front` on and around its end. There is always a slot left
over, so that `front = back` says that the list is empty.
-/
namespace MyWorkflow.CircularBuffer
open Function List

variable {α : Type}

def next (size i : ℕ) : ℕ := if i + 1 = size then 0 else i + 1

def prev (size i : ℕ) : ℕ := if i = 0 then size - 1 else i - 1

def place (size front k : ℕ) : ℕ := if front + k < size then front + k else front + k - size

def Filled (slots : ℕ → Option α) (size front : ℕ) (l : List α) : Prop :=
  ∀ k < l.length, slots (place size front k) = l[k]?

structure Holds (slots : ℕ → Option α) (size front back : ℕ) (l : List α) : Prop where
  front_lt : front < size
  room : l.length < size
  back_eq : back = place size front l.length
  filled : Filled slots size front l

variable {slots : ℕ → Option α} {size front back k : ℕ} {l : List α}

theorem place_zero (h : front < size) : place size front 0 = front := if_pos h

theorem place_lt (h : front < size) (hk : k < size) : place size front k < size := by
  unfold place
  split_ifs <;> omega

theorem place_ne {j : ℕ} (hj : j < k) (hk : k < size) :
    place size front j ≠ place size front k := by
  unfold place
  split_ifs <;> omega

theorem next_lt (h : front < size) : next size front < size := by
  unfold next
  split_ifs <;> omega

theorem prev_lt (h : front < size) : prev size front < size := by
  unfold prev
  split_ifs <;> omega

theorem next_prev (h : front < size) : next size (prev size front) = front := by
  unfold next prev
  split_ifs <;> omega

theorem next_place (h : front < size) (hk : k < size) :
    next size (place size front k) = place size front (k + 1) := by
  unfold next place
  split_ifs <;> omega

theorem place_next (hk : k < size) :
    place size (next size front) k = place size front (k + 1) := by
  unfold next place
  split_ifs <;> omega

theorem Holds.back_lt (h : Holds slots size front back l) : back < size := by
  rw [h.back_eq]
  exact place_lt h.front_lt h.room

theorem Holds.empty_iff (h : Holds slots size front back l) : front = back ↔ l = [] := by
  rw [h.back_eq]
  constructor
  · intro heq
    by_contra hne
    exact place_ne (length_pos_iff.mpr hne) h.room ((place_zero h.front_lt).trans heq)
  · rintro rfl
    exact (place_zero h.front_lt).symm

theorem eq_front_iff (h : front < size) : place size front k = front ↔ k = 0 ∨ k = size := by
  unfold place
  split_ifs <;> omega

theorem Filled.append (h : Filled slots size front l) (hroom : l.length < size) (a : α) :
    Filled (update slots (place size front l.length) (some a)) size front (l ++ [a]) := by
  intro k hk
  rw [length_append, length_singleton] at hk
  by_cases hlast : k = l.length
  · rw [hlast, update_self, List.getElem?_concat_length]
  · have hlt : k < l.length := by omega
    rw [update_of_ne (place_ne hlt hroom), List.getElem?_append_left hlt]
    exact h k hlt

theorem Filled.cons (h : Filled slots size (next size front) l) (hfront : front < size)
    (hroom : l.length < size) (a : α) :
    Filled (update slots front (some a)) size front (a :: l) := by
  intro k hk
  rw [length_cons] at hk
  cases k with
  | zero => rw [place_zero hfront, update_self, List.getElem?_cons_zero]
  | succ k =>
    have hne : place size front (k + 1) ≠ front := by
      rw [ne_eq, eq_front_iff hfront]
      omega
    rw [update_of_ne hne, ← place_next (by omega), List.getElem?_cons_succ]
    exact h k (by omega)

theorem Holds.pop {a : α} (h : Holds slots size front back (a :: l)) :
    slots front = some a ∧ Holds slots size (next size front) back l := by
  have hroom := h.room
  rw [length_cons] at hroom
  have hfirst := h.filled 0 (Nat.succ_pos _)
  rw [place_zero h.front_lt, List.getElem?_cons_zero] at hfirst
  refine ⟨hfirst, next_lt h.front_lt, by omega, ?_, ?_⟩
  · rw [h.back_eq, length_cons, place_next (by omega)]
  · intro k hk
    rw [place_next (by omega), h.filled (k + 1) (by simpa using hk),
      List.getElem?_cons_succ]

end MyWorkflow.CircularBuffer
