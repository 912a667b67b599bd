import Mathlib.Algebra.Order.Field.Basic
import Mathlib.Algebra.Order.Field.Power
import Mathlib.Data.List.TakeWhile
import Mathlib.Data.Rat.Cast.Order
import Mathlib.Tactic.Linarith
import Mathlib.Tactic.Positivity
import Mathlib.Tactic.Ring

set_option autoImplicit false

/-!
# Decimal fractions

A list of digits with a power of ten, and the interval it lies in once digits are dropped.
-/
namespace MyWorkflow.Decimals
open List

def value (ds : List ℕ) : ℕ := ds.foldl (fun n d => n * 10 + d) 0

theorem foldl_value (n : ℕ) (ds : List ℕ) :
    ds.foldl (fun n d => n * 10 + d) n = n * 10 ^ ds.length + value ds := by
  induction ds generalizing n with
  | nil => simp [value]
  | cons d ds ih =>
    have hcons : value (d :: ds) = ds.foldl (fun n d => n * 10 + d) d := by simp [value]
    rw [hcons, foldl_cons, ih, ih, length_cons, pow_succ']
    ring

theorem value_append (ds ds' : List ℕ) :
    value (ds ++ ds') = value ds * 10 ^ ds'.length + value ds' := by
  rw [value, foldl_append, foldl_value]
  rfl

@[simp] theorem value_nil : value [] = 0 := rfl

theorem value_snoc (ds : List ℕ) (d : ℕ) : value (ds ++ [d]) = value ds * 10 + d := by
  rw [value_append]
  simp [value]

theorem value_cons (d : ℕ) (ds : List ℕ) : value (d :: ds) = d * 10 ^ ds.length + value ds := by
  have h := value_append [d] ds
  simpa [value] using h

theorem value_lt {ds : List ℕ} (h : ∀ d ∈ ds, d < 10) : value ds < 10 ^ ds.length := by
  induction ds with
  | nil => simp
  | cons d ds ih =>
    have hd := h d mem_cons_self
    have hds := ih (fun e he => h e (mem_cons_of_mem d he))
    have hle : d * 10 ^ ds.length ≤ 9 * 10 ^ ds.length := Nat.mul_le_mul_right _ (by omega)
    rw [value_cons, length_cons, pow_succ]
    omega

theorem le_value {d : ℕ} {ds : List ℕ} (hd : d ≠ 0) : 10 ^ ds.length ≤ value (d :: ds) := by
  have hle : 1 * 10 ^ ds.length ≤ d * 10 ^ ds.length :=
    Nat.mul_le_mul_right _ (Nat.one_le_iff_ne_zero.mpr hd)
  rw [value_cons]
  omega

theorem value_dropWhile (ds : List ℕ) : value (ds.dropWhile (· = 0)) = value ds := by
  induction ds with
  | nil => rfl
  | cons d ds ih =>
    by_cases hd : d = 0
    · rw [dropWhile_cons_of_pos (by simpa using hd), ih, value_cons, hd]
      simp
    · rw [dropWhile_cons_of_neg (by simpa using hd)]

theorem value_eq_zero {ds : List ℕ} (h : ∀ d ∈ ds, d = 0) : value ds = 0 := by
  have hdrop : ds.dropWhile (· = 0) = [] := by
    rw [dropWhile_eq_nil_iff]
    simpa using h
  rw [← value_dropWhile, hdrop, value_nil]

/-- `v` is `m` units of `10 ^ e` and less than another. -/
structure Within (m : ℕ) (e : ℤ) (v : ℚ) : Prop where
  lower : (m : ℚ) * 10 ^ e ≤ v
  upper : v < ((m : ℚ) + 1) * 10 ^ e

theorem ten_zpow_pos (e : ℤ) : (0 : ℚ) < 10 ^ e := zpow_pos (by norm_num) e

theorem ten_zpow_add (e : ℤ) (k : ℕ) : (10 : ℚ) ^ (e + k) = 10 ^ k * 10 ^ e := by
  rw [zpow_add₀ (by norm_num), zpow_natCast, mul_comm]

theorem within_take {ds : List ℕ} (h : ∀ d ∈ ds, d < 10) (k : ℕ) (e : ℤ) :
    Within (value (ds.take k)) (e + (ds.drop k).length) ((value ds : ℚ) * 10 ^ e) := by
  have hsplit : value ds = value (ds.take k) * 10 ^ (ds.drop k).length + value (ds.drop k) := by
    rw [← value_append, take_append_drop]
  have hlt : value (ds.drop k) < 10 ^ (ds.drop k).length :=
    value_lt (fun d hd => h d (mem_of_mem_drop hd))
  have hpos := ten_zpow_pos e
  have hcast : (value (ds.drop k) : ℚ) < 10 ^ (ds.drop k).length := by exact_mod_cast hlt
  have hvalue : (value ds : ℚ) =
      value (ds.take k) * 10 ^ (ds.drop k).length + value (ds.drop k) := by exact_mod_cast hsplit
  constructor
  · rw [ten_zpow_add, ← mul_assoc, hvalue]
    exact mul_le_mul_of_nonneg_right (le_add_of_nonneg_right (Nat.cast_nonneg _)) hpos.le
  · rw [ten_zpow_add, ← mul_assoc, hvalue]
    refine mul_lt_mul_of_pos_right ?_ hpos
    rw [add_mul, one_mul]
    exact add_lt_add_right hcast _

theorem value_take {ds : List ℕ} {k : ℕ} (h : value (ds.drop k) = 0) (e : ℤ) :
    (value ds : ℚ) * 10 ^ e = value (ds.take k) * 10 ^ (e + (ds.drop k).length) := by
  have hsplit : value ds = value (ds.take k) * 10 ^ (ds.drop k).length + value (ds.drop k) := by
    rw [← value_append, take_append_drop]
  rw [h, Nat.add_zero] at hsplit
  rw [ten_zpow_add, ← mul_assoc, hsplit]
  push_cast
  rfl

theorem raise_eq (m : ℕ) (e : ℤ) : ((m * 10 : ℕ) : ℚ) * 10 ^ (e - 1) = m * 10 ^ e := by
  have h := ten_zpow_add (e - 1) 1
  rw [Nat.cast_one, sub_add_cancel, pow_one] at h
  rw [h]
  push_cast
  ring

theorem within_of_eq {m : ℕ} {e : ℤ} {v : ℚ} (h : v = m * 10 ^ e) : Within m e v := by
  have hpos := ten_zpow_pos e
  constructor
  · exact h.ge
  · rw [h, add_mul, one_mul]
    exact lt_add_of_pos_right _ hpos

theorem Within.reduce {m : ℕ} {e : ℤ} {v : ℚ} (h : Within (m * 10) e v) : Within m (e + 1) v := by
  have hpow := ten_zpow_add e 1
  rw [Nat.cast_one, pow_one] at hpow
  have hpos := ten_zpow_pos e
  have hlower := h.lower
  have hupper := h.upper
  push_cast at hlower hupper
  constructor
  · rw [hpow]
    linarith
  · rw [hpow]
    nlinarith

theorem Within.lt_pow {m figures : ℕ} {e : ℤ} {v : ℚ} (h : Within m e v) (hm : m < 10 ^ figures) :
    v < 10 ^ (e + figures) := by
  have hcast : (m : ℚ) + 1 ≤ 10 ^ figures := by exact_mod_cast hm
  rw [ten_zpow_add]
  exact h.upper.trans_le (mul_le_mul_of_nonneg_right hcast (ten_zpow_pos e).le)

theorem Within.pow_le {m k : ℕ} {e : ℤ} {v : ℚ} (h : Within m e v) (hm : 10 ^ k ≤ m) :
    (10 : ℚ) ^ (e + k) ≤ v := by
  have hcast : (10 : ℚ) ^ k ≤ m := by exact_mod_cast hm
  rw [ten_zpow_add]
  exact (mul_le_mul_of_nonneg_right hcast (ten_zpow_pos e).le).trans h.lower

theorem lt_of_ten_zpow_lt {a b : ℤ} (h : (10 : ℚ) ^ a < 10 ^ b) : a < b :=
  (zpow_lt_zpow_iff_right₀ (by norm_num)).mp h

theorem ten_zpow_le {a b : ℤ} (h : a ≤ b) : (10 : ℚ) ^ a ≤ 10 ^ b :=
  zpow_le_zpow_right₀ (by norm_num) h

end MyWorkflow.Decimals
