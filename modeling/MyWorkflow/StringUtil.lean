import Mathlib.Data.List.DropRight
import MyWorkflow.CString

set_option autoImplicit false

/-! # Cutting strings: `StringUtil::split` and `StringUtil::strip` -/
namespace MyWorkflow.StringUtil
open List CString

/-- The loop of `split`: `piece` is what lies between `start` and the place `find` has come to. -/
def splitFrom (sep : UInt8) (piece : Bytes) : Bytes → List Bytes
  | [] => [piece]
  | c :: rest =>
    if c = sep then piece :: splitFrom sep [] rest else splitFrom sep (piece ++ [c]) rest

def split (str : Bytes) (sep : UInt8) : List Bytes := splitFrom sep [] str

def strip (str : Bytes) : Bytes := (str.dropWhile isspace).rdropWhile isspace

example : split (bytes "a,b,") 44 = [bytes "a", bytes "b", []] := by decide
example : strip (bytes " a b ") = bytes "a b" := by decide

theorem splitFrom_eq (sep : UInt8) (piece str : Bytes) :
    splitFrom sep piece str = (str.splitOn sep).modifyHead (piece ++ ·) := by
  induction str generalizing piece with
  | nil => simp [splitFrom]
  | cons c rest ih =>
    rw [splitFrom, splitOn_cons_eq_if_modifyHead]
    by_cases hc : c = sep
    · have hhead : (rest.splitOn sep).modifyHead ([] ++ ·) = rest.splitOn sep := by
        cases rest.splitOn sep <;> rfl
      rw [if_pos hc, if_pos (by simpa using hc), ih, hhead]
      simp
    · rw [if_neg hc, if_neg (by simpa using hc), ih]
      cases rest.splitOn sep <;> simp

theorem split_eq_splitOn (str : Bytes) (sep : UInt8) : split str sep = str.splitOn sep := by
  rw [split, splitFrom_eq]
  cases str.splitOn sep <;> rfl

theorem split_intercalate {sep : UInt8} {pieces : List Bytes} (h : ∀ p ∈ pieces, sep ∉ p)
    (hne : pieces ≠ []) : split ([sep].intercalate pieces) sep = pieces := by
  rw [split_eq_splitOn]
  exact splitOn_intercalate sep h hne

theorem split_append_cons {sep : UInt8} {piece : Bytes} (rest : Bytes) (h : sep ∉ piece) :
    split (piece ++ sep :: rest) sep = piece :: split rest sep := by
  rw [split_eq_splitOn, split_eq_splitOn]
  exact splitOn_append_cons_self_of_not_mem h rest

theorem split_of_notMem {sep : UInt8} {str : Bytes} (h : sep ∉ str) : split str sep = [str] := by
  rw [split_eq_splitOn]
  exact splitOn_eq_singleton h

theorem head?_split (str : Bytes) (sep : UInt8) :
    (split str sep).head? = some (str.takeWhile (· != sep)) := by
  have hcut := takeWhile_append_dropWhile (p := (· != sep)) (l := str)
  have hfree : sep ∉ str.takeWhile (· != sep) := by
    intro hmem
    simpa using mem_takeWhile_imp hmem
  cases hrest : str.dropWhile (· != sep) with
  | nil =>
    rw [hrest, append_nil] at hcut
    rw [hcut] at hfree ⊢
    rw [split_of_notMem hfree]
    rfl
  | cons c rest =>
    have hc := head_dropWhile_not (p := (· != sep)) (l := str) (by simp [hrest])
    simp only [hrest, head_cons, bne_eq_false_iff_eq] at hc
    rw [hrest, hc] at hcut
    have hsplit := split_append_cons rest hfree
    rw [hcut] at hsplit
    rw [hsplit]
    rfl

end MyWorkflow.StringUtil
