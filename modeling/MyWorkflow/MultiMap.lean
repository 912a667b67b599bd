import Mathlib.Data.List.AList
import Mathlib.Tactic.Common

set_option autoImplicit false

namespace MyWorkflow.MultiMap

variable {κ ν : Type} [DecidableEq κ]

def valuesOf (k : κ) (pairs : List (κ × ν)) : List ν :=
  (pairs.filter fun p => p.1 = k).map Prod.snd

@[simp] theorem valuesOf_nil (k : κ) : valuesOf k ([] : List (κ × ν)) = [] := rfl

theorem valuesOf_append (k : κ) (pairs pairs' : List (κ × ν)) :
    valuesOf k (pairs ++ pairs') = valuesOf k pairs ++ valuesOf k pairs' := by
  simp [valuesOf]

theorem valuesOf_single (k k' : κ) (v : ν) :
    valuesOf k' [(k, v)] = if k = k' then [v] else [] := by
  by_cases h : k = k' <;> simp [valuesOf, h]

def Collects (m : AList fun _ : κ => List ν) (pairs : List (κ × ν)) : Prop :=
  ∀ k, m.lookup k = if valuesOf k pairs = [] then none else some (valuesOf k pairs)

def push (m : AList fun _ : κ => List ν) (k : κ) (v : ν) : AList fun _ : κ => List ν :=
  m.insert k ((m.lookup k).getD [] ++ [v])

theorem Collects.empty : Collects (∅ : AList fun _ : κ => List ν) [] := by
  intro k
  rw [AList.lookup_empty, valuesOf_nil, if_pos rfl]

theorem Collects.push {m : AList fun _ : κ => List ν} {pairs : List (κ × ν)}
    (h : Collects m pairs) (k : κ) (v : ν) : Collects (push m k v) (pairs ++ [(k, v)]) := by
  intro k'
  rw [valuesOf_append, valuesOf_single]
  by_cases hk : k = k'
  · subst hk
    rw [MultiMap.push, AList.lookup_insert, h k]
    by_cases hv : valuesOf k pairs = [] <;> simp [hv]
  · rw [MultiMap.push, AList.lookup_insert_ne (Ne.symm hk), h k', if_neg hk, List.append_nil]

def KeepsFirst (m : AList fun _ : κ => ν) (pairs : List (κ × ν)) : Prop :=
  ∀ k, m.lookup k = (valuesOf k pairs).head?

def putNew (m : AList fun _ : κ => ν) (k : κ) (v : ν) : AList fun _ : κ => ν :=
  if k ∈ m then m else m.insert k v

theorem KeepsFirst.empty : KeepsFirst (∅ : AList fun _ : κ => ν) [] := by
  intro k
  rw [AList.lookup_empty]
  rfl

theorem KeepsFirst.putNew {m : AList fun _ : κ => ν} {pairs : List (κ × ν)}
    (h : KeepsFirst m pairs) (k : κ) (v : ν) : KeepsFirst (putNew m k v) (pairs ++ [(k, v)]) := by
  intro k'
  rw [valuesOf_append, valuesOf_single, List.head?_append, ← h k']
  by_cases hk : k = k'
  · subst hk
    by_cases hmem : k ∈ m
    · obtain ⟨w, hw⟩ := Option.isSome_iff_exists.mp (AList.lookup_isSome.mpr hmem)
      simp [MultiMap.putNew, hmem, hw]
    · simp [MultiMap.putNew, hmem, AList.lookup_eq_none.mpr hmem]
  · have hput : (MultiMap.putNew m k v).lookup k' = m.lookup k' := by
      unfold MultiMap.putNew
      split_ifs
      · rfl
      · exact AList.lookup_insert_ne (Ne.symm hk)
    rw [hput, if_neg hk]
    simp

end MyWorkflow.MultiMap
