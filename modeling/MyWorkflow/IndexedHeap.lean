import Mathlib.Data.Set.Insert
import Mathlib.Logic.Function.Basic
import Mathlib.Order.Defs.LinearOrder
import Mathlib.Tactic.Common
import MyWorkflow.Bags

set_option autoImplicit false

/-!
# Heaps whose items know their places

A sift has one item in its hand: its state is an array with a hole, and what holds of it is said
of the array with the item put into the hole.
-/
namespace MyWorkflow.IndexedHeap
open Function Bags

variable {α : Type} [DecidableEq α] {K : Type} [LinearOrder K]

structure Slots (α : Type) where
  item : ℕ → α
  pos : α → ℕ

def Slots.place (h : Slots α) (i : ℕ) (x : α) : Slots α :=
  ⟨update h.item i x, update h.pos x i⟩

namespace Slots

variable {h : Slots α} {n i j : ℕ} {x y : α} {S : Set α}

@[simp] theorem place_item_self (h : Slots α) (i : ℕ) (x : α) : (h.place i x).item i = x :=
  update_self _ _ _

@[simp] theorem place_pos_self (h : Slots α) (i : ℕ) (x : α) : (h.place i x).pos x = i :=
  update_self _ _ _

theorem place_item_of_ne (hj : j ≠ i) : (h.place i x).item j = h.item j :=
  update_of_ne hj _ _

theorem place_pos_of_ne (hy : y ≠ x) : (h.place i x).pos y = h.pos y :=
  update_of_ne hy _ _

/-- The first `n` places hold each item of `S` once, and each of them knows where. -/
structure Filled (h : Slots α) (n : ℕ) (S : Set α) : Prop where
  item : ∀ i < n, h.item i ∈ S ∧ h.pos (h.item i) = i
  pos : ∀ x ∈ S, h.pos x < n ∧ h.item (h.pos x) = x

omit [DecidableEq α] in
theorem Filled.injective (F : h.Filled n S) (hi : i < n) (hj : j < n)
    (heq : h.item i = h.item j) : i = j := by
  rw [← (F.item i hi).2, ← (F.item j hj).2, heq]

theorem Filled.place_self (F : h.Filled n S) (hi : i < n) : h.place i (h.item i) = h := by
  obtain ⟨item, pos⟩ := h
  have hpos : pos (item i) = i := (F.item i hi).2
  have hupdate : update pos (item i) i = pos := by
    funext y
    by_cases hy : y = item i
    · subst hy
      rw [update_self, hpos]
    · rw [update_of_ne hy]
  rw [place, update_eq_self, hupdate]

theorem Filled.place_pos (F : h.Filled n S) (hx : x ∈ S) : h.place (h.pos x) x = h := by
  obtain ⟨hlt, hitem⟩ := F.pos x hx
  have hself := F.place_self hlt
  rwa [hitem] at hself

theorem Filled.move (F : (h.place i x).Filled n S) (hi : i < n) (hj : j < n) (hne : j ≠ i) :
    ((h.place i (h.item j)).place j x).Filled n S := by
  have hx : x ∈ S := by simpa using (F.item i hi).1
  have hyj : (h.place i x).item j = h.item j := place_item_of_ne hne
  have hy : h.item j ∈ S := hyj ▸ (F.item j hj).1
  have hxy : h.item j ≠ x := by
    intro heq
    have hsame : (h.place i x).item j = (h.place i x).item i := by rw [hyj, heq, place_item_self]
    exact hne (F.injective hj hi hsame)
  refine ⟨?_, ?_⟩
  · intro k hk
    by_cases hkj : k = j
    · subst hkj
      simpa using hx
    rw [place_item_of_ne hkj]
    by_cases hki : k = i
    · subst hki
      rw [place_item_self, place_pos_of_ne hxy, place_pos_self]
      exact ⟨hy, rfl⟩
    -- a place that neither the hole nor the item was in
    obtain ⟨hz, hpos⟩ := F.item k hk
    have hxk : (h.place i x).item k ≠ x := by
      intro heq
      have hsame : (h.place i x).item k = (h.place i x).item i := by rw [heq, place_item_self]
      exact hki (F.injective hk hi hsame)
    have hyk : (h.place i x).item k ≠ h.item j := by
      rw [← hyj]
      exact fun heq => hkj (F.injective hk hj heq)
    rw [place_item_of_ne hki] at hz hpos hxk hyk ⊢
    rw [place_pos_of_ne hxk] at hpos
    rw [place_pos_of_ne hxk, place_pos_of_ne hyk]
    exact ⟨hz, hpos⟩
  · intro z hz
    by_cases hzx : z = x
    · subst hzx
      rw [place_pos_self, place_item_self]
      exact ⟨hj, rfl⟩
    obtain ⟨hlt, hitem⟩ := F.pos z hz
    rw [place_pos_of_ne hzx] at hlt hitem ⊢
    by_cases hzy : z = h.item j
    · subst hzy
      rw [place_pos_self, place_item_of_ne hne.symm, place_item_self]
      exact ⟨hi, rfl⟩
    rw [place_pos_of_ne hzy]
    have hzi : h.pos z ≠ i := by
      intro heq
      rw [heq, place_item_self] at hitem
      exact hzx hitem.symm
    have hzj : h.pos z ≠ j := by
      intro heq
      rw [heq, hyj] at hitem
      exact hzy hitem.symm
    rw [place_item_of_ne hzi] at hitem
    rw [place_item_of_ne hzj, place_item_of_ne hzi]
    exact ⟨hlt, hitem⟩

theorem Filled.push (F : h.Filled n S) (hx : x ∉ S) :
    (h.place n x).Filled (n + 1) (insert x S) := by
  have hother : ∀ y ∈ S, y ≠ x := fun y hy heq => hx (heq ▸ hy)
  refine ⟨?_, ?_⟩
  · intro k hk
    by_cases hkn : k = n
    · subst hkn
      simp
    · obtain ⟨hmem, hpos⟩ := F.item k (by omega)
      rw [place_item_of_ne hkn, place_pos_of_ne (hother _ hmem)]
      exact ⟨.inr hmem, hpos⟩
  · intro y hy
    rcases hy with rfl | hy
    · rw [place_pos_self, place_item_self]
      exact ⟨Nat.lt_succ_self n, rfl⟩
    · obtain ⟨hlt, hitem⟩ := F.pos y hy
      rw [place_pos_of_ne (hother y hy), place_item_of_ne (Nat.ne_of_lt hlt)]
      exact ⟨Nat.lt_succ_of_lt hlt, hitem⟩

omit [DecidableEq α] in
theorem Filled.dropLast (F : h.Filled (n + 1) S) : h.Filled n (S \ {h.item n}) := by
  refine ⟨?_, ?_⟩
  · intro k hk
    obtain ⟨hmem, hpos⟩ := F.item k (by omega)
    refine ⟨⟨hmem, ?_⟩, hpos⟩
    intro heq
    exact Nat.ne_of_lt hk (F.injective (by omega) (Nat.lt_succ_self n) heq)
  · rintro y ⟨hy, hne⟩
    obtain ⟨hlt, hitem⟩ := F.pos y hy
    refine ⟨?_, hitem⟩
    have hpos : h.pos y ≠ n := by
      intro heq
      rw [heq] at hitem
      exact hne hitem.symm
    omega

theorem Filled.fillGap (F : h.Filled (n + 1) S) (hi : i < n) :
    (h.place i (h.item n)).Filled n (S \ {h.item i}) := by
  obtain ⟨hlast, hlastpos⟩ := F.item n (Nat.lt_succ_self n)
  have hne : h.item n ≠ h.item i := by
    intro heq
    exact Nat.ne_of_gt hi (F.injective (Nat.lt_succ_self n) (by omega) heq)
  refine ⟨?_, ?_⟩
  · intro k hk
    by_cases hki : k = i
    · subst hki
      rw [place_item_self, place_pos_self]
      exact ⟨⟨hlast, hne⟩, rfl⟩
    · obtain ⟨hmem, hpos⟩ := F.item k (by omega)
      have hkn : h.item k ≠ h.item n := by
        intro heq
        exact Nat.ne_of_lt hk (F.injective (by omega) (Nat.lt_succ_self n) heq)
      rw [place_item_of_ne hki, place_pos_of_ne hkn]
      exact ⟨⟨hmem, fun heq => hki (F.injective (by omega) (by omega) heq)⟩, hpos⟩
  · rintro y ⟨hy, hyi⟩
    by_cases hyn : y = h.item n
    · subst hyn
      rw [place_pos_self, place_item_self]
      exact ⟨hi, rfl⟩
    · obtain ⟨hlt, hitem⟩ := F.pos y hy
      have hposn : h.pos y ≠ n := by
        intro heq
        rw [heq] at hitem
        exact hyn hitem.symm
      have hposi : h.pos y ≠ i := by
        intro heq
        rw [heq] at hitem
        exact hyi hitem.symm
      rw [place_pos_of_ne hyn, place_item_of_ne hposi]
      exact ⟨by omega, hitem⟩

omit [DecidableEq α] in
theorem Filled.total_eq {h' : Slots α} (F : h.Filled n S) (F' : h'.Filled n S) (f : α → ℕ) :
    total n (fun i => f (h.item i)) = total n (fun i => f (h'.item i)) := by
  refine Finset.sum_nbij' (fun i => h'.pos (h.item i)) (fun i => h.pos (h'.item i)) ?_ ?_ ?_ ?_ ?_
  · intro i hi
    exact Finset.mem_range.mpr (F'.pos _ (F.item i (Finset.mem_range.mp hi)).1).1
  · intro i hi
    exact Finset.mem_range.mpr (F.pos _ (F'.item i (Finset.mem_range.mp hi)).1).1
  · intro i hi
    obtain ⟨hmem, hpos⟩ := F.item i (Finset.mem_range.mp hi)
    rw [(F'.pos _ hmem).2, hpos]
  · intro i hi
    obtain ⟨hmem, hpos⟩ := F'.item i (Finset.mem_range.mp hi)
    rw [(F.pos _ hmem).2, hpos]
  · intro i hi
    rw [(F'.pos _ (F.item i (Finset.mem_range.mp hi)).1).2]

omit [DecidableEq α] in
theorem Filled.total_change (F : h.Filled n S) (hx : x ∈ S) {f g : α → ℕ}
    (hother : ∀ y, y ≠ x → g y = f y) :
    total n (fun i => g (h.item i)) + f x = total n (fun i => f (h.item i)) + g x := by
  obtain ⟨hlt, hitem⟩ := F.pos x hx
  have hchange := total_change_of_lt hlt (f := fun i => f (h.item i)) (g := fun i => g (h.item i))
    (fun i hi hne => hother _ (fun heq => hne (F.injective hi hlt (heq.trans hitem.symm))))
  rwa [hitem] at hchange

theorem Filled.total_diff {h' : Slots α} (F : h.Filled (n + 1) S) (hx : x ∈ S)
    (F' : h'.Filled n (S \ {x})) (f : α → ℕ) :
    total n (fun i => f (h'.item i)) + f x = total (n + 1) (fun i => f (h.item i)) := by
  have hpush := F'.push (x := x) (fun hin => hin.2 rfl)
  rw [Set.insert_sdiff_singleton, Set.insert_eq_of_mem hx] at hpush
  rw [F.total_eq hpush f, total_succ, place_item_self]
  congr 1
  refine total_congr ?_
  intro i hi
  rw [place_item_of_ne (Nat.ne_of_lt hi)]

end Slots

variable {n i c : ℕ} {k : ℕ → K}

def Ordered (n : ℕ) (k : ℕ → K) : Prop := ∀ j, 0 < j → j < n → k ((j - 1) / 2) ≤ k j

/-- Only the edges at `i` may be out of order, and there is nothing wrong across them. -/
structure OrderedAround (n : ℕ) (k : ℕ → K) (i : ℕ) : Prop where
  other : ∀ j, 0 < j → j < n → j ≠ i → (j - 1) / 2 ≠ i → k ((j - 1) / 2) ≤ k j
  across : 0 < i → ∀ j, 0 < j → j < n → (j - 1) / 2 = i → k ((i - 1) / 2) ≤ k j

structure OrderedBut (n : ℕ) (k : ℕ → K) (i : ℕ) : Prop extends OrderedAround n k i where
  below : ∀ j, 0 < j → j < n → (j - 1) / 2 = i → k i ≤ k j

structure OrderedBelow (n : ℕ) (k : ℕ → K) (i : ℕ) : Prop extends OrderedAround n k i where
  above : 0 < i → i < n → k ((i - 1) / 2) ≤ k i

theorem Ordered.root_le (o : Ordered n k) (i : ℕ) (hi : i < n) : k 0 ≤ k i := by
  induction i using Nat.strong_induction_on with
  | _ i ih =>
    rcases Nat.eq_zero_or_pos i with rfl | hpos
    · exact le_rfl
    · exact (ih ((i - 1) / 2) (by omega) (by omega)).trans (o i hpos hi)

theorem Ordered.around (o : Ordered n k) (hi : i < n) : OrderedAround n k i where
  other := fun j hj hn _ _ => o j hj hn
  across := by
    intro hpos j hj hn hparent
    have hij : k i ≤ k j := hparent ▸ o j hj hn
    exact (o i hpos hi).trans hij

theorem OrderedAround.change {k' : ℕ → K} (o : OrderedAround n k i)
    (hother : ∀ j < n, j ≠ i → k' j = k j) : OrderedAround n k' i where
  other := by
    intro j hj hn hji hparent
    rw [hother j hn hji, hother _ (by omega) hparent]
    exact o.other j hj hn hji hparent
  across := by
    intro hpos j hj hn hparent
    rw [hother j hn (by omega), hother _ (by omega) (by omega)]
    exact o.across hpos j hj hn hparent

theorem Ordered.decrease {k' : ℕ → K} (o : Ordered n k) (hi : i < n)
    (hother : ∀ j < n, j ≠ i → k' j = k j) (hle : k' i ≤ k i) : OrderedBut n k' i where
  toOrderedAround := (o.around hi).change hother
  below := by
    intro j hj hn hparent
    have hij : k i ≤ k j := hparent ▸ o j hj hn
    rw [hother j hn (by omega)]
    exact hle.trans hij

theorem Ordered.increase {k' : ℕ → K} (o : Ordered n k) (hi : i < n)
    (hother : ∀ j < n, j ≠ i → k' j = k j) (hle : k i ≤ k' i) : OrderedBelow n k' i where
  toOrderedAround := (o.around hi).change hother
  above := by
    intro hpos _
    rw [hother _ (by omega) (by omega)]
    exact (o i hpos hi).trans hle

theorem Ordered.push {k' : ℕ → K} (o : Ordered n k) (hother : ∀ j < n, k' j = k j) :
    OrderedBut (n + 1) k' n where
  other := by
    intro j hj hjn hne hparent
    rw [hother j (by omega), hother _ (by omega)]
    exact o j hj (by omega)
  across := by
    intro hpos j hj hjn hparent
    omega
  below := by
    intro j hj hjn hparent
    omega

theorem Ordered.pop {m : ℕ} (o : Ordered n k) (hm : m ≤ n) : Ordered m k :=
  fun j hj hjm => o j hj (by omega)

theorem OrderedBut.ordered (o : OrderedBut n k i) (hstop : 0 < i → k ((i - 1) / 2) ≤ k i) :
    Ordered n k := by
  intro j hj hn
  by_cases hji : j = i
  · subst hji
    exact hstop hj
  by_cases hparent : (j - 1) / 2 = i
  · rw [hparent]
    exact o.below j hj hn hparent
  · exact o.other j hj hn hji hparent

theorem OrderedBelow.ordered (o : OrderedBelow n k i)
    (hstop : ∀ j, 0 < j → j < n → (j - 1) / 2 = i → k i ≤ k j) : Ordered n k := by
  intro j hj hn
  by_cases hji : j = i
  · subst hji
    exact o.above hj hn
  by_cases hparent : (j - 1) / 2 = i
  · rw [hparent]
    exact hstop j hj hn hparent
  · exact o.other j hj hn hji hparent

theorem OrderedAround.up (o : OrderedAround n k i) (hi : 0 < i) (hn : i < n)
    (hle : k i ≤ k ((i - 1) / 2)) :
    OrderedBut n (update (update k i (k ((i - 1) / 2))) ((i - 1) / 2) (k i))
      ((i - 1) / 2) := by
  generalize hp : (i - 1) / 2 = p at hle ⊢
  have hpi : p ≠ i := by omega
  have hat : ∀ j, j ≠ i → j ≠ p →
      update (update k i (k p)) p (k i) j = k j := by
    intro j h₁ h₂
    rw [update_of_ne h₂, update_of_ne h₁]
  have hati : update (update k i (k p)) p (k i) i = k p := by
    rw [update_of_ne hpi.symm, update_self]
  refine ⟨⟨?_, ?_⟩, ?_⟩
  · intro j hj hjn hjp hparent
    have hji : j ≠ i := by
      rintro rfl
      exact hparent hp
    rw [hat j hji hjp]
    by_cases hji' : (j - 1) / 2 = i
    · rw [hji', hati, ← hp]
      exact o.across hi j hj hjn hji'
    · rw [hat _ hji' hparent]
      exact o.other j hj hjn hji hji'
  · intro hpos j hj hjn hparent
    have hup : k ((p - 1) / 2) ≤ k p := o.other p hpos (by omega) hpi (by omega)
    rw [hat _ (by omega) (by omega)]
    by_cases hji : j = i
    · rw [hji, hati]
      exact hup
    · rw [hat j hji (by omega)]
      have hdown := o.other j hj hjn hji (by omega)
      rw [hparent] at hdown
      exact hup.trans hdown
  · intro j hj hjn hparent
    rw [update_self]
    by_cases hji : j = i
    · rw [hji, hati]
      exact hle
    · rw [hat j hji (by omega)]
      have hdown := o.other j hj hjn hji (by omega)
      rw [hparent] at hdown
      exact hle.trans hdown

theorem OrderedBelow.down (o : OrderedBelow n k i) (hc : 0 < c) (hn : c < n)
    (hparent : (c - 1) / 2 = i) (hle : k c ≤ k i)
    (hmin : ∀ j, 0 < j → j < n → (j - 1) / 2 = i → k c ≤ k j) :
    OrderedBelow n (update (update k i (k c)) c (k i)) c := by
  have hci : c ≠ i := by omega
  have hat : ∀ j, j ≠ i → j ≠ c →
      update (update k i (k c)) c (k i) j = k j := by
    intro j h₁ h₂
    rw [update_of_ne h₂, update_of_ne h₁]
  have hati : update (update k i (k c)) c (k i) i = k c := by
    rw [update_of_ne hci.symm, update_self]
  refine ⟨⟨?_, ?_⟩, ?_⟩
  · intro j hj hjn hjc hjparent
    by_cases hji : j = i
    · subst hji
      rw [hati, hat _ (by omega) hjparent]
      exact o.across hj c hc hn hparent
    rw [hat j hji hjc]
    by_cases hji' : (j - 1) / 2 = i
    · rw [hji', hati]
      exact hmin j hj hjn hji'
    · rw [hat _ hji' hjparent]
      exact o.other j hj hjn hji hji'
  · intro _ j hj hjn hjparent
    rw [hparent, hati, hat j (by omega) (by omega)]
    have hdown := o.other j hj hjn (by omega) (by omega)
    rwa [hjparent] at hdown
  · intro _ _
    rw [hparent, hati, update_self]
    exact hle

end MyWorkflow.IndexedHeap
