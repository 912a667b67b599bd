import Mathlib.Algebra.Order.Field.Basic
import Mathlib.Algebra.Order.Field.Rat
import MyWorkflow.CommSched

set_option autoImplicit false

namespace MyWorkflow.Comm.Sched
open Function Bags IndexedHeap Runs

section Loops

variable {K : Type} [LinearOrder K] {key : TargetId → K} {cmp : TargetId → TargetId → ℤ}
  {S : Set TargetId} {n : ℕ} {target : TargetId}

def Compares (cmp : TargetId → TargetId → ℤ) (key : TargetId → K) (S : Set TargetId) : Prop :=
  ∀ a ∈ S, ∀ b ∈ S, cmp a b = if key a < key b then -1 else if key b < key a then 1 else 0

theorem Compares.neg_iff (C : Compares cmp key S) {a b : TargetId} (ha : a ∈ S) (hb : b ∈ S) :
    cmp a b < 0 ↔ key a < key b := by
  rw [C a ha b hb]
  split_ifs with h₁ h₂
  · simp [h₁]
  · simp [h₁]
  · simp [h₁]

theorem Compares.swap (C : Compares cmp key S) {a b : TargetId} (ha : a ∈ S) (hb : b ∈ S) {m : ℤ}
    (hm : m = 0 ∨ m = 1) :
    (cmp a b < m → key a ≤ key b) ∧ (¬cmp a b < m → key b ≤ key a) := by
  rw [C a ha b hb]
  split_ifs with h₁ h₂
  · refine ⟨fun _ => h₁.le, fun hnot => absurd ?_ hnot⟩
    omega
  · refine ⟨fun hlt => absurd hlt ?_, fun _ => h₂.le⟩
    omega
  · exact ⟨fun _ => not_lt.mp h₂, fun _ => not_lt.mp h₁⟩

omit [LinearOrder K] in
theorem keys_move (key : TargetId → K) (heap : Slots TargetId) (i j : ℕ) (x : TargetId)
    (hne : j ≠ i) :
    (fun m => key (((heap.place i (heap.item j)).place j x).item m)) =
      update (update (fun m => key ((heap.place i x).item m)) i
        (key ((heap.place i x).item j))) j (key ((heap.place i x).item i)) := by
  funext m
  by_cases hj : m = j
  · subst hj
    simp
  rw [Slots.place_item_of_ne hj, update_of_ne hj]
  by_cases hi : m = i
  · subst hi
    simp [Slots.place_item_of_ne hne]
  · rw [Slots.place_item_of_ne hi, update_of_ne hi, Slots.place_item_of_ne hi]

structure Settled (key : TargetId → K) (n : ℕ) (S : Set TargetId) (heap r : Slots TargetId) :
    Prop where
  filled : r.Filled n S
  ordered : Ordered n (fun i => key (r.item i))
  outside : ∀ y ∉ S, r.pos y = heap.pos y

omit [LinearOrder K] in
theorem place_outside {index : ℕ} {heap : Slots TargetId} {x : TargetId} (hx : x ∈ S) :
    ∀ y ∉ S, (heap.place index x).pos y = heap.pos y := by
  intro y hy
  refine Slots.place_pos_of_ne ?_
  rintro rfl
  exact hy hx

theorem Settled.after_place {index : ℕ} {heap r : Slots TargetId} {x : TargetId} (hx : x ∈ S)
    (R : Settled key n S (heap.place index x) r) : Settled key n S heap r where
  filled := R.filled
  ordered := R.ordered
  outside := fun y hy => (R.outside y hy).trans (place_outside hx y hy)

theorem filled_item {heap : Slots TargetId} {i j : ℕ} (F : (heap.place i target).Filled n S)
    (hj : j < n) (hne : j ≠ i) : heap.item j ∈ S := by
  have hmem := (F.item j hj).1
  rwa [Slots.place_item_of_ne hne] at hmem

theorem heapAdjustLoop_spec (target : TargetId) (C : Compares cmp key S) {m : ℤ}
    (hm : m = 0 ∨ m = 1) (rounds : ℕ) :
    ∀ (index : ℕ) (heap : Slots TargetId), index ≤ rounds → index < n →
      (heap.place index target).Filled n S →
      OrderedBut n (fun i => key ((heap.place index target).item i)) index →
      Settled key n S heap (heapAdjustLoop cmp target m rounds index heap) := by
  induction rounds with
  | zero =>
    intro index heap hrounds hindex F o
    have htarget : target ∈ S := by simpa using (F.item index hindex).1
    exact ⟨F, o.ordered (fun hpos => by omega), place_outside htarget⟩
  | succ rounds ih =>
    intro index heap hrounds hindex F o
    have htarget : target ∈ S := by simpa using (F.item index hindex).1
    simp only [heapAdjustLoop]
    split_ifs with hpos hcmp
    · -- the parent comes down
      have hne : (index - 1) / 2 ≠ index := by omega
      have hparent := filled_item F (j := (index - 1) / 2) (by omega) hne
      have hle : key target ≤ key (heap.item ((index - 1) / 2)) :=
        (C.swap htarget hparent hm).1 hcmp
      have F' := F.move hindex (j := (index - 1) / 2) (by omega) hne
      have o' := o.toOrderedAround.up hpos hindex
        (by simpa [Slots.place_item_of_ne hne] using hle)
      rw [← keys_move key heap index _ target hne] at o'
      exact (ih _ _ (by omega) (by omega) F' o').after_place hparent
    · have hne : (index - 1) / 2 ≠ index := by omega
      have hparent := filled_item F (j := (index - 1) / 2) (by omega) hne
      refine ⟨F, o.ordered ?_, place_outside htarget⟩
      intro _
      simpa [Slots.place_item_of_ne hne] using (C.swap htarget hparent hm).2 hcmp
    · exact ⟨F, o.ordered (fun hp => absurd hp hpos), place_outside htarget⟩

theorem heapAdjustLoop_around (C : Compares cmp key S) {rounds index : ℕ} {heap : Slots TargetId}
    (hrounds : index ≤ rounds) (hindex : index < n) (F : (heap.place index target).Filled n S)
    (o : OrderedAround n (fun i => key ((heap.place index target).item i)) index) :
    (heapAdjustLoop cmp target 0 rounds index heap).Filled n S ∧
      OrderedBelow n (fun i => key ((heapAdjustLoop cmp target 0 rounds index heap).item i))
        ((heapAdjustLoop cmp target 0 rounds index heap).pos target) ∧
      ∀ y ∉ S, (heapAdjustLoop cmp target 0 rounds index heap).pos y = heap.pos y := by
  have htarget : target ∈ S := by simpa using (F.item index hindex).1
  cases rounds with
  | zero =>
    refine ⟨F, ?_, place_outside htarget⟩
    rw [heapAdjustLoop, Slots.place_pos_self]
    exact { o with above := fun hpos => by omega }
  | succ rounds =>
    simp only [heapAdjustLoop]
    split_ifs with hpos hcmp
    · have hne : (index - 1) / 2 ≠ index := by omega
      have hparent := filled_item F (j := (index - 1) / 2) (by omega) hne
      have hle : key target ≤ key (heap.item ((index - 1) / 2)) :=
        (C.swap htarget hparent (.inl rfl)).1 hcmp
      have F' := F.move hindex (j := (index - 1) / 2) (by omega) hne
      have o' := o.up hpos hindex (by simpa [Slots.place_item_of_ne hne] using hle)
      rw [← keys_move key heap index _ target hne] at o'
      have R := (heapAdjustLoop_spec target C (.inl rfl) rounds _ _ (by omega) (by omega) F'
        o').after_place hparent
      have hplace := (R.filled.pos target htarget).1
      exact ⟨R.filled, { R.ordered.around hplace with above := R.ordered _ }, R.outside⟩
    · have hne : (index - 1) / 2 ≠ index := by omega
      have hparent := filled_item F (j := (index - 1) / 2) (by omega) hne
      refine ⟨F, ?_, place_outside htarget⟩
      rw [Slots.place_pos_self]
      refine { o with above := ?_ }
      intro _ _
      simpa [Slots.place_item_of_ne hne] using (C.swap htarget hparent (.inl rfl)).2 hcmp
    · refine ⟨F, ?_, place_outside htarget⟩
      rw [Slots.place_pos_self]
      exact { o with above := fun hp => absurd hp hpos }

theorem down_move {top c : ℕ} {heap : Slots TargetId} (hc : 0 < c)
    (hcn : c < n) (hparent : (c - 1) / 2 = top) (htop : top < n)
    (F : (heap.place top target).Filled n S)
    (o : OrderedBelow n (fun i => key ((heap.place top target).item i)) top)
    (hle : key (heap.item c) ≤ key target)
    (hmin : ∀ j, 0 < j → j < n → (j - 1) / 2 = top → key (heap.item c) ≤ key (heap.item j)) :
    ((heap.place top (heap.item c)).place c target).Filled n S ∧
      OrderedBelow n (fun i => key (((heap.place top (heap.item c)).place c target).item i)) c := by
  have hne : c ≠ top := by omega
  refine ⟨F.move htop hcn hne, ?_⟩
  rw [keys_move key heap top c target hne]
  refine o.down hc hcn hparent ?_ ?_
  · simpa [Slots.place_item_of_ne hne] using hle
  · intro j hj hjn hjp
    rw [Slots.place_item_of_ne hne, Slots.place_item_of_ne (by omega)]
    exact hmin j hj hjn hjp

theorem heapifyLoop_spec (target : TargetId) (C : Compares cmp key S) (rounds : ℕ) :
    ∀ (top : ℕ) (heap : Slots TargetId), n ≤ top + rounds → top < n →
      (heap.place top target).Filled n S →
      OrderedBelow n (fun i => key ((heap.place top target).item i)) top →
      Settled key n S heap (heapifyLoop cmp n target rounds top heap) := by
  induction rounds with
  | zero =>
    intro top heap hrounds htop F o
    omega
  | succ rounds ih =>
    intro top heap hrounds htop F o
    have htarget : target ∈ S := by simpa using (F.item top htop).1
    have hmem : ∀ {j}, top < j → j < n → heap.item j ∈ S :=
      fun hj hjn => filled_item F hjn (Nat.ne_of_gt hj)
    have hchild : ∀ {p : ℕ → Prop}, p (2 * top + 1) → (2 * top + 1 < n - 1 → p (2 * top + 1 + 1)) →
        ∀ j, 0 < j → j < n → (j - 1) / 2 = top → p j := by
      intro p h0 h1 j hj hjn hjp
      obtain rfl | rfl : j = 2 * top + 1 ∨ j = 2 * top + 1 + 1 := by omega
      · exact h0
      · exact h1 (by omega)
    -- the target stays where no child is below it, and goes on below the lowest child
    have hstay : (∀ j, 0 < j → j < n → (j - 1) / 2 = top → key target ≤ key (heap.item j)) →
        Settled key n S heap (heap.place top target) := by
      intro hle
      refine ⟨F, o.ordered ?_, place_outside htarget⟩
      intro j hj hjn hjp
      rw [Slots.place_item_self, Slots.place_item_of_ne (by omega)]
      exact hle j hj hjn hjp
    have hdown : ∀ c, top < c → c < n → (c - 1) / 2 = top → key (heap.item c) ≤ key target →
        (∀ j, 0 < j → j < n → (j - 1) / 2 = top → key (heap.item c) ≤ key (heap.item j)) →
        Settled key n S heap
          (heapifyLoop cmp n target rounds c (heap.place top (heap.item c))) := by
      intro c hc hcn hparent hle hmin
      obtain ⟨F', o'⟩ := down_move (by omega) hcn hparent htop F o hle hmin
      exact (ih _ _ (by omega) hcn F' o').after_place (hmem hc hcn)
    simp only [heapifyLoop]
    split_ifs with hi h0 h1 h1 hlast
    · have hm0 := hmem (j := 2 * top + 1) (by omega) (by omega)
      have hlt0 := (C.neg_iff hm0 htarget).mp h0
      have hlt1 := (C.neg_iff (hmem (by omega) (by omega)) hm0).mp h1
      exact hdown _ (by omega) (by omega) (by omega) (hlt1.trans hlt0).le
        (hchild hlt1.le (fun _ => le_rfl))
    · have hm0 := hmem (j := 2 * top + 1) (by omega) (by omega)
      have hlt0 := (C.neg_iff hm0 htarget).mp h0
      have hle1 := not_lt.mp (fun hlt => h1 ((C.neg_iff (hmem (by omega) (by omega)) hm0).mpr hlt))
      exact hdown _ (by omega) (by omega) (by omega) hlt0.le (hchild le_rfl (fun _ => hle1))
    · have hm0 := hmem (j := 2 * top + 1) (by omega) (by omega)
      have hle0 := not_lt.mp (fun hlt => h0 ((C.neg_iff hm0 htarget).mpr hlt))
      have hlt1 := (C.neg_iff (hmem (by omega) (by omega)) htarget).mp h1
      exact hdown _ (by omega) (by omega) (by omega) hlt1.le
        (hchild (hlt1.le.trans hle0) (fun _ => le_rfl))
    · have hm0 := hmem (j := 2 * top + 1) (by omega) (by omega)
      have hle0 := not_lt.mp (fun hlt => h0 ((C.neg_iff hm0 htarget).mpr hlt))
      have hle1 := not_lt.mp (fun hlt => h1 ((C.neg_iff (hmem (by omega) (by omega)) htarget).mpr hlt))
      exact hstay (hchild hle0 (fun _ => hle1))
    · -- the last target is an only child
      have hm0 := hmem (j := 2 * top + 1) (by omega) (by omega)
      have hlt0 := (C.neg_iff hm0 htarget).mp hlast.2
      obtain ⟨F', o'⟩ := down_move (c := 2 * top + 1) (by omega) (by omega) (by omega) htop F o
        hlt0.le (hchild le_rfl (fun hjn => absurd hjn hi))
      have R : Settled key n S (heap.place top (heap.item (2 * top + 1)))
          ((heap.place top (heap.item (2 * top + 1))).place (2 * top + 1) target) :=
        ⟨F', o'.ordered (fun j hj hjn hjp => by omega), place_outside htarget⟩
      exact R.after_place hm0
    · refine hstay ?_
      intro j hj hjn hjp
      obtain rfl : j = 2 * top + 1 := by omega
      have hm0 := hmem (j := 2 * top + 1) (by omega) hjn
      exact not_lt.mp (fun hlt => hlast ⟨by omega, (C.neg_iff hm0 htarget).mpr hlt⟩)

end Loops

namespace State

def ratio (s : State) (t : TargetId) : ℚ := (s.targets t).curLoad / (s.targets t).maxLoad

def members (s : State) (g : GroupId) : Set TargetId := { t | (s.targets t).group = some g }

def sum (s : State) (g : GroupId) (f : Target → ℕ) : ℕ :=
  total (s.groups g).heapSize fun i => f (s.targets ((s.groups g).tgHeap i))

end State

/-- No product that `target_cmp` computes is too large for `size_t`. -/
def Fits (s : State) : Prop := ∀ g, ∀ t ∈ s.members g, ∀ u ∈ s.members g,
  (s.targets t).curLoad * (s.targets u).maxLoad < 2 ^ 64

structure GroupInv (s : State) (g : GroupId) : Prop where
  filled : (s.heap g).Filled (s.groups g).heapSize (s.members g)
  ordered : Ordered (s.groups g).heapSize (fun i => s.ratio ((s.groups g).tgHeap i))
  maxLoad : (s.groups g).maxLoad = s.sum g Target.maxLoad
  curLoad : (s.groups g).curLoad = s.sum g Target.curLoad

structure Inv (limit : TargetId → Limit) (s : State) : Prop where
  maxLoad : ∀ t, (s.targets t).maxLoad = limit t
  acquired : ∀ t, s.acquired t = (s.targets t).curLoad
  le : ∀ t, (s.targets t).curLoad ≤ (s.targets t).maxLoad
  bound : ∀ g, (s.groups g).maxLoad < 2 ^ 64
  group : ∀ g, GroupInv s g

theorem targetCmp_compares {s : State} {S : Set TargetId} (hpos : ∀ t, 0 < (s.targets t).maxLoad)
    (hfit : ∀ t ∈ S, ∀ u ∈ S, (s.targets t).curLoad * (s.targets u).maxLoad < 2 ^ 64) :
    Compares (targetCmp s.targets) s.ratio S := by
  intro a ha b hb
  have hlt : ∀ x ∈ S, ∀ y ∈ S, s.ratio x < s.ratio y ↔
      (s.targets x).curLoad * (s.targets y).maxLoad <
        (s.targets y).curLoad * (s.targets x).maxLoad := by
    intro x _ y _
    have hx : (0 : ℚ) < (s.targets x).maxLoad := Nat.cast_pos.mpr (hpos x)
    have hy : (0 : ℚ) < (s.targets y).maxLoad := Nat.cast_pos.mpr (hpos y)
    rw [State.ratio, State.ratio, div_lt_div_iff₀ hx hy]
    exact_mod_cast Iff.rfl
  have hwrap : ∀ x ∈ S, ∀ y ∈ S, wrap ((s.targets x).curLoad * (s.targets y).maxLoad) =
      (s.targets x).curLoad * (s.targets y).maxLoad :=
    fun x hx y hy => Nat.mod_eq_of_lt (hfit x hx y hy)
  simp only [targetCmp, hwrap a ha b hb, hwrap b hb a ha, hlt a ha b hb, hlt b hb a ha, gt_iff_lt]

structure SameTarget (x y : Target) : Prop where
  maxLoad : y.maxLoad = x.maxLoad
  curLoad : y.curLoad = x.curLoad
  group : y.group = x.group
  index : y.index = x.index

structure SameGroup (x y : Group) : Prop where
  tgHeap : y.tgHeap = x.tgHeap
  heapSize : y.heapSize = x.heapSize
  maxLoad : y.maxLoad = x.maxLoad
  curLoad : y.curLoad = x.curLoad

theorem SameTarget.refl (x : Target) : SameTarget x x := ⟨rfl, rfl, rfl, rfl⟩

theorem SameGroup.refl (x : Group) : SameGroup x x := ⟨rfl, rfl, rfl, rfl⟩

variable {s s' : State} {g : GroupId} {t : TargetId}

theorem GroupInv.transfer (G : GroupInv s g) (hgroup : SameGroup (s.groups g) (s'.groups g))
    (hmembers : s'.members g = s.members g)
    (htarget : ∀ t ∈ s.members g, SameTarget (s.targets t) (s'.targets t)) : GroupInv s' g := by
  obtain ⟨filled, ordered, maxLoad, curLoad⟩ := G
  have hin : ∀ i < (s.groups g).heapSize, (s.groups g).tgHeap i ∈ s.members g :=
    fun i hi => (filled.item i hi).1
  have hratio : ∀ t ∈ s.members g, s'.ratio t = s.ratio t := by
    intro t ht
    rw [State.ratio, State.ratio, (htarget t ht).curLoad, (htarget t ht).maxLoad]
  refine ⟨⟨?_, ?_⟩, ?_, ?_, ?_⟩
  · intro i hi
    rw [hgroup.heapSize] at hi
    obtain ⟨hmem, hpos⟩ := filled.item i hi
    rw [hmembers]
    simp only [State.heap, hgroup.tgHeap] at hmem hpos ⊢
    exact ⟨hmem, (htarget _ hmem).index.trans hpos⟩
  · intro t ht
    rw [hmembers] at ht
    obtain ⟨hlt, hitem⟩ := filled.pos t ht
    simp only [State.heap, hgroup.tgHeap, hgroup.heapSize, (htarget t ht).index] at hlt hitem ⊢
    exact ⟨hlt, hitem⟩
  · intro j hj hjn
    rw [hgroup.heapSize] at hjn
    change s'.ratio ((s'.groups g).tgHeap ((j - 1) / 2)) ≤ s'.ratio ((s'.groups g).tgHeap j)
    rw [hgroup.tgHeap, hratio _ (hin _ (by omega)), hratio _ (hin _ hjn)]
    exact ordered j hj hjn
  · rw [hgroup.maxLoad, maxLoad, State.sum, State.sum, hgroup.tgHeap, hgroup.heapSize]
    exact total_congr (fun i hi => (htarget _ (hin i hi)).maxLoad.symm)
  · rw [hgroup.curLoad, curLoad, State.sum, State.sum, hgroup.tgHeap, hgroup.heapSize]
    exact total_congr (fun i hi => (htarget _ (hin i hi)).curLoad.symm)

theorem Inv.same {limit : TargetId → Limit} (inv : Inv limit s)
    (htarget : ∀ t, SameTarget (s.targets t) (s'.targets t))
    (hgroup : ∀ g, SameGroup (s.groups g) (s'.groups g)) (hacquired : s'.acquired = s.acquired) :
    Inv limit s' where
  maxLoad := fun t => (htarget t).maxLoad.trans (inv.maxLoad t)
  acquired := fun t => by rw [hacquired, (htarget t).curLoad, inv.acquired t]
  le := fun t => by rw [(htarget t).curLoad, (htarget t).maxLoad]; exact inv.le t
  bound := fun g => by rw [(hgroup g).maxLoad]; exact inv.bound g
  group := by
    intro g
    refine (inv.group g).transfer (hgroup g) ?_ (fun t _ => htarget t)
    ext t
    change (s'.targets t).group = some g ↔ (s.targets t).group = some g
    rw [(htarget t).group]

theorem GroupInv.of_settled {n : ℕ} {S : Set TargetId} {heap : Slots TargetId}
    (R : Settled s.ratio n S heap (s'.heap g)) (hsize : (s'.groups g).heapSize = n)
    (hmembers : s'.members g = S)
    (hcurLoad : ∀ t, (s'.targets t).curLoad = (s.targets t).curLoad)
    (hmaxLoad : ∀ t, (s'.targets t).maxLoad = (s.targets t).maxLoad)
    (hmax : (s'.groups g).maxLoad = s'.sum g Target.maxLoad)
    (hcur : (s'.groups g).curLoad = s'.sum g Target.curLoad) : GroupInv s' g := by
  have hratio : s'.ratio = s.ratio := by
    funext t
    rw [State.ratio, State.ratio, hcurLoad, hmaxLoad]
  refine ⟨?_, ?_, hmax, hcur⟩
  · rw [hsize, hmembers]
    exact R.filled
  · rw [hsize, hratio]
    exact R.ordered

omit s in
theorem sum_of_filled {n : ℕ} {S : Set TargetId} {heap : Slots TargetId} (F : heap.Filled n S)
    (F' : (s'.heap g).Filled n S) (hsize : (s'.groups g).heapSize = n) {f : Target → ℕ}
    (w : TargetId → ℕ) (hf : ∀ u, f (s'.targets u) = w u) :
    s'.sum g f = total n (fun i => w (heap.item i)) := by
  rw [State.sum, hsize, F.total_eq F' w]
  exact total_congr (fun i _ => hf _)

structure Shifts (s s' : State) (g : GroupId) (t : TargetId) : Prop where
  other : ∀ u, u ≠ t → SameTarget (s.targets u) (s'.targets u)
  maxLoad : (s'.targets t).maxLoad = (s.targets t).maxLoad
  group : (s'.targets t).group = (s.targets t).group
  index : (s'.targets t).index = (s.targets t).index
  groups : ∀ k, k ≠ g → SameGroup (s.groups k) (s'.groups k)
  tgHeap : (s'.groups g).tgHeap = (s.groups g).tgHeap
  heapSize : (s'.groups g).heapSize = (s.groups g).heapSize
  groupMax : (s'.groups g).maxLoad = (s.groups g).maxLoad
  groupCur : (s'.groups g).curLoad + (s.targets t).curLoad =
    (s.groups g).curLoad + (s'.targets t).curLoad

theorem Shifts.maxLoads (h : Shifts s s' g t) (u : TargetId) :
    (s'.targets u).maxLoad = (s.targets u).maxLoad := by
  by_cases hu : u = t
  · rw [hu, h.maxLoad]
  · exact (h.other u hu).maxLoad

theorem Shifts.memberships (h : Shifts s s' g t) (u : TargetId) :
    (s'.targets u).group = (s.targets u).group := by
  by_cases hu : u = t
  · rw [hu, h.group]
  · exact (h.other u hu).group

theorem Shifts.heap (h : Shifts s s' g t) : s'.heap g = s.heap g := by
  have hindex : (fun u => (s'.targets u).index) = fun u => (s.targets u).index := by
    funext u
    by_cases hu : u = t
    · rw [hu, h.index]
    · exact (h.other u hu).index
  rw [State.heap, State.heap, h.tgHeap, hindex]

theorem Shifts.inv {limit : TargetId → Limit} (h : Shifts s s' g t) (inv : Inv limit s)
    (ht : t ∈ s.members g) {r : Slots TargetId}
    (R : Settled s'.ratio (s.groups g).heapSize (s.members g) (s.heap g) r)
    {acquired : TargetId → ℕ} (hacquired : ∀ u, acquired u = (s'.targets u).curLoad)
    (hle : (s'.targets t).curLoad ≤ (s.targets t).maxLoad) :
    Inv limit { s'.setHeap g r with acquired := acquired } := by
  have F := (inv.group g).filled
  have hsize : ((s'.setHeap g r).groups g).heapSize = (s.groups g).heapSize := by
    rw [State.setHeap_groups_self]
    exact h.heapSize
  have hF : ((s'.setHeap g r).heap g).Filled (s.groups g).heapSize (s.members g) := by
    rw [State.setHeap_heap]
    exact R.filled
  have hmembers : ∀ k, (s'.setHeap g r).members k = s.members k := by
    intro k
    ext u
    change (s'.targets u).group = some k ↔ (s.targets u).group = some k
    rw [h.memberships]
  refine ⟨fun u => (h.maxLoads u).trans (inv.maxLoad u), hacquired, ?_, ?_, ?_⟩
  · intro u
    change (s'.targets u).curLoad ≤ (s'.targets u).maxLoad
    rw [h.maxLoads]
    by_cases hu : u = t
    · rw [hu]
      exact hle
    · rw [(h.other u hu).curLoad]
      exact inv.le u
  · intro k
    change ((s'.setHeap g r).groups k).maxLoad < 2 ^ 64
    by_cases hk : k = g
    · subst hk
      rw [State.setHeap_groups_self]
      exact h.groupMax.trans_lt (inv.bound k)
    · rw [State.setHeap_groups_of_ne hk]
      exact (h.groups k hk).maxLoad.trans_lt (inv.bound k)
  · intro k
    by_cases hk : k = g
    · subst hk
      have hsettled : Settled s'.ratio (s.groups k).heapSize (s.members k) (s.heap k)
          ((s'.setHeap k r).heap k) := by
        rw [State.setHeap_heap]
        exact R
      refine .of_settled hsettled hsize (hmembers k) (fun _ => rfl) (fun _ => rfl) ?_ ?_
      · have hsum := sum_of_filled F hF hsize (f := Target.maxLoad) _ h.maxLoads
        refine Eq.trans ?_ hsum.symm
        change ((s'.setHeap k r).groups k).maxLoad = _
        rw [State.setHeap_groups_self]
        exact h.groupMax.trans (inv.group k).maxLoad
      · have hsum := sum_of_filled F hF hsize (f := Target.curLoad)
          (fun u => (s'.targets u).curLoad) (fun _ => rfl)
        have hchange := F.total_change ht (f := fun u => (s.targets u).curLoad)
          (g := fun u => (s'.targets u).curLoad) (fun u hu => (h.other u hu).curLoad)
        have hold : (s.groups k).curLoad =
            total (s.groups k).heapSize (fun i => (s.targets ((s.heap k).item i)).curLoad) :=
          (inv.group k).curLoad
        have hnew : ((s'.setHeap k r).groups k).curLoad = (s'.groups k).curLoad := by
          rw [State.setHeap_groups_self]
        have hcur := h.groupCur
        refine Eq.trans ?_ hsum.symm
        change ((s'.setHeap k r).groups k).curLoad = _
        omega
    · -- the members of another group have not moved
      refine (inv.group k).transfer ?_ (hmembers k) ?_
      · change SameGroup (s.groups k) ((s'.setHeap g r).groups k)
        rw [State.setHeap_groups_of_ne hk]
        exact h.groups k hk
      · intro u hu
        have hug : u ∉ s.members g := by
          intro hin
          exact hk (Option.some.inj (Eq.trans (Eq.symm hu) hin))
        have hut : u ≠ t := by
          rintro rfl
          exact hug ht
        exact ⟨h.maxLoads u, (h.other u hut).curLoad, h.memberships u, R.outside u hug⟩

theorem Inv.maxLoad_pos {limit : TargetId → Limit} (inv : Inv limit s) (u : TargetId) :
    0 < (s.targets u).maxLoad := by
  rw [inv.maxLoad u]
  exact (limit u).2.1

theorem ratio_le {s s' : State} {u : TargetId}
    (hmax : (s'.targets u).maxLoad = (s.targets u).maxLoad)
    (hcur : (s.targets u).curLoad ≤ (s'.targets u).curLoad) : s.ratio u ≤ s'.ratio u := by
  rw [State.ratio, State.ratio, hmax]
  exact div_le_div_of_nonneg_right (Nat.cast_le.mpr hcur) (Nat.cast_nonneg _)

theorem Shifts.compares {limit : TargetId → Limit} (h : Shifts s s' g t) (inv : Inv limit s)
    (hfit : ∀ u ∈ s'.members g, ∀ v ∈ s'.members g,
      (s'.targets u).curLoad * (s'.targets v).maxLoad < 2 ^ 64) :
    Compares (targetCmp s'.targets) s'.ratio (s.members g) := by
  refine targetCmp_compares ?_ ?_
  · intro u
    rw [h.maxLoads]
    exact inv.maxLoad_pos u
  · intro u hu v hv
    exact hfit u ((h.memberships u).trans hu) v ((h.memberships v).trans hv)

theorem Shifts.tgHeap_index {limit : TargetId → Limit} (h : Shifts s s' g t) (inv : Inv limit s)
    (ht : t ∈ s.members g) : (s'.groups g).tgHeap (s.targets t).index = t := by
  rw [h.tgHeap]
  exact ((inv.group g).filled.pos t ht).2

theorem Shifts.keys {limit : TargetId → Limit} (h : Shifts s s' g t) (inv : Inv limit s)
    (ht : t ∈ s.members g) : ∀ j < (s.groups g).heapSize, j ≠ (s.heap g).pos t →
      s'.ratio ((s.heap g).item j) = s.ratio ((s.heap g).item j) := by
  intro j hj hne
  have F := (inv.group g).filled
  have hut : (s.heap g).item j ≠ t := by
    intro heq
    obtain ⟨hlt, hitem⟩ := F.pos t ht
    exact hne (F.injective hj hlt (heq.trans hitem.symm))
  rw [State.ratio, State.ratio, (h.other _ hut).curLoad, (h.other _ hut).maxLoad]

theorem Inv.alone {limit : TargetId → Limit} (inv : Inv limit s)
    (hnone : (s.targets t).group = none) (hsame : ∀ u, u ≠ t → s'.targets u = s.targets u)
    (hgroup : (s'.targets t).group = none) (hmax : (s'.targets t).maxLoad = (s.targets t).maxLoad)
    (hgroups : s'.groups = s.groups) (hacquired : ∀ u, s'.acquired u = (s'.targets u).curLoad)
    (hle : (s'.targets t).curLoad ≤ (s'.targets t).maxLoad) : Inv limit s' := by
  refine ⟨?_, hacquired, ?_, fun g => hgroups ▸ inv.bound g, ?_⟩
  · intro u
    by_cases hu : u = t
    · subst hu
      exact hmax.trans (inv.maxLoad u)
    · rw [hsame u hu]
      exact inv.maxLoad u
  · intro u
    by_cases hu : u = t
    · subst hu
      exact hle
    · rw [hsame u hu]
      exact inv.le u
  · intro g
    refine (inv.group g).transfer (hgroups ▸ .refl _) ?_ ?_
    · ext u
      change (s'.targets u).group = some g ↔ (s.targets u).group = some g
      by_cases hu : u = t
      · subst hu
        rw [hgroup, hnone]
      · rw [hsame u hu]
    · intro u hu
      have hut : u ≠ t := by
        rintro rfl
        exact absurd (Eq.trans (Eq.symm hnone) hu) (by simp)
      rw [hsame u hut]
      exact .refl _

theorem Inv.targetTake {limit : TargetId → Limit} (inv : Inv limit s)
    (hlt : (s.targets t).curLoad < (s.targets t).maxLoad) (hfit : Fits (s.targetTake t)) :
    Inv limit (s.targetTake t) := by
  cases hgroup : (s.targets t).group with
  | none =>
    have heq : s.targetTake t =
        (s.setTarget t fun x => { x with curLoad := x.curLoad + 1 }).give t := by
      simp [State.targetTake, hgroup]
    rw [heq]
    refine inv.alone hgroup (fun u hu => update_of_ne hu _ _) (by simpa using hgroup)
      (by simp) rfl ?_ ?_
    · intro u
      by_cases hu : u = t
      · subst hu
        simp [inv.acquired u]
      · rw [State.give_acquired_of_ne hu, State.give_targets, State.setTarget_of_ne hu]
        exact inv.acquired u
    · rw [State.give_targets, State.setTarget_self]
      exact hlt
  | some g =>
    let s₁ := (s.setTarget t fun x => { x with curLoad := x.curLoad + 1 }).setGroup g
      fun x => { x with curLoad := x.curLoad + 1 }
    have heq : s.targetTake t = (s₁.heapify g (s.targets t).index).give t := by
      simp [State.targetTake, hgroup, s₁]
    have hself : (s₁.targets t).curLoad = (s.targets t).curLoad + 1 := by simp [s₁]
    have hother : ∀ u, u ≠ t → s₁.targets u = s.targets u :=
      fun u hu => update_of_ne hu _ _
    have h : Shifts s s₁ g t :=
      { other := fun u hu => hother u hu ▸ .refl _
        maxLoad := by simp [s₁]
        group := by simp [s₁]
        index := by simp [s₁]
        groups := fun k hk => by
          have hsame : s₁.groups k = s.groups k := State.setGroup_of_ne hk
          exact hsame ▸ .refl _
        tgHeap := by simp [s₁]
        heapSize := by simp [s₁]
        groupMax := by simp [s₁]
        groupCur := by simp [s₁]; omega }
    have F := (inv.group g).filled
    have ht : t ∈ s.members g := hgroup
    obtain ⟨hplace, hitem⟩ := F.pos t ht
    rw [heq] at hfit ⊢
    have C := h.compares inv (hfit g)
    have ho : Ordered (s.groups g).heapSize (fun i => s.ratio ((s.heap g).item i)) :=
      (inv.group g).ordered
    have o := ho.increase hplace (h.keys inv ht)
      (ratio_le (h.maxLoads _) (by rw [hitem, hself]; omega))
    have R := heapifyLoop_spec t C (s.groups g).heapSize ((s.heap g).pos t) (s.heap g)
      (Nat.le_add_left _ _) hplace (by rwa [F.place_pos ht]) (by rwa [F.place_pos ht])
    rw [State.heapify, h.tgHeap_index inv ht, h.heap, h.heapSize]
    refine h.inv inv ht R ?_ (by rw [hself]; exact hlt)
    intro u
    by_cases hu : u = t
    · rw [hu, hself, ← inv.acquired t]
      exact update_self _ _ _
    · rw [hother u hu, ← inv.acquired u]
      exact update_of_ne hu _ _

def State.unload (g : GroupId) (t : TargetId) (s : State) : State :=
  let x := s.targets t
  let y := s.groups g
  { s with
    targets := update s.targets t
      { x with
        curLoad := x.curLoad - 1
        cond := if 0 < x.waitCnt then x.cond.signal else x.cond }
    groups := update s.groups g
      { y with
        curLoad := y.curLoad - 1
        cond := if x.waitCnt = 0 ∧ 0 < y.waitCnt then y.cond.signal else y.cond } }

theorem release_grouped (hgroup : (s.targets t).group = some g) (hasIdleConn : Bool) :
    s.release t hasIdleConn =
      (s.unload g t).heapAdjust g (s.targets t).index (if hasIdleConn then 1 else 0) := by
  by_cases hw : 0 < (s.targets t).waitCnt
  · have hne : (s.targets t).waitCnt ≠ 0 := by omega
    simp [State.release, State.unload, State.signalTarget, State.setTarget, State.setGroup, hgroup,
      hw, hne]
  · have hzero : (s.targets t).waitCnt = 0 := by omega
    by_cases hg : 0 < (s.groups g).waitCnt
    · simp [State.release, State.unload, State.signalGroup, State.setTarget, State.setGroup, hgroup,
        hzero, hg]
    · simp [State.release, State.unload, State.setTarget, State.setGroup, hgroup, hzero, hg]

theorem Inv.release {limit : TargetId → Limit} (inv : Inv limit s) (hpos : 0 < s.acquired t)
    {hasIdleConn : Bool} {acquired : TargetId → ℕ}
    (hacquired : acquired = update s.acquired t (s.acquired t - 1))
    (hfit : Fits { s.release t hasIdleConn with acquired := acquired }) :
    Inv limit { s.release t hasIdleConn with acquired := acquired } := by
  rw [inv.acquired] at hpos
  cases hgroup : (s.targets t).group with
  | none =>
    have htarget : (s.release t hasIdleConn).targets = update s.targets t
        { s.targets t with
          curLoad := (s.targets t).curLoad - 1
          cond := if 0 < (s.targets t).waitCnt then (s.targets t).cond.signal
            else (s.targets t).cond } := by
      by_cases hw : 0 < (s.targets t).waitCnt
      · simp [State.release, State.signalTarget, State.setTarget, hgroup, hw]
      · simp [State.release, State.setTarget, hgroup, hw]
    have hgroups : (s.release t hasIdleConn).groups = s.groups := by
      by_cases hw : 0 < (s.targets t).waitCnt
      · simp [State.release, State.signalTarget, hgroup, hw]
      · simp [State.release, hgroup, hw]
    have hle := inv.le t
    refine inv.alone hgroup ?_ ?_ ?_ hgroups ?_ ?_
    · intro u hu
      simp [htarget, hu]
    · simpa [htarget] using hgroup
    · simp [htarget]
    · intro u
      rw [hacquired]
      by_cases hu : u = t
      · subst hu
        simp [htarget, inv.acquired u]
      · simp [htarget, hu, inv.acquired u]
    · simp only [htarget, update_self]
      omega
  | some g =>
    have ht : t ∈ s.members g := hgroup
    have F := (inv.group g).filled
    obtain ⟨hplace, hitem⟩ := F.pos t ht
    have hsum : (s.targets t).curLoad ≤ (s.groups g).curLoad := by
      rw [(inv.group g).curLoad]
      have hle := le_total hplace (fun i => (s.targets ((s.heap g).item i)).curLoad)
      rwa [hitem] at hle
    have hself : ((s.unload g t).targets t).curLoad = (s.targets t).curLoad - 1 := by
      simp [State.unload]
    have hother : ∀ u, u ≠ t → (s.unload g t).targets u = s.targets u :=
      fun u hu => update_of_ne hu _ _
    have hothers : ∀ k, k ≠ g → (s.unload g t).groups k = s.groups k :=
      fun k hk => update_of_ne hk _ _
    have h : Shifts s (s.unload g t) g t :=
      { other := fun u hu => hother u hu ▸ .refl _
        maxLoad := by simp [State.unload]
        group := by simp [State.unload]
        index := by simp [State.unload]
        groups := fun k hk => hothers k hk ▸ .refl _
        tgHeap := by simp [State.unload]
        heapSize := by simp [State.unload]
        groupMax := by simp [State.unload]
        groupCur := by simp [State.unload]; omega }
    rw [release_grouped hgroup] at hfit ⊢
    have C := h.compares inv (hfit g)
    have ho : Ordered (s.groups g).heapSize (fun i => s.ratio ((s.heap g).item i)) :=
      (inv.group g).ordered
    have o := ho.decrease hplace (h.keys inv ht)
      (ratio_le (h.maxLoads _).symm (by rw [hitem, hself]; omega))
    have R := heapAdjustLoop_spec t C (m := if hasIdleConn then 1 else 0)
      (by cases hasIdleConn <;> simp) ((s.heap g).pos t) ((s.heap g).pos t) (s.heap g) le_rfl hplace
      (by rwa [F.place_pos ht]) (by rwa [F.place_pos ht])
    rw [State.heapAdjust, h.tgHeap_index inv ht, h.heap]
    refine h.inv inv ht R ?_ (by have := inv.le t; omega)
    intro u
    rw [hacquired]
    by_cases hu : u = t
    · rw [hu, hself, ← inv.acquired t]
      exact update_self _ _ _
    · rw [hother u hu, ← inv.acquired u]
      exact update_of_ne hu _ _

end MyWorkflow.Comm.Sched
