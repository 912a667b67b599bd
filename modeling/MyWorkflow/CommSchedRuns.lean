import MyWorkflow.CommSchedHeap

set_option autoImplicit false

namespace MyWorkflow.Comm.Sched
open Bags IndexedHeap Runs

variable {s s' : State} {g : GroupId} {t : TargetId} {limit : TargetId → Limit}

theorem wrap_of_lt {n : ℕ} (h : n < 2 ^ 64) : wrap n = n := Nat.mod_eq_of_lt h

theorem wrap_sub {a b : ℕ} (hb : b ≤ a) (ha : a < 2 ^ 64) : wrap (a + (2 ^ 64 - b)) = a - b := by
  have heq : a + (2 ^ 64 - b) = (a - b) + 2 ^ 64 := by omega
  rw [wrap, heq, Nat.add_mod_right]
  exact Nat.mod_eq_of_lt (by omega)

theorem setHeap_setHeap (s : State) (g : GroupId) (r r' : Slots TargetId) :
    (s.setHeap g r).setHeap g r' = s.setHeap g r' := by
  simp [State.setHeap, State.setGroup]

theorem setHeap_heapAdjust (s : State) (g : GroupId) (r : Slots TargetId) (index : ℕ) (m : ℤ) :
    (s.setHeap g r).heapAdjust g index m = s.setHeap g
      (heapAdjustLoop (targetCmp s.targets) (r.item index) m index index r) := by
  rw [State.heapAdjust, State.setHeap_heap, State.setHeap_groups_self, setHeap_setHeap]
  rfl

theorem setHeap_heapify (s : State) (g : GroupId) (r : Slots TargetId) (top : ℕ) :
    (s.setHeap g r).heapify g top = s.setHeap g
      (heapifyLoop (targetCmp s.targets) (s.groups g).heapSize (r.item top) (s.groups g).heapSize
        top r) := by
  rw [State.heapify, State.setHeap_heap, State.setHeap_groups_self, setHeap_setHeap]
  rfl

def State.inserted (g : GroupId) (t : TargetId) (s : State) : Slots TargetId :=
  heapAdjustLoop (targetCmp s.targets) t 0 (s.groups g).heapSize (s.groups g).heapSize
    ((s.heap g).place (s.groups g).heapSize t)

theorem heapInsert_some {memory : Bool} (h : s.heapInsert memory g t = some s') :
    (∀ u, s'.targets u = { s.targets u with index := (s.inserted g t).pos u }) ∧
      (∀ k, k ≠ g → s'.groups k = s.groups k) ∧ s'.acquired = s.acquired ∧
      ∃ b, s'.groups g = { s.groups g with
        tgHeap := (s.inserted g t).item
        heapSize := (s.groups g).heapSize + 1
        heapBufSize := b } := by
  simp only [State.heapInsert] at h
  split at h
  · cases h
  generalize hs₀ : s.setGroup g _ = s₀ at h
  have htargets : s₀.targets = s.targets := by rw [← hs₀]; rfl
  have hheap : s₀.heap g = s.heap g := by
    rw [← hs₀]
    simp [State.heap]
  rw [setHeap_heapAdjust, hheap, htargets, Slots.place_item_self, ← State.inserted] at h
  cases h
  refine ⟨?_, ?_, ?_, ?_⟩
  · intro u
    simp [htargets]
  · intro k hk
    rw [State.setGroup_of_ne hk, State.setHeap_groups_of_ne hk, ← hs₀, State.setGroup_of_ne hk]
  · rw [← hs₀]
    rfl
  · refine ⟨(s₀.groups g).heapBufSize, ?_⟩
    rw [State.setGroup_self, State.setHeap_groups_self, ← hs₀, State.setGroup_self]

theorem Inv.inserted (inv : Inv limit s)
    (hnone : (s.targets t).group = none)
    (hfit : ∀ u ∈ insert t (s.members g), ∀ v ∈ insert t (s.members g),
      (s.targets u).curLoad * (s.targets v).maxLoad < 2 ^ 64) :
    Settled s.ratio ((s.groups g).heapSize + 1) (insert t (s.members g)) (s.heap g)
      (s.inserted g t) := by
  have F := (inv.group g).filled
  have hnot : t ∉ s.members g := by
    intro hin
    exact absurd (Eq.trans (Eq.symm hnone) hin) (by simp)
  have C : Compares (targetCmp s.targets) s.ratio (insert t (s.members g)) :=
    targetCmp_compares inv.maxLoad_pos hfit
  have F' := F.push hnot
  have hplace := F'.place_pos (Set.mem_insert t (s.members g))
  rw [Slots.place_pos_self] at hplace
  have ho : Ordered (s.groups g).heapSize (fun i => s.ratio ((s.heap g).item i)) :=
    (inv.group g).ordered
  have o : OrderedBut ((s.groups g).heapSize + 1)
      (fun i => s.ratio (((s.heap g).place (s.groups g).heapSize t).item i))
      (s.groups g).heapSize :=
    ho.push (fun j hj => by rw [Slots.place_item_of_ne (Nat.ne_of_lt hj)])
  have R := heapAdjustLoop_spec t C (.inl rfl) (s.groups g).heapSize (s.groups g).heapSize
    ((s.heap g).place (s.groups g).heapSize t) le_rfl (Nat.lt_succ_self _) (by rwa [hplace])
    (by rwa [hplace])
  exact R.after_place (Set.mem_insert t (s.members g))

theorem Inv.sum_le (inv : Inv limit s) (g : GroupId) :
    (s.groups g).curLoad ≤ (s.groups g).maxLoad := by
  rw [(inv.group g).curLoad, (inv.group g).maxLoad]
  exact total_le (fun i => inv.le _)

structure Joined (s s' : State) (g : GroupId) (t : TargetId) : Prop where
  target : s'.targets t =
    { s.targets t with index := (s.inserted g t).pos t, group := some g }
  other : ∀ u, u ≠ t → s'.targets u = { s.targets u with index := (s.inserted g t).pos u }
  groups : ∀ k, k ≠ g → s'.groups k = s.groups k
  acquired : s'.acquired = s.acquired
  tgHeap : (s'.groups g).tgHeap = (s.inserted g t).item
  heapSize : (s'.groups g).heapSize = (s.groups g).heapSize + 1
  maxLoad : (s'.groups g).maxLoad = wrap ((s.groups g).maxLoad + (s.targets t).maxLoad)
  curLoad : (s'.groups g).curLoad = wrap ((s.groups g).curLoad + (s.targets t).curLoad)
  waitCnt : (s'.groups g).waitCnt = (s.groups g).waitCnt
  cond : (s'.groups g).cond =
    if 0 < (s.groups g).waitCnt ∧ (s'.groups g).curLoad < (s'.groups g).maxLoad then
      (s.groups g).cond.signal
    else (s.groups g).cond

theorem add_joined {memory : Bool} {s₁ : State}
    (hfree : (s.targets t).group = none ∧ (s.targets t).waitCnt = 0)
    (hinsert : s.heapInsert memory g t = some s₁) : Joined s (s.add memory g t).2 g t := by
  obtain ⟨htargets, hgroups, hacquired, b, hgroup⟩ := heapInsert_some hinsert
  let s₂ := (s₁.setTarget t fun x => { x with group := some g }).setGroup g fun y =>
    { y with
      maxLoad := wrap (y.maxLoad + (s.targets t).maxLoad)
      curLoad := wrap (y.curLoad + (s.targets t).curLoad) }
  have heq : (s.add memory g t).2 = if (s₂.groups g).waitCnt > 0 ∧
      (s₂.groups g).curLoad < (s₂.groups g).maxLoad then s₂.signalGroup g else s₂ := by
    simp only [State.add, if_pos hfree, hinsert]
    rfl
  have htarget : s₂.targets t =
      { s.targets t with index := (s.inserted g t).pos t, group := some g } := by
    simp [s₂, htargets]
  have hother : ∀ u, u ≠ t → s₂.targets u =
      { s.targets u with index := (s.inserted g t).pos u } := by
    intro u hu
    simp [s₂, State.setTarget_of_ne hu, htargets]
  have hs₂ : ∀ k, k ≠ g → s₂.groups k = s.groups k := by
    intro k hk
    simp [s₂, State.setGroup_of_ne hk, hgroups k hk]
  have hg₂ : s₂.groups g = { s.groups g with
      tgHeap := (s.inserted g t).item
      heapSize := (s.groups g).heapSize + 1
      heapBufSize := b
      maxLoad := wrap ((s.groups g).maxLoad + (s.targets t).maxLoad)
      curLoad := wrap ((s.groups g).curLoad + (s.targets t).curLoad) } := by
    simp [s₂, hgroup]
  rw [heq]
  by_cases hsignal : (s₂.groups g).waitCnt > 0 ∧ (s₂.groups g).curLoad < (s₂.groups g).maxLoad
  · rw [if_pos hsignal]
    have hg₃ : (s₂.signalGroup g).groups g =
        { s₂.groups g with cond := (s₂.groups g).cond.signal } := State.setGroup_self _ _ _
    rw [hg₂] at hg₃ hsignal
    refine ⟨htarget, hother, ?_, hacquired, ?_, ?_, ?_, ?_, ?_, ?_⟩
    · intro k hk
      rw [State.signalGroup, State.setGroup_of_ne hk, hs₂ k hk]
    all_goals rw [hg₃]
    exact (if_pos hsignal).symm
  · rw [if_neg hsignal]
    rw [hg₂] at hsignal
    refine ⟨htarget, hother, hs₂, hacquired, ?_, ?_, ?_, ?_, ?_, ?_⟩
    all_goals rw [hg₂]
    exact (if_neg hsignal).symm

theorem Joined.members (J : Joined s s' g t) : s'.members g = insert t (s.members g) := by
  ext u
  change (s'.targets u).group = some g ↔ u = t ∨ (s.targets u).group = some g
  by_cases hu : u = t
  · simp [hu, J.target]
  · simp [hu, J.other u hu]

theorem Joined.loads (J : Joined s s' g t) (u : TargetId) :
    (s'.targets u).maxLoad = (s.targets u).maxLoad ∧
      (s'.targets u).curLoad = (s.targets u).curLoad ∧
      (s'.targets u).index = (s.inserted g t).pos u := by
  by_cases hu : u = t
  · subst hu
    rw [J.target]
    exact ⟨rfl, rfl, rfl⟩
  · rw [J.other u hu]
    exact ⟨rfl, rfl, rfl⟩

theorem Joined.heap (J : Joined s s' g t) : s'.heap g = s.inserted g t := by
  have hindex : (fun u => (s'.targets u).index) = (s.inserted g t).pos :=
    funext (fun u => (J.loads u).2.2)
  rw [State.heap, J.tgHeap, hindex]

theorem Joined.sum (J : Joined s s' g t) (inv : Inv limit s)
    (R : Settled s.ratio ((s.groups g).heapSize + 1) (insert t (s.members g)) (s.heap g)
      (s.inserted g t)) (hnone : (s.targets t).group = none) (f : Target → ℕ)
    (hf : ∀ u, f (s'.targets u) = f (s.targets u)) :
    s'.sum g f = s.sum g f + f (s.targets t) := by
  have hnot : t ∉ s.members g := by
    intro hin
    exact absurd (Eq.trans (Eq.symm hnone) hin) (by simp)
  have F := ((inv.group g).filled).push hnot
  have hR := R.filled
  rw [← J.heap] at hR
  rw [sum_of_filled F hR J.heapSize _ hf, total_succ, Slots.place_item_self, State.sum]
  congr 1
  refine total_congr ?_
  intro i hi
  rw [Slots.place_item_of_ne (Nat.ne_of_lt hi)]
  rfl

theorem Joined.inv (J : Joined s s' g t) (inv : Inv limit s)
    (hnone : (s.targets t).group = none) (hfit : Fits s')
    (hsum : (s.groups g).maxLoad + (s.targets t).maxLoad < 2 ^ 64) : Inv limit s' := by
  have hproducts : ∀ u ∈ insert t (s.members g), ∀ v ∈ insert t (s.members g),
      (s.targets u).curLoad * (s.targets v).maxLoad < 2 ^ 64 := by
    intro u hu v hv
    rw [← J.members] at hu hv
    have hlt := hfit g u hu v hv
    rwa [(J.loads u).2.1, (J.loads v).1] at hlt
  have R := inv.inserted hnone hproducts
  have hmaxSum := J.sum inv R hnone Target.maxLoad (fun u => (J.loads u).1)
  have hcurSum := J.sum inv R hnone Target.curLoad (fun u => (J.loads u).2.1)
  have hmax := (inv.group g).maxLoad
  have hcur := (inv.group g).curLoad
  have hle := inv.sum_le g
  have hlt := inv.le t
  refine ⟨?_, ?_, ?_, ?_, ?_⟩
  · intro u
    rw [(J.loads u).1]
    exact inv.maxLoad u
  · intro u
    rw [J.acquired, (J.loads u).2.1]
    exact inv.acquired u
  · intro u
    rw [(J.loads u).1, (J.loads u).2.1]
    exact inv.le u
  · intro k
    by_cases hk : k = g
    · subst hk
      rw [J.maxLoad, wrap_of_lt hsum]
      exact hsum
    · rw [J.groups k hk]
      exact inv.bound k
  · intro k
    by_cases hk : k = g
    · subst hk
      refine .of_settled (J.heap ▸ R) J.heapSize J.members (fun u => (J.loads u).2.1)
        (fun u => (J.loads u).1) ?_ ?_
      · rw [J.maxLoad, wrap_of_lt hsum]
        omega
      · rw [J.curLoad, wrap_of_lt (by omega)]
        omega
    · refine (inv.group k).transfer (J.groups k hk ▸ .refl _) ?_ ?_
      · ext u
        change (s'.targets u).group = some k ↔ (s.targets u).group = some k
        by_cases hu : u = t
        · subst hu
          simp [J.target, hnone, Ne.symm hk]
        · rw [J.other u hu]
      · intro u hu
        have hut : u ≠ t := by
          rintro rfl
          exact absurd (Eq.trans (Eq.symm hnone) hu) (by simp)
        have hout : u ∉ insert t (s.members g) := by
          rintro (heq | hin)
          · exact hut heq
          · exact hk (Option.some.inj (Eq.trans (Eq.symm hu) hin))
        rw [J.other u hut]
        exact ⟨rfl, rfl, rfl, R.outside u hout⟩

theorem add_cases {memory : Bool} (s : State) (g : GroupId) (t : TargetId) :
    (s.add memory g t).2 = s ∨ ((s.targets t).group = none ∧ (s.targets t).waitCnt = 0 ∧
      Joined s (s.add memory g t).2 g t) := by
  by_cases hfree : (s.targets t).group = none ∧ (s.targets t).waitCnt = 0
  · cases hinsert : s.heapInsert memory g t with
    | none => exact .inl (by simp [State.add, hfree, hinsert])
    | some s₁ => exact .inr ⟨hfree.1, hfree.2, add_joined hfree hinsert⟩
  · refine .inl ?_
    simp only [State.add, if_neg hfree]
    split_ifs <;> rfl

def State.removed (g : GroupId) (index : ℕ) (s : State) : Slots TargetId :=
  let size := (s.groups g).heapSize - 1
  if index ≠ size then
    let target := (s.groups g).tgHeap size
    let heap := heapAdjustLoop (targetCmp s.targets) target 0 index index
      ((s.heap g).place index target)
    heapifyLoop (targetCmp s.targets) size (heap.item (heap.pos target)) size (heap.pos target) heap
  else s.heap g

theorem heapRemove_eq (g : GroupId) (index : ℕ) (s : State) :
    s.heapRemove g index = (s.setGroup g fun x => { x with heapSize := x.heapSize - 1 }).setHeap g
      (s.removed g index) := by
  generalize hs₀ : s.setGroup g (fun x => { x with heapSize := x.heapSize - 1 }) = s₀
  have htargets : s₀.targets = s.targets := by rw [← hs₀]; rfl
  have hgroup : s₀.groups g = { s.groups g with heapSize := (s.groups g).heapSize - 1 } := by
    rw [← hs₀]
    exact State.setGroup_self _ _ _
  have hheap : s₀.heap g = s.heap g := by
    rw [State.heap, State.heap, hgroup, htargets]
  have hself : s₀.setHeap g (s.heap g) = s₀ := by
    rw [← hheap]
    simp [State.setHeap, State.setGroup, State.heap]
  rw [State.heapRemove, hs₀, State.removed]
  simp only [hgroup, hheap]
  split_ifs with hindex
  · rw [setHeap_heapAdjust, setHeap_heapify, htargets, hgroup, Slots.place_item_self,
      State.setHeap_targets]
  · exact hself.symm

theorem Inv.removed (inv : Inv limit s) (ht : t ∈ s.members g)
    (hfit : ∀ u ∈ s.members g \ {t}, ∀ v ∈ s.members g \ {t},
      (s.targets u).curLoad * (s.targets v).maxLoad < 2 ^ 64) :
    Settled s.ratio ((s.groups g).heapSize - 1) (s.members g \ {t}) (s.heap g)
      (s.removed g (s.targets t).index) := by
  have F := (inv.group g).filled
  have ho : Ordered (s.groups g).heapSize (fun i => s.ratio ((s.heap g).item i)) :=
    (inv.group g).ordered
  obtain ⟨hplace, hitem⟩ := F.pos t ht
  generalize hn : (s.groups g).heapSize - 1 = n
  have hsize : (s.groups g).heapSize = n + 1 := by omega
  rw [hsize] at F ho hplace
  have C : Compares (targetCmp s.targets) s.ratio (s.members g \ {t}) :=
    targetCmp_compares inv.maxLoad_pos hfit
  rw [State.removed, hn]
  by_cases hlast : (s.targets t).index = n
  · rw [if_neg (not_not.mpr hlast)]
    have F' := F.dropLast
    have hleft : (s.heap g).item n = t := hlast ▸ hitem
    rw [hleft] at F'
    exact ⟨F', ho.pop (Nat.le_succ n), fun _ _ => rfl⟩
  · rw [if_pos hlast]
    have hindex : (s.heap g).pos t < n := by
      have hne : (s.heap g).pos t ≠ n := hlast
      omega
    have F₀ := F.fillGap hindex
    rw [hitem] at F₀
    have htarget : (s.heap g).item n ∈ s.members g \ {t} := by
      simpa using (F₀.item _ hindex).1
    have hself := F₀.place_pos htarget
    rw [Slots.place_pos_self] at hself
    have o₀ : OrderedAround n (fun i => s.ratio
        (((s.heap g).place ((s.heap g).pos t) ((s.heap g).item n)).item i)) ((s.heap g).pos t) :=
      ((ho.pop (Nat.le_succ n)).around hindex).change
        (fun j hj hne => by rw [Slots.place_item_of_ne hne])
    have hadjust := heapAdjustLoop_around C le_rfl hindex (by rwa [hself]) (by rwa [hself])
    generalize hr : heapAdjustLoop (targetCmp s.targets) ((s.heap g).item n) 0 ((s.heap g).pos t)
      ((s.heap g).pos t) ((s.heap g).place ((s.heap g).pos t) ((s.heap g).item n)) = r at hadjust
    obtain ⟨F₁, o₁, hout⟩ := hadjust
    obtain ⟨hplace₁, hitem₁⟩ := F₁.pos _ htarget
    have R := heapifyLoop_spec ((s.heap g).item n) C n _ _ (Nat.le_add_left _ _) hplace₁
      (by rwa [F₁.place_pos htarget]) (by rwa [F₁.place_pos htarget])
    have hsettled : Settled s.ratio n (s.members g \ {t}) (s.heap g) (heapifyLoop
        (targetCmp s.targets) n (r.item (r.pos ((s.heap g).item n))) n
        (r.pos ((s.heap g).item n)) r) := by
      rw [hitem₁]
      refine ⟨R.filled, R.ordered, ?_⟩
      intro y hy
      rw [R.outside y hy, hout y hy, place_outside htarget y hy]
    rw [← hr] at hsettled
    exact hsettled

structure Left (s s' : State) (g : GroupId) (t : TargetId) : Prop where
  target : s'.targets t = { s.targets t with
    index := (s.removed g (s.targets t).index).pos t
    group := none }
  other : ∀ u, u ≠ t → s'.targets u =
    { s.targets u with index := (s.removed g (s.targets t).index).pos u }
  groups : ∀ k, k ≠ g → s'.groups k = s.groups k
  acquired : s'.acquired = s.acquired
  group : s'.groups g = { s.groups g with
    tgHeap := (s.removed g (s.targets t).index).item
    heapSize := (s.groups g).heapSize - 1
    maxLoad := wrap ((s.groups g).maxLoad + (2 ^ 64 - (s.targets t).maxLoad))
    curLoad := wrap ((s.groups g).curLoad + (2 ^ 64 - (s.targets t).curLoad)) }

theorem remove_cases (s : State) (g : GroupId) (t : TargetId) :
    (s.remove g t).2 = s ∨ ((s.targets t).group = some g ∧ (s.targets t).waitCnt = 0 ∧
      Left s (s.remove g t).2 g t) := by
  by_cases hin : (s.targets t).group = some g ∧ (s.targets t).waitCnt = 0
  · refine .inr ⟨hin.1, hin.2, ?_⟩
    have heq : (s.remove g t).2 = ((s.heapRemove g (s.targets t).index).setGroup g fun y =>
        { y with
          maxLoad := wrap (y.maxLoad + (2 ^ 64 - (s.targets t).maxLoad))
          curLoad := wrap (y.curLoad + (2 ^ 64 - (s.targets t).curLoad)) }).setTarget t
        fun x => { x with group := none } := by
      simp only [State.remove, if_pos hin]
    rw [heq, heapRemove_eq]
    refine ⟨?_, ?_, ?_, rfl, ?_⟩
    · simp
    · intro u hu
      rw [State.setTarget_of_ne hu]
      simp
    · intro k hk
      rw [State.setTarget_groups, State.setGroup_of_ne hk, State.setHeap_groups_of_ne hk,
        State.setGroup_of_ne hk]
    · simp
  · refine .inl ?_
    simp only [State.remove, if_neg hin]
    split_ifs <;> rfl

theorem Left.members (L : Left s s' g t) : s'.members g = s.members g \ {t} := by
  ext u
  change (s'.targets u).group = some g ↔ (s.targets u).group = some g ∧ u ≠ t
  by_cases hu : u = t
  · simp [hu, L.target]
  · simp [hu, L.other u hu]

theorem Left.loads (L : Left s s' g t) (u : TargetId) :
    (s'.targets u).maxLoad = (s.targets u).maxLoad ∧
      (s'.targets u).curLoad = (s.targets u).curLoad ∧
      (s'.targets u).index = (s.removed g (s.targets t).index).pos u := by
  by_cases hu : u = t
  · subst hu
    rw [L.target]
    exact ⟨rfl, rfl, rfl⟩
  · rw [L.other u hu]
    exact ⟨rfl, rfl, rfl⟩

theorem Left.heap (L : Left s s' g t) : s'.heap g = s.removed g (s.targets t).index := by
  have hindex : (fun u => (s'.targets u).index) = (s.removed g (s.targets t).index).pos :=
    funext (fun u => (L.loads u).2.2)
  rw [State.heap, L.group, hindex]

theorem Left.sum (L : Left s s' g t) (inv : Inv limit s) (ht : t ∈ s.members g)
    (R : Settled s.ratio ((s.groups g).heapSize - 1) (s.members g \ {t}) (s.heap g)
      (s.removed g (s.targets t).index)) (f : Target → ℕ)
    (hf : ∀ u, f (s'.targets u) = f (s.targets u)) :
    s'.sum g f + f (s.targets t) = s.sum g f := by
  have F := (inv.group g).filled
  have hpos := (F.pos t ht).1
  have hR := R.filled
  rw [← L.heap] at hR
  have hsize : (s'.groups g).heapSize = (s.groups g).heapSize - 1 := by rw [L.group]
  rw [sum_of_filled hR hR hsize _ hf, State.sum]
  generalize hn : (s.groups g).heapSize - 1 = n at hR
  have hn' : (s.groups g).heapSize = n + 1 := by omega
  rw [hn'] at F ⊢
  exact F.total_diff ht hR (fun u => f (s.targets u))

theorem Left.inv (L : Left s s' g t) (inv : Inv limit s) (ht : t ∈ s.members g)
    (hfit : Fits s') : Inv limit s' := by
  have hbound := inv.bound g
  have hproducts : ∀ u ∈ s.members g \ {t}, ∀ v ∈ s.members g \ {t},
      (s.targets u).curLoad * (s.targets v).maxLoad < 2 ^ 64 := by
    intro u hu v hv
    rw [← L.members] at hu hv
    have hlt := hfit g u hu v hv
    rwa [(L.loads u).2.1, (L.loads v).1] at hlt
  have R := inv.removed ht hproducts
  have hmaxSum := L.sum inv ht R Target.maxLoad (fun u => (L.loads u).1)
  have hcurSum := L.sum inv ht R Target.curLoad (fun u => (L.loads u).2.1)
  have hmax := (inv.group g).maxLoad
  have hcur := (inv.group g).curLoad
  have hle := inv.sum_le g
  have hwrap := wrap_sub (a := (s.groups g).maxLoad) (b := (s.targets t).maxLoad) (by omega) hbound
  have hmaxLoad : (s'.groups g).maxLoad = (s.groups g).maxLoad - (s.targets t).maxLoad :=
    (congrArg Group.maxLoad L.group).trans hwrap
  refine ⟨?_, ?_, ?_, ?_, ?_⟩
  · intro u
    rw [(L.loads u).1]
    exact inv.maxLoad u
  · intro u
    rw [L.acquired, (L.loads u).2.1]
    exact inv.acquired u
  · intro u
    rw [(L.loads u).1, (L.loads u).2.1]
    exact inv.le u
  · intro k
    by_cases hk : k = g
    · subst hk
      omega
    · rw [L.groups k hk]
      exact inv.bound k
  · intro k
    by_cases hk : k = g
    · subst hk
      refine .of_settled (L.heap ▸ R) (by rw [L.group]) L.members (fun u => (L.loads u).2.1)
        (fun u => (L.loads u).1) ?_ ?_
      · omega
      · have hwrap := wrap_sub (a := (s.groups k).curLoad) (b := (s.targets t).curLoad) (by omega)
          (by omega)
        refine (congrArg Group.curLoad L.group).trans ?_
        change wrap _ = _
        omega
    · refine (inv.group k).transfer (L.groups k hk ▸ .refl _) ?_ ?_
      · ext u
        change (s'.targets u).group = some k ↔ (s.targets u).group = some k
        by_cases hu : u = t
        · subst hu
          have hg : (s.targets u).group = some g := ht
          simp [L.target, hg, Ne.symm hk]
        · rw [L.other u hu]
      · intro u hu
        have hug : u ∉ s.members g := fun hin =>
          hk (Option.some.inj (Eq.trans (Eq.symm hu) hin))
        have hut : u ≠ t := by
          rintro rfl
          exact hug ht
        rw [L.other u hut]
        exact ⟨rfl, rfl, rfl, R.outside u (fun hin => hug hin.1)⟩

theorem ratio_lt_one (inv : Inv limit s) (u : TargetId) :
    s.ratio u < 1 ↔ (s.targets u).curLoad < (s.targets u).maxLoad := by
  have hpos : (0 : ℚ) < (s.targets u).maxLoad := Nat.cast_pos.mpr (inv.maxLoad_pos u)
  rw [State.ratio, div_lt_one hpos, Nat.cast_lt]

theorem Inv.group_free (inv : Inv limit s) (g : GroupId) :
    (s.groups g).curLoad < (s.groups g).maxLoad ↔
      ∃ u ∈ s.members g, (s.targets u).curLoad < (s.targets u).maxLoad := by
  have F := (inv.group g).filled
  rw [(inv.group g).curLoad, (inv.group g).maxLoad]
  constructor
  · intro hlt
    by_contra hnone
    push Not at hnone
    have hle : s.sum g Target.maxLoad ≤ s.sum g Target.curLoad :=
      Finset.sum_le_sum (fun i hi => hnone _ (F.item i (Finset.mem_range.mp hi)).1)
    omega
  · rintro ⟨u, hu, hlt⟩
    obtain ⟨hpos, hitem⟩ := F.pos u hu
    refine Finset.sum_lt_sum (fun i _ => inv.le _) ⟨(s.heap g).pos u, Finset.mem_range.mpr hpos, ?_⟩
    change (s.targets ((s.heap g).item _)).curLoad < (s.targets ((s.heap g).item _)).maxLoad
    rwa [hitem]

theorem Inv.root (inv : Inv limit s) (hlt : (s.groups g).curLoad < (s.groups g).maxLoad) :
    (s.groups g).tgHeap 0 ∈ s.members g ∧ (s.targets ((s.groups g).tgHeap 0)).index = 0 ∧
      (s.targets ((s.groups g).tgHeap 0)).curLoad < (s.targets ((s.groups g).tgHeap 0)).maxLoad ∧
      ∀ u ∈ s.members g, s.ratio ((s.groups g).tgHeap 0) ≤ s.ratio u := by
  have F := (inv.group g).filled
  have hmin : ∀ u ∈ s.members g, s.ratio ((s.groups g).tgHeap 0) ≤ s.ratio u := by
    intro u hu
    obtain ⟨hpos, hitem⟩ := F.pos u hu
    have hle := (inv.group g).ordered.root_le _ hpos
    change _ ≤ s.ratio ((s.heap g).item _) at hle
    rwa [hitem] at hle
  obtain ⟨u, hu, hfree⟩ := (inv.group_free g).mp hlt
  obtain ⟨hmem, hindex⟩ := F.item 0 (Nat.zero_lt_of_lt (F.pos u hu).1)
  refine ⟨hmem, hindex, ?_, hmin⟩
  rw [← ratio_lt_one inv] at hfree ⊢
  exact (hmin u hu).trans_lt hfree

theorem groupTake_eq (hgroup : (s.targets ((s.groups g).tgHeap 0)).group = some g)
    (hindex : (s.targets ((s.groups g).tgHeap 0)).index = 0) :
    s.groupTake g = s.targetTake ((s.groups g).tgHeap 0) := by
  simp [State.groupTake, State.targetTake, hgroup, hindex]

theorem Inv.groupTake (inv : Inv limit s) (hlt : (s.groups g).curLoad < (s.groups g).maxLoad)
    (hfit : Fits (s.groupTake g)) : Inv limit (s.groupTake g) := by
  obtain ⟨hmem, hindex, hfree, -⟩ := inv.root hlt
  rw [groupTake_eq hmem hindex] at hfit ⊢
  exact inv.targetTake hfree hfit

theorem Inv.setTarget {f : Target → Target} (inv : Inv limit s)
    (hf : SameTarget (s.targets t) (f (s.targets t))) : Inv limit (s.setTarget t f) := by
  refine inv.same ?_ (fun _ => .refl _) rfl
  intro u
  by_cases hu : u = t
  · subst hu
    rwa [State.setTarget_self]
  · rw [State.setTarget_of_ne hu]
    exact .refl _

theorem Inv.setGroup {f : Group → Group} (inv : Inv limit s)
    (hf : SameGroup (s.groups g) (f (s.groups g))) : Inv limit (s.setGroup g f) := by
  refine inv.same (fun _ => .refl _) ?_ rfl
  intro k
  by_cases hk : k = g
  · subst hk
    rwa [State.setGroup_self]
  · rw [State.setGroup_of_ne hk]
    exact .refl _

theorem Inv.groupWait (inv : Inv limit s) (g : GroupId) : Inv limit (s.groupWait g) :=
  Inv.setGroup inv ⟨rfl, rfl, rfl, rfl⟩

theorem Inv.targetWait (inv : Inv limit s) (t : TargetId) : Inv limit (s.targetWait t) :=
  Inv.setTarget inv ⟨rfl, rfl, rfl, rfl⟩

def SumFits (s : State) : Op → Prop
  | .add _ g t => (s.groups g).maxLoad + (s.targets t).maxLoad < 2 ^ 64
  | _ => True

theorem step_inv {op : Op} (inv : Inv limit s) (h : step s op = some s') (hfit : Fits s')
    (hsum : SumFits s op) : Inv limit s' := by
  cases op with
  | add memory g t =>
    cases h
    rcases add_cases s g t with heq | ⟨hnone, -, J⟩
    · rwa [heq]
    · exact J.inv inv hnone hfit hsum
  | remove g t =>
    cases h
    rcases remove_cases s g t with heq | ⟨hsome, -, L⟩
    · rwa [heq]
    · exact L.inv inv hsome hfit
  | groupAcquire wait g =>
    cases h
    simp only [State.groupAcquire] at hfit ⊢
    split at hfit
    next hfull =>
      rw [if_pos hfull]
      cases wait
      · exact inv
      · exact inv.groupWait g
    next hfull =>
      rw [if_neg hfull]
      exact inv.groupTake (Nat.not_le.mp hfull) hfit
  | targetAcquire wait t =>
    cases h
    simp only [State.targetAcquire] at hfit ⊢
    split at hfit
    next hfull =>
      rw [if_pos hfull]
      cases wait
      · exact inv
      · exact inv.targetWait t
    next hfull =>
      rw [if_neg hfull]
      exact inv.targetTake (Nat.not_le.mp hfull) hfit
  | release t hasIdleConn =>
    obtain ⟨hpos, rfl⟩ := of_guard h
    exact inv.release hpos rfl hfit
  | groupWake g =>
    cases h
    exact inv.setGroup ⟨rfl, rfl, rfl, rfl⟩
  | targetWake t =>
    cases h
    exact inv.setTarget ⟨rfl, rfl, rfl, rfl⟩
  | groupResume timedOut g =>
    obtain ⟨hwoken, rfl⟩ := of_guard h
    have inv' : Inv limit (s.setGroup g fun x =>
        { x with waitCnt := x.waitCnt - 1, cond := x.cond.resume }) :=
      inv.setGroup ⟨rfl, rfl, rfl, rfl⟩
    simp only [State.groupResume] at hfit ⊢
    split at hfit
    next hfull =>
      rw [if_pos hfull]
      cases timedOut
      · exact inv'.groupWait g
      · exact inv'
    next hfull =>
      rw [if_neg hfull]
      exact inv'.groupTake (Nat.not_le.mp hfull) hfit
  | targetResume timedOut t =>
    obtain ⟨hwoken, rfl⟩ := of_guard h
    have inv' : Inv limit (s.setTarget t fun x =>
        { x with waitCnt := x.waitCnt - 1, cond := x.cond.resume }) :=
      inv.setTarget ⟨rfl, rfl, rfl, rfl⟩
    simp only [State.targetResume] at hfit ⊢
    split at hfit
    next hfull =>
      rw [if_pos hfull]
      cases timedOut
      · exact inv'.targetWait t
      · exact inv'
    next hfull =>
      rw [if_neg hfull]
      exact inv'.targetTake (Nat.not_le.mp hfull) hfit

def LoadsFit (s : State) (op : Op) : Prop :=
  SumFits s op ∧ ∀ s', step s op = some s' → Fits s'

theorem Inv.init (limit : TargetId → Limit) : Inv limit (.init limit) := by
  have hempty : ∀ g, (State.init limit).members g = ∅ := by
    intro g
    ext t
    simp [State.members, State.init, Target.init]
  refine ⟨fun _ => rfl, fun _ => rfl, fun _ => Nat.zero_le _, fun _ => by simp [State.init, Group.init],
    fun g => ⟨⟨?_, ?_⟩, ?_, rfl, rfl⟩⟩
  · intro i hi
    cases hi
  · intro t ht
    rw [hempty] at ht
    cases ht
  · intro j _ hj
    cases hj

theorem Inv.of_reaches (h : Reaches step LoadsFit (.init limit) s) : Inv limit s :=
  h.invariant (.init limit) (fun _ _ s' inv hfits hstep =>
    step_inv inv hstep (hfits.2 s' hstep) hfits.1)

theorem Inv.groupAcquire_succeeds (inv : Inv limit s) (g : GroupId) :
    (∃ t, (s.groupAcquire false g).1 = .target t) ↔
      ∃ t ∈ s.members g, (s.targets t).curLoad < (s.targets t).maxLoad := by
  rw [← inv.group_free g]
  by_cases hfull : (s.groups g).curLoad ≥ (s.groups g).maxLoad
  · simp [State.groupAcquire, hfull]
  · simp [State.groupAcquire, hfull, Nat.not_le.mp hfull]

structure Loads (x y : Target) (taken : ℕ) : Prop where
  maxLoad : y.maxLoad = x.maxLoad
  curLoad : y.curLoad = x.curLoad + taken

theorem targetTake_loads (s : State) (t u : TargetId) :
    Loads (s.targets u) ((s.targetTake t).targets u) (if u = t then 1 else 0) := by
  by_cases hu : u = t
  · subst hu
    cases hgroup : (s.targets u).group with
    | none => constructor <;> simp [State.targetTake, hgroup]
    | some g => constructor <;> simp [State.targetTake, hgroup, State.heapify]
  · cases hgroup : (s.targets t).group with
    | none => constructor <;> simp [State.targetTake, hgroup, hu, State.setTarget_of_ne hu]
    | some g =>
      constructor <;>
        simp [State.targetTake, hgroup, hu, State.heapify, State.setTarget_of_ne hu]

theorem groupTake_loads (s : State) (g : GroupId) (u : TargetId) :
    Loads (s.targets u) ((s.groupTake g).targets u)
      (if u = (s.groups g).tgHeap 0 then 1 else 0) := by
  by_cases hu : u = (s.groups g).tgHeap 0
  · rw [hu]
    constructor <;> simp [State.groupTake, State.heapify]
  · constructor <;> simp [State.groupTake, State.heapify, hu, State.setTarget_of_ne hu]

theorem add_loads (s : State) (memory : Bool) (g : GroupId) (t u : TargetId) :
    Loads (s.targets u) ((s.add memory g t).2.targets u) 0 := by
  rcases add_cases s g t with heq | ⟨-, -, J⟩
  · rw [heq]
    exact ⟨rfl, rfl⟩
  · exact ⟨(J.loads u).1, (J.loads u).2.1⟩

theorem remove_loads (s : State) (g : GroupId) (t u : TargetId) :
    Loads (s.targets u) ((s.remove g t).2.targets u) 0 := by
  rcases remove_cases s g t with heq | ⟨-, -, L⟩
  · rw [heq]
    exact ⟨rfl, rfl⟩
  · exact ⟨(L.loads u).1, (L.loads u).2.1⟩

theorem Inv.groupAcquire_least (inv : Inv limit s)
    (h : (s.groupAcquire false g).1 = .target t) : t ∈ s.members g ∧
      (s.targets t).curLoad < (s.targets t).maxLoad ∧ (∀ u ∈ s.members g, s.ratio t ≤ s.ratio u) ∧
      ((s.groupAcquire false g).2.targets t).curLoad = (s.targets t).curLoad + 1 := by
  by_cases hfull : (s.groups g).curLoad ≥ (s.groups g).maxLoad
  · simp [State.groupAcquire, hfull] at h
  · obtain ⟨hmem, hindex, hfree, hmin⟩ := inv.root (Nat.not_le.mp hfull)
    obtain rfl : (s.groups g).tgHeap 0 = t := by simpa [State.groupAcquire, hfull] using h
    refine ⟨hmem, hfree, hmin, ?_⟩
    simp only [State.groupAcquire, if_neg hfull]
    rw [groupTake_eq hmem hindex]
    simpa using (targetTake_loads s ((s.groups g).tgHeap 0) ((s.groups g).tgHeap 0)).curLoad

/-- As long as no product or sum leaves 64 bits, in every reachable state the members of a group fill
    its heap in the order of their load, the group's loads are their sums, and `acquire` takes a slot
    of a least loaded member exactly if one is free. -/
theorem scheduler_heap_sound {limit : TargetId → Limit} {s : State}
    (h : Reaches step LoadsFit (.init limit) s) :
    (∀ t, (s.targets t).curLoad ≤ (s.targets t).maxLoad) ∧
    ∀ g, (∀ i < (s.groups g).heapSize, (s.targets ((s.groups g).tgHeap i)).group = some g ∧
        (s.targets ((s.groups g).tgHeap i)).index = i) ∧
      (∀ t, (s.targets t).group = some g →
        ∃! i, i < (s.groups g).heapSize ∧ (s.groups g).tgHeap i = t) ∧
      (∀ i, 0 < i → i < (s.groups g).heapSize →
        s.ratio ((s.groups g).tgHeap ((i - 1) / 2)) ≤ s.ratio ((s.groups g).tgHeap i)) ∧
      (s.groups g).maxLoad = s.sum g Target.maxLoad ∧
      (s.groups g).curLoad = s.sum g Target.curLoad ∧
      ((∃ t, (s.groupAcquire false g).1 = .target t) ↔
        ∃ t ∈ s.members g, (s.targets t).curLoad < (s.targets t).maxLoad) ∧
      ∀ t, (s.groupAcquire false g).1 = .target t → t ∈ s.members g ∧
        (s.targets t).curLoad < (s.targets t).maxLoad ∧
        (∀ u ∈ s.members g, s.ratio t ≤ s.ratio u) ∧
        ((s.groupAcquire false g).2.targets t).curLoad = (s.targets t).curLoad + 1 := by
  have inv := Inv.of_reaches h
  refine ⟨inv.le, fun g => ?_⟩
  obtain ⟨filled, ordered, hmax, hcur⟩ := inv.group g
  refine ⟨filled.item, ?_, ordered, hmax, hcur, inv.groupAcquire_succeeds g,
    fun t ht => inv.groupAcquire_least ht⟩
  intro t ht
  obtain ⟨hlt, hitem⟩ := filled.pos t ht
  refine ⟨(s.heap g).pos t, ⟨hlt, hitem⟩, ?_⟩
  rintro i ⟨hi, rfl⟩
  exact ((filled.item i hi).2).symm

theorem Loads.le_succ {x y : Target} {n : ℕ} (L : Loads x y n) (hn : n ≤ 1) :
    y.maxLoad = x.maxLoad ∧ y.curLoad ≤ x.curLoad + 1 :=
  ⟨L.maxLoad, by have h := L.curLoad; omega⟩

theorem release_loads (s : State) (t : TargetId) (hasIdleConn : Bool) (u : TargetId) :
    ((s.release t hasIdleConn).targets u).maxLoad = (s.targets u).maxLoad ∧
      ((s.release t hasIdleConn).targets u).curLoad ≤ (s.targets u).curLoad := by
  cases hgroup : (s.targets t).group with
  | none =>
    by_cases hw : 0 < (s.targets t).waitCnt
    all_goals
      by_cases hu : u = t
      · subst hu
        simp [State.release, hgroup, hw, State.signalTarget]
      · simp [State.release, hgroup, hw, State.signalTarget, State.setTarget_of_ne hu]
  | some g =>
    rw [release_grouped hgroup]
    by_cases hu : u = t
    · subst hu
      simp [State.heapAdjust, State.unload]
    · simp [State.heapAdjust, State.unload, hu]

theorem setTarget_loads (s : State) (t u : TargetId) {f : Target → Target}
    (hf : ∀ x, (f x).maxLoad = x.maxLoad ∧ (f x).curLoad = x.curLoad) :
    Loads (s.targets u) ((s.setTarget t f).targets u) 0 := by
  by_cases hu : u = t
  · subst hu
    rw [State.setTarget_self]
    exact ⟨(hf _).1, (hf _).2⟩
  · rw [State.setTarget_of_ne hu]
    exact ⟨rfl, rfl⟩

theorem targetWait_loads (s : State) (t u : TargetId) :
    Loads (s.targets u) ((s.targetWait t).targets u) 0 :=
  setTarget_loads s t u fun _ => ⟨rfl, rfl⟩

theorem signalTarget_loads (s : State) (t u : TargetId) :
    Loads (s.targets u) ((s.signalTarget t).targets u) 0 :=
  setTarget_loads s t u fun _ => ⟨rfl, rfl⟩

theorem Loads.trans {x y z : Target} {n : ℕ} (h : Loads x y 0) (h' : Loads y z n) :
    Loads x z n :=
  ⟨h'.maxLoad.trans h.maxLoad, h'.curLoad.trans (congrArg (· + n) h.curLoad)⟩

theorem step_loads {op : Op} (h : step s op = some s') (u : TargetId) :
    (s'.targets u).maxLoad = (s.targets u).maxLoad ∧
      (s'.targets u).curLoad ≤ (s.targets u).curLoad + 1 := by
  have hone : ∀ v : TargetId, (if u = v then 1 else 0) ≤ 1 := by
    intro v
    split_ifs <;> omega
  cases op with
  | add memory g t =>
    cases h
    exact (add_loads s memory g t u).le_succ (Nat.zero_le 1)
  | remove g t =>
    cases h
    exact (remove_loads s g t u).le_succ (Nat.zero_le 1)
  | groupAcquire wait g =>
    cases h
    simp only [State.groupAcquire]
    split
    · cases wait <;> exact ⟨rfl, Nat.le_succ _⟩
    · exact (groupTake_loads s g u).le_succ (hone _)
  | targetAcquire wait t =>
    cases h
    simp only [State.targetAcquire]
    split
    · cases wait with
      | false => exact ⟨rfl, Nat.le_succ _⟩
      | true => exact (targetWait_loads s t u).le_succ (Nat.zero_le 1)
    · exact (targetTake_loads s t u).le_succ (hone _)
  | release t hasIdleConn =>
    obtain ⟨hpos, rfl⟩ := of_guard h
    obtain ⟨hmax, hcur⟩ := release_loads s t hasIdleConn u
    exact ⟨hmax, Nat.le_succ_of_le hcur⟩
  | groupWake g =>
    cases h
    exact ⟨rfl, Nat.le_succ _⟩
  | targetWake t =>
    cases h
    exact (signalTarget_loads s t u).le_succ (Nat.zero_le 1)
  | groupResume timedOut g =>
    obtain ⟨hwoken, rfl⟩ := of_guard h
    simp only [State.groupResume]
    split
    · cases timedOut <;> exact ⟨rfl, Nat.le_succ _⟩
    · exact (groupTake_loads _ g u).le_succ (hone _)
  | targetResume timedOut t =>
    obtain ⟨hwoken, rfl⟩ := of_guard h
    have hresume : Loads (s.targets u) ((s.setTarget t fun x =>
        { x with waitCnt := x.waitCnt - 1, cond := x.cond.resume }).targets u) 0 :=
      setTarget_loads s t u fun _ => ⟨rfl, rfl⟩
    simp only [State.targetResume]
    split
    · cases timedOut with
      | false => exact (hresume.trans (targetWait_loads _ t u)).le_succ (Nat.zero_le 1)
      | true => exact hresume.le_succ (Nat.zero_le 1)
    · exact (hresume.trans (targetTake_loads _ t u)).le_succ (hone t)

instance (s : State) : (op : Op) → Decidable (SumFits s op)
  | .add _ g t => inferInstanceAs (Decidable ((s.groups g).maxLoad + (s.targets t).maxLoad < 2 ^ 64))
  | .remove _ _ => inferInstanceAs (Decidable True)
  | .groupAcquire _ _ => inferInstanceAs (Decidable True)
  | .targetAcquire _ _ => inferInstanceAs (Decidable True)
  | .release _ _ => inferInstanceAs (Decidable True)
  | .groupWake _ => inferInstanceAs (Decidable True)
  | .targetWake _ => inferInstanceAs (Decidable True)
  | .groupResume _ _ => inferInstanceAs (Decidable True)
  | .targetResume _ _ => inferInstanceAs (Decidable True)

theorem fits_of_small (hmax : ∀ t, (s.targets t).maxLoad < 2 ^ 32)
    (hcur : ∀ t, (s.targets t).curLoad < 2 ^ 32) : Fits s := by
  intro g t _ u _
  calc (s.targets t).curLoad * (s.targets u).maxLoad < 2 ^ 32 * 2 ^ 32 :=
        Nat.mul_lt_mul'' (hcur t) (hmax u)
    _ = 2 ^ 64 := (pow_add 2 32 32).symm

theorem reaches_of_small {init : State} (ops : List Op) {k : ℕ} (hk : k + ops.length < 2 ^ 32)
    (hmax : ∀ t, (s.targets t).maxLoad < 2 ^ 32) (hcur : ∀ t, (s.targets t).curLoad ≤ k)
    (h : Reaches step LoadsFit init s) (hrun : guardedRun step SumFits s ops = some s') :
    Reaches step LoadsFit init s' := by
  induction ops generalizing s k with
  | nil =>
    cases hrun
    exact h
  | cons op ops ih =>
    rw [List.length_cons] at hk
    simp only [guardedRun] at hrun
    split_ifs at hrun with hsum
    obtain ⟨s₁, hs, hrun⟩ := Option.bind_eq_some_iff.mp hrun
    have hmax₁ : ∀ t, (s₁.targets t).maxLoad < 2 ^ 32 := by
      intro t
      rw [(step_loads hs t).1]
      exact hmax t
    have hcur₁ : ∀ t, (s₁.targets t).curLoad ≤ k + 1 :=
      fun t => (step_loads hs t).2.trans (Nat.succ_le_succ (hcur t))
    have hfit : Fits s₁ := fits_of_small hmax₁ (fun t => (hcur₁ t).trans_lt (by omega))
    refine ih (k := k + 1) (by omega) hmax₁ hcur₁ (h.next ⟨hsum, ?_⟩ hs) hrun
    intro s₂ hs₂
    rw [hs] at hs₂
    cases hs₂
    exact hfit

def smallLimit : Limit := ⟨2, by decide⟩

def pairRun : List Op :=
  [.add true 0 0, .add true 0 1, .groupAcquire false 0, .groupAcquire false 0, .release 0 true]

theorem pairRun_least : ∃ s, guardedRun step SumFits (.init fun _ => smallLimit) pairRun = some s ∧
    (s.groupAcquire false 0).1 = .target 0 ∧ ∀ u ∈ s.members 0, s.ratio 0 ≤ s.ratio u := by
  refine ⟨_, rfl, by decide +kernel, ?_⟩
  have hstart : Reaches step LoadsFit (.init fun _ => smallLimit) (.init fun _ => smallLimit) := .start
  have h := reaches_of_small pairRun (k := 0) (by decide) (fun _ => (by decide : 2 < 2 ^ 32))
    (fun _ => Nat.le_refl 0) hstart rfl
  obtain ⟨-, -, -, -, -, -, hleast⟩ := (scheduler_heap_sound h).2 0
  exact (hleast 0 (by decide +kernel)).2.2.1

def hugeLimit : Limit := ⟨2 ^ 63, by decide⟩

def mixedLimits (t : TargetId) : Limit := if t = 0 then smallLimit else hugeLimit

/-- The `max_load` of the group wraps to 0, and a product of exactly `2 ^ 64` compares like 0. -/
theorem large_loads_break_heap :
    (∃ s, run step (.init fun _ => hugeLimit) [.add true 0 0, .add true 0 1] = some s ∧
      (∀ t u, (s.targets t).curLoad * (s.targets u).maxLoad ≤ 2 ^ 64) ∧
      (s.targets 0).group = some 0 ∧ (s.targets 0).curLoad < (s.targets 0).maxLoad ∧
      (s.groups 0).maxLoad ≠ s.sum 0 Target.maxLoad ∧
      (s.groupAcquire false 0).1 = .error .eagain) ∧
    ∃ s, run step (.init mixedLimits) [.targetAcquire false 0, .targetAcquire false 0,
        .add true 0 0, .add true 0 1] = some s ∧
      (∀ t u, (s.targets t).curLoad * (s.targets u).maxLoad ≤ 2 ^ 64) ∧
      (s.groupAcquire false 0).1 = .target 0 ∧ (s.targets 0).curLoad = (s.targets 0).maxLoad ∧
      (s.targets 1).group = some 0 ∧ (s.targets 1).curLoad < (s.targets 1).maxLoad := by
  have hadd : ∀ (s : State) (t : TargetId),
      Loads (s.targets t) ((((s.add true 0 0).2).add true 0 1).2.targets t) 0 := by
    intro s t
    have h₀ := add_loads s true 0 0 t
    have h₁ := add_loads (s.add true 0 0).2 true 0 1 t
    exact ⟨h₁.maxLoad.trans h₀.maxLoad, h₁.curLoad.trans h₀.curLoad⟩
  refine ⟨⟨_, rfl, ?_, by decide +kernel, by decide +kernel, by decide +kernel, by decide +kernel⟩,
    ⟨_, rfl, ?_, by decide +kernel, by decide +kernel, by decide +kernel, by decide +kernel⟩⟩
  · intro t u
    have hcur := (hadd (.init fun _ => hugeLimit) t).curLoad
    calc _ = 0 * _ := congrArg (· * _) hcur
      _ ≤ 2 ^ 64 := by rw [Nat.zero_mul]; exact Nat.zero_le _
  · intro t u
    have htake : ∀ v, Loads ((State.init mixedLimits).targets v)
        ((((State.init mixedLimits).targetTake 0).targetTake 0).targets v)
        ((if v = 0 then 1 else 0) + if v = 0 then 1 else 0) := by
      intro v
      have h₀ := targetTake_loads (.init mixedLimits) 0 v
      have h₁ := targetTake_loads ((State.init mixedLimits).targetTake 0) 0 v
      exact ⟨h₁.maxLoad.trans h₀.maxLoad, by rw [h₁.curLoad, h₀.curLoad, Nat.add_assoc]⟩
    have hmax := (hadd _ u).maxLoad.trans (htake u).maxLoad
    have hcur := (hadd _ t).curLoad.trans (htake t).curLoad
    have hmax' : (mixedLimits u : ℕ) ≤ 2 ^ 63 := by
      unfold mixedLimits
      split_ifs <;> decide
    have hcur' : 0 + ((if t = 0 then 1 else 0) + if t = 0 then 1 else 0) ≤ 2 := by
      split_ifs <;> omega
    calc _ ≤ 2 * 2 ^ 63 := Nat.mul_le_mul (hcur.trans_le hcur') (hmax.trans_le hmax')
      _ = 2 ^ 64 := (pow_succ' 2 63).symm

end MyWorkflow.Comm.Sched
