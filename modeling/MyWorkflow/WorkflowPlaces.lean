import MyWorkflow.WorkflowInvariant

set_option autoImplicit false

namespace MyWorkflow.Workflow
open Function List Bags

variable {h h' : Heap} {F new : List Frame} {f : Frame} {s : SeriesId} {t : Task} {extra : List Event}

def Series.tasks (x : Series) : Task × List Task × Option Task := (x.first, x.queue, x.last)

theorem waiting_eq (hcreated : h'.created = h.created)
    (hstart : .start s ∈ h'.log ↔ .start s ∈ h.log)
    (hdismiss : .dismiss s ∈ h'.log ↔ .dismiss s ∈ h.log)
    (htasks : (h'.series s).tasks = (h.series s).tasks) : h'.waiting s = h.waiting s := by
  simp only [Series.tasks, Prod.mk.injEq] at htasks
  obtain ⟨hfirst, hqueue, hlast⟩ := htasks
  simp only [Heap.waiting, hcreated, hstart, hdismiss, hfirst, hqueue, hlast]

theorem mem_log {e : Event} (hlog : h'.log = extra ++ h.log) (he : e ∉ extra) :
    e ∈ h'.log ↔ e ∈ h.log := by
  rw [hlog, mem_append, or_iff_right he]

structure Records (h h' : Heap) (extra : List Event) : Prop where
  log : h'.log = extra ++ h.log
  pointer : h'.pointer = h.pointer
  created : h'.created = h.created

theorem Records.refl (h : Heap) : Records h h [] := ⟨rfl, rfl, rfl⟩

theorem Records.mem (R : Records h h' extra) {e : Event} (he : e ∉ extra) :
    e ∈ h'.log ↔ e ∈ h.log :=
  mem_log R.log he

theorem Records.waiting (R : Records h h' extra)
    (htasks : ∀ i, (h'.series i).tasks = (h.series i).tasks)
    (hextra : ∀ i, .start i ∉ extra ∧ .dismiss i ∉ extra) : ∀ i, h'.waiting i = h.waiting i :=
  fun i => waiting_eq R.created (R.mem (hextra i).1) (R.mem (hextra i).2) (htasks i)

@[simp] theorem mem_taskLog {e : Event} : e ∈ h.taskLog t ↔ e = .done t ∨ ∃ p, t = .work p ∧
    (e = .callback p ∨ ∃ s ∈ h.allSeries p, e = .deleteSeries s) := by
  cases t with
  | leaf n => simp [Heap.taskLog]
  | work p =>
    simp only [Heap.taskLog, mem_cons, mem_append, mem_map, mem_reverse,
      not_mem_nil, or_false, Task.work.injEq, exists_eq_left', eq_comm (a := e)]
    rw [or_comm (a := ∃ a ∈ h.allSeries p, Event.deleteSeries a = e)]

theorem taskDone_fields (h : Heap) (t : Task) :
    (h.taskDone t).series = h.series ∧ (h.taskDone t).running = h.running ∧
      (h.taskDone t).parent = h.parent := by
  cases t <;> exact ⟨rfl, rfl, rfl⟩

theorem Exec.records (e : Exec h f new extra h') : Records h h' extra := by
  cases e with
  | done t | doneNone t =>
    cases t with
    | leaf n => exact ⟨rfl, rfl, rfl⟩
    | work p => exact ⟨by simp [Heap.taskDone, Heap.taskLog], rfl, rfl⟩
  | _ => exact ⟨rfl, rfl, rfl⟩

theorem Places.step (P : Places h (f :: F)) (R : Records h h' extra)
    (hwait : ∀ s, ∀ t ∈ h'.waiting s, t ∈ h.waiting s)
    (hnew : ∀ t ∈ holdings Frame.taken new ++ holdings Event.taken extra,
      t ∈ f.taken ∨ ∃ s, t ∈ h.waiting s)
    (hcount : ∀ s t, h.pointer t = some s → (h'.waiting s).count t +
      (holdings Frame.taken new ++ holdings Event.taken extra).count t =
        (h.waiting s).count t + f.taken.count t) : Places h' (new ++ F) where
  pointer := by
    intro s t ht
    rw [R.pointer]
    exact P.pointer s t (hwait s t ht)
  once := by
    intro s t hs
    rw [R.pointer] at hs
    have hone := P.once s t hs
    have hmove := hcount s t hs
    rw [Heap.taken, holdings, flatMap_cons] at hone
    rw [Heap.taken, R.log, holdings, holdings, flatMap_append, flatMap_append]
    simp only [count_append] at hone hmove ⊢
    simp only [holdings] at hone hmove ⊢
    omega
  free := by
    intro t ht
    rw [R.pointer] at ht
    have howned : t ∉ holdings Frame.taken new ++ holdings Event.taken extra := by
      intro hmem
      rcases hnew t hmem with hf | ⟨s, hs⟩
      · exact (P.free t ht).1 (mem_holdings_cons.mpr (.inl hf))
      · rw [P.pointer s t hs] at ht
        cases ht
    rw [mem_append, not_or] at howned
    obtain ⟨hframes, hevents⟩ := howned
    have hnot : ∀ e : Event, t ∈ e.taken → e ∉ extra :=
      fun e he hmem => hevents (mem_flatMap.mpr ⟨e, hmem, he⟩)
    obtain ⟨h₁, h₂, h₃⟩ := P.free t ht
    refine ⟨?_, ?_, ?_⟩
    · rw [holdings, flatMap_append, mem_append]
      rintro (hmem | hmem)
      · exact hframes hmem
      · exact h₁ (mem_holdings_cons.mpr (.inr hmem))
    · rwa [R.mem (hnot _ mem_cons_self)]
    · rwa [R.mem (hnot _ mem_cons_self)]

theorem Places.keep (P : Places h (f :: F)) (R : Records h h' extra)
    (hperm : holdings Frame.taken new ++ holdings Event.taken extra = f.taken)
    (htasks : ∀ i, (h'.series i).tasks = (h.series i).tasks)
    (hextra : ∀ i, .start i ∉ extra ∧ .dismiss i ∉ extra) : Places h' (new ++ F) := by
  have hwait := R.waiting htasks hextra
  refine P.step R ?_ ?_ ?_
  · intro s t ht
    rwa [hwait s] at ht
  · intro t ht
    rw [hperm] at ht
    exact .inl ht
  · intro s t _
    rw [hwait s, hperm]

structure Leaves (h h' : Heap) (s : SeriesId) (t : Task) : Prop where
  other : ∀ i, i ≠ s → h'.waiting i = h.waiting i
  count : ∀ u, (h.waiting s).count u = (h'.waiting s).count u + [t].count u

theorem Places.leave (P : Places h (f :: F)) (R : Records h h' extra) (L : Leaves h h' s t)
    (hf : f.taken = []) (hnew : holdings Frame.taken new ++ holdings Event.taken extra = [t]) :
    Places h' (new ++ F) := by
  obtain ⟨hother, hcount⟩ := L
  have hmem : t ∈ h.waiting s := by
    have hpos := hcount t
    rw [count_singleton_self] at hpos
    exact count_pos_iff.mp (by omega)
  refine P.step R ?_ ?_ ?_
  · intro i u hu
    by_cases hi : i = s
    · subst hi
      have hpos := count_pos_iff.mpr hu
      have heq := hcount u
      exact count_pos_iff.mp (by omega)
    · rwa [hother i hi] at hu
  · intro u hu
    rw [hnew, mem_singleton] at hu
    exact .inr ⟨s, hu ▸ hmem⟩
  · intro i u hi
    rw [hnew, hf, count_nil]
    by_cases his : i = s
    · subst his
      have heq := hcount u
      omega
    · have hne : u ≠ t := by
        rintro rfl
        rw [P.pointer s u hmem] at hi
        exact his (Option.some.inj hi).symm
      rw [hother i his, count_singleton, beq_false_of_ne hne.symm]
      rfl

theorem Takes.leaves {x : Series} (ht : Takes h s t x) (R : Records h h' extra)
    (hseries : h'.series = update h.series s x)
    (hextra : ∀ i, .start i ∉ extra ∧ .dismiss i ∉ extra) : Leaves h h' s t := by
  have hstart : ∀ i, .start i ∈ h'.log ↔ .start i ∈ h.log := fun i => R.mem (hextra i).1
  have hdismiss : ∀ i, .dismiss i ∈ h'.log ↔ .dismiss i ∈ h.log := fun i => R.mem (hextra i).2
  constructor
  · intro i hi
    have hsame : h'.series i = h.series i := by rw [hseries, update_of_ne hi]
    exact waiting_eq R.created (hstart i) (hdismiss i) (by rw [hsame])
  · intro u
    have hcount := ht.count u
    have hsame : h'.series s = x := by rw [hseries, update_self]
    simp only [Heap.waiting, R.created, hstart, hdismiss, hsame, ht.first]
    rw [count_append, hcount, ← Nat.add_assoc, ← count_append]

theorem leaves_first (hs : s < h.created) (hstart : .start s ∉ h.log)
    (hdismiss : .dismiss s ∉ h.log) {e : Event} (he : e = .start s ∨ e = .dismiss s)
    (R : Records h h' [e]) (htasks : ∀ i, (h'.series i).tasks = (h.series i).tasks) :
    Leaves h h' s (h.series s).first := by
  constructor
  · intro i hi
    refine waiting_eq R.created ?_ ?_ (htasks i)
    · rcases he with rfl | rfl <;> simp [R.log, hi]
    · rcases he with rfl | rfl <;> simp [R.log, hi]
  · intro u
    have hclosed : ¬(s < h'.created ∧ .start s ∉ h'.log ∧ .dismiss s ∉ h'.log) := by
      rcases he with rfl | rfl <;> simp [R.log]
    have hqueue : (h'.series s).queue = (h.series s).queue := congrArg (·.2.1) (htasks s)
    have hlast : (h'.series s).last = (h.series s).last := congrArg (·.2.2) (htasks s)
    rw [Heap.waiting, Heap.waiting, if_pos ⟨hs, hstart, hdismiss⟩, if_neg hclosed, hqueue, hlast,
      count_append, nil_append, Nat.add_comm]

theorem Inv.unused_of_left {p : ParallelId} {rest : List SeriesId}
    (inv : Inv h (.loop p (s :: rest) :: F)) :
    s < h.created ∧ .start s ∉ h.log ∧ .dismiss s ∉ h.log := by
  have hp := inv.forks.loop p (s :: rest) mem_cons_self s mem_cons_self
  have hleft := inv.forks.left s
  rw [count_holdings_cons, Frame.left, count_cons_self] at hleft
  split_ifs at hleft with hf
  · refine ⟨?_, hf.2, ?_⟩
    · by_contra hlt
      rw [(inv.births.unborn s (Nat.not_lt.mp hlt)).2.2.1] at hp
      cases hp
    · intro hd
      rw [(inv.drops.dismissed s hd).1] at hp
      cases hp
  · omega

theorem Inv.unused_of_dismiss (inv : Inv h (.dismiss s :: F)) :
    (∃ p, (h.series s).inParallel = some p ∧ .delete (.work p) ∈ h.log) ∧ s < h.created ∧
      .start s ∉ h.log ∧ .dismiss s ∉ h.log ∧ .dismiss s ∉ F := by
  have hcount := inv.drops.dismissing s
  rw [count_cons_self] at hcount
  split_ifs at hcount with hany
  · obtain ⟨p, hp, hdelete⟩ : ∃ p, (h.series s).inParallel = some p ∧
        .delete (.work p) ∈ h.log := by simpa [Option.any_eq_true] using hany
    refine ⟨⟨p, hp, hdelete⟩, ?_, ?_, ?_, ?_⟩
    · by_contra hlt
      rw [(inv.births.unborn s (Nat.not_lt.mp hlt)).2.2.1] at hp
      cases hp
    · intro hstart
      exact inv.places.not_deleted (inv.history.dispatch_of_start hstart hp) hdelete
    · intro hd
      rw [(inv.drops.dismissed s hd).1] at hp
      cases hp
    · intro hmem
      have := count_pos_iff.mpr hmem
      omega

theorem taken_taskLog : holdings Event.taken (h.taskLog t) = [] := by
  refine flatMap_eq_nil_iff.mpr ?_
  intro e he
  rcases mem_taskLog.mp he with rfl | ⟨p, rfl, rfl | ⟨s, -, rfl⟩⟩ <;> rfl

theorem series_apply {x : Series} (hseries : h'.series = update h.series s x) {α : Type}
    (field : Series → α) (hx : field x = field (h.series s)) :
    ∀ i, field (h'.series i) = field (h.series i) := by
  intro i
  rw [hseries, update_apply]
  split_ifs with hi
  · rw [hx, hi]
  · rfl

theorem Takes.parallel {x : Series} (ht : Takes h s t x)
    (hseries : h'.series = update h.series s x) :
    ∀ i, (h'.series i).inParallel = (h.series i).inParallel :=
  series_apply hseries Series.inParallel ht.inParallel

theorem Inv.loop_leaves {p : ParallelId} {rest : List SeriesId}
    (inv : Inv h (.loop p (s :: rest) :: F)) :
    Leaves h ((h.record (.start s)).setParent (h.series s).first (some p)) s
      (h.series s).first := by
  obtain ⟨hs, hstart, hdismiss⟩ := inv.unused_of_left
  exact leaves_first hs hstart hdismiss (.inl rfl) ⟨rfl, rfl, rfl⟩ fun _ => rfl

theorem Inv.dismiss_leaves (inv : Inv h (.dismiss s :: F)) :
    Leaves h ((h.record (.dismiss s)).setSeries s fun x => { x with inParallel := none }) s
      (h.series s).first := by
  obtain ⟨-, hs, hstart, hdismiss, -⟩ := inv.unused_of_dismiss
  exact leaves_first hs hstart hdismiss (.inr rfl) ⟨rfl, rfl, rfl⟩
    (series_apply rfl Series.tasks (by rfl))

theorem Places.exec (e : Exec h f new extra h') (inv : Inv h (f :: F)) : Places h' (new ++ F) := by
  have P := inv.places
  have R := e.records
  cases e with
  | sync | async | fork | forkNone | loopEnd | pop | join | joinNot | deleteLeaf =>
    exact P.keep R rfl (fun _ => rfl) (by simp)
  | loop => exact P.leave R inv.loop_leaves rfl rfl
  | done t | doneNone t => exact P.keep R taken_taskLog (by simp [taskDone_fields]) (by simp)
  | take s parent t x ht | drop s parent t x ht | dismissTake s t x ht =>
    exact P.leave R (ht.leaves R rfl (by simp)) rfl rfl
  | close | dismissEnd => exact P.keep R rfl (series_apply rfl Series.tasks (by rfl)) (by simp)
  | finish s parent | finishDelete s parent =>
    exact P.keep R (by cases parent <;> rfl) (fun _ => rfl) (by simp)
  | deleteWork =>
    exact P.keep R (by simp [holdings, Frame.taken, Event.taken]) (fun _ => rfl) (by simp)
  | dismiss => exact P.leave R inv.dismiss_leaves rfl rfl

/-! ## Series from their creation to their end -/

theorem Births.step (B : Births h (f :: F)) (R : Records h h' extra)
    (hborn : ∀ i, .start i ∈ extra ∨ .dismiss i ∈ extra → i < h.created)
    (hfinish : ∀ i, .finish i ∈ extra → (h.series i).finished = true)
    (hparallel : ∀ i, h.created ≤ i → (h.series i).inParallel = none →
      (h'.series i).inParallel = none)
    (hempty : ∀ i, (h.series i).queue = [] ∧ (h.series i).last = none →
      (h'.series i).queue = [] ∧ (h'.series i).last = none)
    (hfinished : ∀ i, (h'.series i).finished = true → (h.series i).finished = true ∨
      ((h.series i).queue = [] ∧ (h.series i).last = none) ∧
        (.dismiss i ∈ h.log ∨ ∃ parent, .callback i parent ∈ new))
    (hstill : ∀ i, (h.series i).finished = true → (h'.series i).finished = true)
    (hnew : ∀ i parent, .callback i parent ∈ new → (h'.series i).finished = true)
    (hcallback : ∀ i parent, f = .callback i parent → .finish i ∈ extra) :
    Births h' (new ++ F) where
  unborn := by
    intro i hi
    rw [R.created] at hi
    obtain ⟨hqueue, hlast, hp, hstart, hdismiss, hnone⟩ := B.unborn i hi
    obtain ⟨hqueue', hlast'⟩ := hempty i ⟨hqueue, hlast⟩
    refine ⟨hqueue', hlast', hparallel i hi hp, ?_, ?_, by rwa [R.pointer]⟩
    · rwa [R.mem (fun hmem => Nat.not_lt.mpr hi (hborn i (.inl hmem)))]
    · rwa [R.mem (fun hmem => Nat.not_lt.mpr hi (hborn i (.inr hmem)))]
  closed := by
    intro i hi
    rcases hfinished i hi with hi | ⟨hi, -⟩
    · exact hempty i (B.closed i hi)
    · exact hempty i hi
  ended := by
    intro i hi
    rw [R.log, mem_append] at hi
    rcases hi with hi | hi
    · exact hstill i (hfinish i hi)
    · exact hstill i (B.ended i hi)
  ending := by
    intro i parent hi
    rcases mem_append.mp hi with hi | hi
    · exact hnew i parent hi
    · exact hstill i (B.ending i parent (mem_cons_of_mem _ hi))
  why := by
    intro i hi
    rw [R.log]
    simp only [mem_append]
    rcases hfinished i hi with hi | ⟨-, hi | ⟨parent, hi⟩⟩
    · rcases B.why i hi with hi | hi | ⟨parent, hi⟩
      · exact .inl (.inr hi)
      · exact .inr (.inl (.inr hi))
      · rcases mem_cons.mp hi with heq | hi
        · exact .inl (.inl (hcallback i parent heq.symm))
        · exact .inr (.inr ⟨parent, .inr hi⟩)
    · exact .inr (.inl (.inr hi))
    · exact .inr (.inr ⟨parent, .inl hi⟩)

theorem Births.edit {x : Series} (B : Births h (f :: F)) (R : Records h h' extra)
    (hseries : h'.series = update h.series s x)
    (hfinished : x.finished = (h.series s).finished)
    (hparallel : h.created ≤ s → (h.series s).inParallel = none → x.inParallel = none)
    (hempty : (h.series s).queue = [] ∧ (h.series s).last = none → x.queue = [] ∧ x.last = none)
    (hquiet : (∀ i, .start i ∈ extra ∨ .dismiss i ∈ extra → i < h.created) ∧
      (∀ i, .finish i ∈ extra → (h.series i).finished = true) ∧
      (∀ i parent, .callback i parent ∉ new) ∧
      ∀ i parent, f = .callback i parent → .finish i ∈ extra) : Births h' (new ++ F) := by
  obtain ⟨hborn, hfinish, hnew, hcallback⟩ := hquiet
  have hsame := series_apply hseries Series.finished hfinished
  refine B.step R hborn hfinish ?_ ?_ ?_ ?_ ?_ hcallback
  · rw [hseries]
    intro i hi hnone
    rcases eq_or_ne i s with rfl | his
    · rw [update_self]
      exact hparallel hi hnone
    · rwa [update_of_ne his]
  · rw [hseries]
    intro i hi
    rcases eq_or_ne i s with rfl | his
    · rw [update_self]
      exact hempty hi
    · rwa [update_of_ne his]
  · exact fun i hi => .inl ((hsame i).symm.trans hi)
  · exact fun i hi => (hsame i).trans hi
  · exact fun i parent hi => absurd hi (hnew i parent)

theorem Births.keep (B : Births h (f :: F)) (R : Records h h' extra)
    (hseries : h'.series = h.series)
    (hquiet : (∀ i, .start i ∈ extra ∨ .dismiss i ∈ extra → i < h.created) ∧
      (∀ i, .finish i ∈ extra → (h.series i).finished = true) ∧
      (∀ i parent, .callback i parent ∉ new) ∧
      ∀ i parent, f = .callback i parent → .finish i ∈ extra) : Births h' (new ++ F) := by
  have hupdate : h'.series = update h.series 0 (h.series 0) := by
    rw [hseries, update_eq_self]
  exact B.edit R hupdate rfl (fun _ hi => hi) id hquiet

theorem Takes.not_empty {x : Series} (ht : Takes h s t x) :
    ¬((h.series s).queue = [] ∧ (h.series s).last = none) := by
  rintro ⟨hqueue, hlast⟩
  have hcount := ht.count t
  rw [hqueue, hlast, count_singleton_self] at hcount
  exact Nat.succ_ne_zero _ hcount.symm

theorem Births.takes {x : Series} (B : Births h (f :: F)) (R : Records h h' extra)
    (ht : Takes h s t x) (hseries : h'.series = update h.series s x)
    (hquiet : (∀ i, .start i ∈ extra ∨ .dismiss i ∈ extra → i < h.created) ∧
      (∀ i, .finish i ∈ extra → (h.series i).finished = true) ∧
      (∀ i parent, .callback i parent ∉ new) ∧
      ∀ i parent, f = .callback i parent → .finish i ∈ extra) : Births h' (new ++ F) :=
  B.edit R hseries ht.finished (fun _ hs => ht.inParallel.trans hs)
    (fun hs => absurd hs ht.not_empty) hquiet

theorem Births.finishes (B : Births h (f :: F)) (R : Records h h' extra)
    (hs : (h.series s).queue = [] ∧ (h.series s).last = none)
    (hwhy : .dismiss s ∈ h.log ∨ ∃ parent, .callback s parent ∈ new)
    (hseries : h'.series = update h.series s { h.series s with finished := true })
    (hquiet : (∀ i, .start i ∉ extra ∧ .dismiss i ∉ extra ∧ .finish i ∉ extra) ∧
      ∀ i parent, f ≠ .callback i parent ∧ (.callback i parent ∈ new → i = s)) :
    Births h' (new ++ F) := by
  have hfinished : ∀ i, (h'.series i).finished = if i = s then true else (h.series i).finished := by
    intro i
    rw [hseries, update_apply]
    split_ifs <;> rfl
  obtain ⟨hextra, hcallback⟩ := hquiet
  refine B.step R (by simp [hextra]) (by simp [hextra]) ?_ ?_ ?_ ?_ ?_ ?_
  · intro i _ hi
    rw [series_apply hseries Series.inParallel rfl]
    exact hi
  · intro i hi
    rw [series_apply hseries Series.queue rfl, series_apply hseries Series.last rfl]
    exact hi
  · intro i hi
    rw [hfinished] at hi
    split_ifs at hi with his
    · rw [his]
      exact .inr ⟨hs, hwhy⟩
    · exact .inl hi
  · intro i hi
    rw [hfinished, hi, ite_self]
  · intro i parent hi
    rw [hfinished, if_pos ((hcallback i parent).2 hi)]
  · intro i parent hi
    exact absurd hi (hcallback i parent).1

theorem Births.exec (e : Exec h f new extra h') (inv : Inv h (f :: F)) : Births h' (new ++ F) := by
  have B := inv.births
  have R := e.records
  cases e with
  | sync | async | fork | forkNone | loopEnd | pop | join | joinNot | deleteLeaf | deleteWork =>
    exact B.keep R rfl (by simp)
  | loop => exact B.keep R rfl (by simpa using inv.unused_of_left.1)
  | done t | doneNone t => exact B.keep R (taskDone_fields h t).1 (by simp)
  | take s parent t x ht | drop s parent t x ht | dismissTake s t x ht =>
    exact B.takes R ht rfl (by simp)
  | close s parent canceled hqueue hlast =>
    exact B.finishes R ⟨hqueue, hlast⟩ (.inr ⟨parent, mem_cons_self⟩) rfl (by simp)
  | finish s parent | finishDelete s parent =>
    exact B.keep R rfl (by simpa using B.ending s parent mem_cons_self)
  | dismiss =>
    exact B.edit R rfl rfl (fun _ _ => rfl) id (by simpa using inv.unused_of_dismiss.2.1)
  | dismissEnd s hqueue hlast =>
    have hs := inv.drops.dismissLoop s mem_cons_self
    exact B.finishes R ⟨hqueue, hlast⟩ (.inl hs) rfl (by simp)

/-! ## Tasks that are deleted -/

theorem Drops.step (D : Drops h (f :: F)) (R : Records h h' extra)
    (hcanceled : ∀ i, (h'.series i).canceled = (h.series i).canceled)
    (hdelete : ∀ i t, h.pointer t = some i → (.delete t ∈ new ∨ .delete t ∈ extra) →
      f = .delete t ∨ (h.series i).canceled = true ∨ .dismiss i ∈ extra ++ h.log)
    (hpop : ∀ i parent, .popTask i parent true ∈ new → (h.series i).canceled = true)
    (hloop : ∀ i, .dismissLoop i ∈ new → .dismiss i ∈ extra ++ h.log)
    (hdismissing : ∀ i, (new ++ F).count (.dismiss i) =
      if (h'.series i).inParallel.any (fun p => .delete (.work p) ∈ h'.log) then 1 else 0)
    (hdismissed : ∀ i, .dismiss i ∈ h'.log →
      (h'.series i).inParallel = none ∧ .start i ∉ h'.log) : Drops h' (new ++ F) where
  deleted := by
    intro i t hi ht
    rw [R.pointer] at hi
    have hold : (.delete t ∈ f :: F ∨ .delete t ∈ h.log) →
        (h.series i).canceled = true ∨ .dismiss i ∈ extra ++ h.log :=
      fun hmem => (D.deleted i t hi hmem).imp_right (mem_append_right _)
    rw [hcanceled, R.log]
    rw [R.log, mem_append, mem_append] at ht
    have hcases : (.delete t ∈ new ∨ .delete t ∈ extra) ∨ .delete t ∈ F ∨ .delete t ∈ h.log := by
      tauto
    rcases hcases with hnew | hF | hmem
    · rcases hdelete i t hi hnew with rfl | hor
      · exact hold (.inl mem_cons_self)
      · exact hor
    · exact hold (.inl (mem_cons_of_mem _ hF))
    · exact hold (.inr hmem)
  canceled := by
    intro i parent hi
    rw [hcanceled]
    rcases mem_append.mp hi with hi | hi
    · exact hpop i parent hi
    · exact D.canceled i parent (mem_cons_of_mem _ hi)
  dismissLoop := by
    intro i hi
    rw [R.log]
    rcases mem_append.mp hi with hi | hi
    · exact hloop i hi
    · exact mem_append_right _ (D.dismissLoop i (mem_cons_of_mem _ hi))
  dismissing := hdismissing
  dismissed := hdismissed

theorem Drops.keep (D : Drops h (f :: F)) (new : List Frame) (R : Records h h' extra)
    (hcanceled : ∀ i, (h'.series i).canceled = (h.series i).canceled)
    (hparallel : ∀ i, (h'.series i).inParallel = (h.series i).inParallel)
    (hdelete : ∀ i t, h.pointer t = some i → (.delete t ∈ new ∨ .delete t ∈ extra) →
      f = .delete t ∨ (h.series i).canceled = true ∨ .dismiss i ∈ h.log)
    (hpop : ∀ i parent, .popTask i parent true ∈ new → (h.series i).canceled = true)
    (hquiet : (∀ i, .dismissLoop i ∈ new → .dismiss i ∈ h.log) ∧
      (∀ i, .start i ∈ extra → .dismiss i ∉ h.log) ∧ (∀ p, .delete (.work p) ∉ extra) ∧
      ∀ i, .dismiss i ∉ extra ∧ f ≠ .dismiss i ∧ .dismiss i ∉ new) : Drops h' (new ++ F) := by
  obtain ⟨hloop, hstart, hwork, hdismiss⟩ := hquiet
  refine D.step R hcanceled ?_ hpop ?_ ?_ ?_
  · intro i t hi ht
    exact (hdelete i t hi ht).imp_right (Or.imp_right (mem_append_right _))
  · intro i hi
    exact mem_append_right _ (hloop i hi)
  · intro i
    have hold := D.dismissing i
    rw [count_cons_of_ne (hdismiss i).2.1] at hold
    rw [count_append, count_eq_zero.mpr (hdismiss i).2.2, Nat.zero_add, hold, hparallel]
    simp only [R.mem (hwork _)]
  · intro i hi
    rw [R.mem (hdismiss i).1] at hi
    obtain ⟨hnone, hnot⟩ := D.dismissed i hi
    refine ⟨(hparallel i).trans hnone, ?_⟩
    rw [R.log, mem_append, not_or]
    exact ⟨fun hmem => hstart i hmem hi, hnot⟩

theorem Takes.mem_waiting {x : Series} (ht : Takes h s t x) : t ∈ h.waiting s := by
  refine mem_append_right _ ?_
  have hcount := ht.count t
  rw [count_singleton_self] at hcount
  exact count_pos_iff.mp (by omega)

theorem Inv.takes_pointer (inv : Inv h F) {x : Series} (ht : Takes h s t x) :
    h.pointer t = some s :=
  inv.places.pointer s t ht.mem_waiting

theorem Inv.first_pointer (inv : Inv h F) (hs : s < h.created) (hstart : .start s ∉ h.log)
    (hdismiss : .dismiss s ∉ h.log) : h.pointer (h.series s).first = some s := by
  refine inv.places.pointer s _ (mem_append_left _ ?_)
  rw [if_pos ⟨hs, hstart, hdismiss⟩]
  exact mem_cons_self

theorem Inv.dismissing_after_delete {p : ParallelId} (inv : Inv h (f :: F))
    (hf : ∀ i, f ≠ .dismiss i) (hdispatch : .dispatch (.work p) ∉ h.log)
    (hdelete : .delete (.work p) ∉ h.log) (i : SeriesId) :
    ((h.allSeries p).map Frame.dismiss ++ F).count (.dismiss i) =
      if (h.series i).inParallel.any (fun q => .delete (.work q) ∈ Event.delete (.work p) :: h.log)
      then 1 else 0 := by
  have hmembers := inv.joins.members p (inv.history.not_done hdispatch) hdelete i
  have hold := inv.drops.dismissing i
  rw [count_cons_of_ne (hf i)] at hold
  rw [count_append, count_map_of_injective _ _ (fun _ _ => Frame.dismiss.inj), hold]
  by_cases hi : i ∈ h.allSeries p
  · rw [count_eq_one_of_mem (inv.joins.nodup p) hi, hmembers.mp hi]
    simp [hdelete]
  · rw [count_eq_zero.mpr hi, Nat.zero_add]
    have hne : ∀ q, (h.series i).inParallel = some q → q ≠ p := by
      rintro q hq rfl
      exact hi (hmembers.mpr hq)
    cases hq : (h.series i).inParallel with
    | none => rfl
    | some q => simp [hne q hq]

theorem Exec.canceled (e : Exec h f new extra h') (i : SeriesId) :
    (h'.series i).canceled = (h.series i).canceled := by
  cases e with
  | done t | doneNone t => rw [(taskDone_fields h t).1]
  | take s parent t x ht | drop s parent t x ht | dismissTake s t x ht =>
    exact series_apply rfl Series.canceled ht.canceled i
  | close | dismiss | dismissEnd => exact series_apply rfl Series.canceled (by rfl) i
  | _ => rfl

theorem Drops.exec (e : Exec h f new extra h') (inv : Inv h (f :: F)) : Drops h' (new ++ F) := by
  have D := inv.drops
  have R := e.records
  have keep := D.keep new R e.canceled
  cases e with
  | sync | async | fork | forkNone | loopEnd | join | joinNot | finish | finishDelete =>
    exact keep (fun _ => rfl) (by simp) (by simp) (by simp)
  | loop =>
    exact keep (fun _ => rfl) (by simp) (by simp) (by simpa using inv.unused_of_left.2.2)
  | done t | doneNone t => exact keep (by simp [taskDone_fields]) (by simp) (by simp) (by simp)
  | pop s parent =>
    refine keep (fun _ => rfl) (by simp) ?_ (by simp)
    intro i par hi
    have heq := mem_singleton.mp hi
    simp only [Frame.popTask.injEq] at heq
    rw [heq.1]
    exact heq.2.2.symm
  | take s parent t x ht => exact keep (ht.parallel rfl) (by simp) (by simp) (by simp)
  | drop s parent t x ht =>
    have hs := D.canceled s parent mem_cons_self
    refine keep (ht.parallel rfl) ?_ ?_ (by simp)
    · intro i u hi hu
      have heq : u = t := by simpa using hu
      rw [heq, inv.takes_pointer ht] at hi
      cases hi
      exact .inr (.inl hs)
    · intro i par hi
      have heq : i = s ∧ par = parent := by simpa using hi
      rw [heq.1]
      exact hs
  | close | dismissEnd =>
    exact keep (series_apply rfl Series.inParallel (by rfl)) (by simp) (by simp) (by simp)
  | deleteLeaf n =>
    refine keep (fun _ => rfl) ?_ (by simp) (by simp)
    intro i t _ ht
    exact .inl (by simpa [eq_comm] using ht)
  | deleteWork p =>
    obtain ⟨hdispatch, hdelete, -⟩ := inv.places.next (t := .work p) rfl
    refine D.step R (fun _ => rfl) ?_ (by simp) (by simp)
      (inv.dismissing_after_delete (by simp) hdispatch hdelete) ?_
    · intro i t _ ht
      exact .inl (by simpa [eq_comm] using ht)
    · intro i hi
      have hi' : .dismiss i ∈ h.log := by simpa [Heap.record] using hi
      simpa [Heap.record] using D.dismissed i hi'
  | dismiss s =>
    obtain ⟨-, hs, hstart, hdismiss, hF⟩ := inv.unused_of_dismiss
    have hparallel : ∀ i, (((h.record (.dismiss s)).setSeries s fun x =>
        { x with inParallel := none }).series i).inParallel =
          if i = s then none else (h.series i).inParallel := by
      intro i
      simp only [Heap.setSeries, Heap.record, update_apply]
      split_ifs <;> rfl
    refine D.step R (series_apply rfl Series.canceled (by rfl)) ?_ (by simp) (by simp) ?_ ?_
    · intro i t hi ht
      obtain rfl : t = (h.series s).first := by simpa using ht
      rw [inv.first_pointer hs hstart hdismiss] at hi
      cases hi
      exact .inr (.inr mem_cons_self)
    · intro i
      have hold := D.dismissing i
      have hnew : ([Frame.delete (h.series s).first, .dismissLoop s] ++ F).count (.dismiss i) =
          F.count (.dismiss i) := by simp
      rw [hnew, hparallel]
      split_ifs with his hany hany
      · cases hany
      · rw [his]
        exact count_eq_zero.mpr hF
      · rw [count_cons_of_ne (by simp [Ne.symm his])] at hold
        simpa [hold, Heap.record, Heap.setSeries] using hany
      · rw [count_cons_of_ne (by simp [Ne.symm his])] at hold
        simpa [hold, Heap.record, Heap.setSeries] using hany
    · intro i hi
      rw [hparallel]
      rcases mem_cons.mp hi with heq | hi
      · rw [if_pos (Event.dismiss.inj heq), Event.dismiss.inj heq]
        exact ⟨rfl, by simpa [Heap.record, Heap.setSeries] using hstart⟩
      · obtain ⟨hnone, hnot⟩ := D.dismissed i hi
        rw [hnone, ite_self]
        exact ⟨rfl, by simpa [Heap.record, Heap.setSeries] using hnot⟩
  | dismissTake s t x ht =>
    have hs := D.dismissLoop s mem_cons_self
    refine keep (ht.parallel rfl) ?_ (by simp) (by simpa using hs)
    intro i u hi hu
    have heq : u = t := by simpa using hu
    rw [heq, inv.takes_pointer ht] at hi
    cases hi
    exact .inr (.inr hs)

end MyWorkflow.Workflow
