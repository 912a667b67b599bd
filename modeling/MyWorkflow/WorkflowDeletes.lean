import MyWorkflow.WorkflowRuns

set_option autoImplicit false

namespace MyWorkflow.Workflow
open Function List Bags Runs

variable {h h' : Heap} {F F' new : List Frame} {f : Frame} {s : SeriesId} {t : Task}
  {p : ParallelId} {extra : List Event}

/-! ## Deletions of series -/

def Heap.dropped (h : Heap) (s : SeriesId) : Bool :=
  decide (.dismiss s ∈ h.log) ||
    match (h.series s).inParallel with
    | none => decide (.finish s ∈ h.log)
    | some p => decide (.done (.work p) ∈ h.log)

structure Deletes (h : Heap) (F : List Frame) : Prop where
  once : ∀ s, h.log.count (.deleteSeries s) + F.count (.dismissLoop s) = (h.dropped s).toNat
  finished : ∀ s, .deleteSeries s ∈ h.log → (h.series s).finished = true
  free : ∀ t, h.pointer t = none → h.log.count (.delete t) ≤ 1
  left : ∀ p, .delete (.work p) ∈ h.log → ∀ s ∈ h.allSeries p,
    .dismiss s ∈ h.log ∨ (h.series s).inParallel = some p
  emptied : ∀ p, .done (.work p) ∈ h.log → h.allSeries p = []

theorem dropped_eq_false : h.dropped s = false ↔ .dismiss s ∉ h.log ∧
    ((h.series s).inParallel = none → .finish s ∉ h.log) ∧
    ∀ p, (h.series s).inParallel = some p → .done (.work p) ∉ h.log := by
  cases hs : (h.series s).inParallel <;> simp [Heap.dropped, hs]

theorem dropped_congr (hparallel : (h'.series s).inParallel = (h.series s).inParallel)
    (hdismiss : .dismiss s ∈ h'.log ↔ .dismiss s ∈ h.log)
    (hfinish : (h.series s).inParallel = none → (.finish s ∈ h'.log ↔ .finish s ∈ h.log))
    (hdone : ∀ p, (h.series s).inParallel = some p →
      (.done (.work p) ∈ h'.log ↔ .done (.work p) ∈ h.log)) : h'.dropped s = h.dropped s := by
  rw [Heap.dropped, Heap.dropped, hparallel]
  cases hs : (h.series s).inParallel with
  | none => simp only [hdismiss, hfinish hs]
  | some p => simp only [hdismiss, hdone p hs]

theorem Deletes.not_deleted (D : Deletes h F) (hs : h.dropped s = false) :
    .deleteSeries s ∉ h.log ∧ .dismissLoop s ∉ F := by
  have honce := D.once s
  rw [hs, Bool.toNat_false] at honce
  obtain ⟨hlog, hF⟩ := Nat.add_eq_zero_iff.mp honce
  exact ⟨count_eq_zero.mp hlog, count_eq_zero.mp hF⟩

theorem Inv.dropped_of_unused (inv : Inv h F) (hstart : .start s ∉ h.log)
    (hdismiss : .dismiss s ∉ h.log)
    (hdone : ∀ p, (h.series s).inParallel = some p → .done (.work p) ∉ h.log) :
    h.dropped s = false :=
  dropped_eq_false.mpr
    ⟨hdismiss, fun _ hfinish => hstart (inv.history.start_of_finish hfinish), hdone⟩

theorem Inv.unused_not_dropped (inv : Inv h F) (hs : h.Unused s) : h.dropped s = false := by
  obtain ⟨-, hnone, hstart, hdismiss⟩ := hs
  refine inv.dropped_of_unused hstart hdismiss ?_
  intro p hp
  rw [hnone] at hp
  cases hp

theorem Inv.member_not_dropped (inv : Inv h F) (hdone : .done (.work p) ∉ h.log)
    (hs : (h.series s).inParallel = some p) : h.dropped s = false := by
  refine dropped_eq_false.mpr ⟨?_, ?_, ?_⟩
  · intro hdismiss
    rw [(inv.drops.dismissed s hdismiss).1] at hs
    cases hs
  · intro hnone
    rw [hs] at hnone
    cases hnone
  · intro q hq
    rw [hs] at hq
    cases hq
    exact hdone

theorem Inv.done_not_running (inv : Inv h F) (hdone : .done t ∈ h.log) : t ∉ h.running :=
  fun hrun => (inv.control.active t (.inl hrun)).2 hdone

theorem Inv.open_not_dropped (inv : Inv h F) (hstart : .start s ∈ h.log)
    (hfinish : .finish s ∉ h.log) : h.dropped s = false := by
  refine dropped_eq_false.mpr ⟨?_, fun _ => hfinish, ?_⟩
  · exact fun hdismiss => (inv.drops.dismissed s hdismiss).2 hstart
  · intro p hp hdone
    have hdispatch := inv.history.dispatch_of_done hdone
    exact hfinish (inv.joins.joined p hdispatch (inv.done_not_running hdone) s hp)

theorem Inv.done_not_deleted (inv : Inv h F) (hdelete : .delete t ∈ h.log) : .done t ∉ h.log :=
  fun hdone => inv.places.not_deleted (inv.history.dispatch_of_done hdone) hdelete

/-! ## A step of a thread -/

def Event.idle : Event → Bool
  | .start _ | .dispatch _ | .callback _ | .displace _ | .done (.leaf _) => true
  | _ => false

theorem count_log {e : Event} (hlog : h'.log = extra ++ h.log) (he : e ∉ extra) :
    h'.log.count e = h.log.count e := by
  rw [hlog, count_append, count_eq_zero.mpr he, Nat.zero_add]

theorem count_dismissLoop (hloop : ∀ i, f ≠ .dismissLoop i ∧ .dismissLoop i ∉ new) :
    ∀ i, (new ++ F).count (.dismissLoop i) = (f :: F).count (.dismissLoop i) := by
  intro i
  rw [count_append, count_eq_zero.mpr (hloop i).2, Nat.zero_add,
    count_cons_of_ne (hloop i).1]

theorem Deletes.move (D : Deletes h F) (extra : List Event)
    (hsame : h'.log = extra ++ h.log ∧ h'.allSeries = h.allSeries ∧
      ∀ u, h'.pointer u = none → h.pointer u = none)
    (honce : ∀ i, extra.count (.deleteSeries i) + F'.count (.dismissLoop i) +
      (h.dropped i).toNat = F.count (.dismissLoop i) + (h'.dropped i).toNat)
    (hfinished : ∀ i, .deleteSeries i ∈ extra ∨ .deleteSeries i ∈ h.log →
      (h'.series i).finished = true)
    (hparallel : ∀ i, .dismiss i ∈ extra ∨ (h'.series i).inParallel = (h.series i).inParallel)
    (hquiet : ∀ u q, .delete u ∉ extra ∧ .done (.work q) ∉ extra) : Deletes h' F' := by
  obtain ⟨hlog, hall, hpointer⟩ := hsame
  refine ⟨?_, ?_, ?_, ?_, ?_⟩
  · intro i
    have hold := D.once i
    have hnew := honce i
    rw [hlog, count_append]
    omega
  · intro i hi
    rw [hlog, mem_append] at hi
    exact hfinished i hi
  · intro u hu
    rw [count_log hlog (hquiet u 0).1]
    exact D.free u (hpointer u hu)
  · intro q hq i hi
    rw [hall] at hi
    rw [mem_log hlog (hquiet _ 0).1] at hq
    rw [hlog, mem_append]
    rcases hparallel i with hdismiss | hsame
    · exact .inl (.inl hdismiss)
    · rw [hsame]
      exact (D.left q hq i hi).imp_left .inr
  · intro q hq
    rw [mem_log hlog (hquiet (.work q) q).2] at hq
    rw [hall]
    exact D.emptied q hq

theorem Deletes.keep (D : Deletes h F) (extra : List Event)
    (hsame : h'.log = extra ++ h.log ∧ h'.allSeries = h.allSeries ∧
      ∀ u, h'.pointer u = none → h.pointer u = none)
    (hfinished : ∀ i, .deleteSeries i ∈ h.log → (h'.series i).finished = true)
    (hparallel : ∀ i, (h'.series i).inParallel = (h.series i).inParallel)
    (hF : ∀ i, F'.count (.dismissLoop i) = F.count (.dismissLoop i))
    (hextra : ∀ e ∈ extra, e.idle = true) : Deletes h' F' := by
  have hnot : ∀ e : Event, e.idle = false → e ∉ extra := by
    intro e he hin
    rw [hextra e hin] at he
    cases he
  refine D.move extra hsame ?_ ?_ (fun i => .inr (hparallel i)) (fun u q => ⟨hnot _ rfl, hnot _ rfl⟩)
  · intro i
    have hdropped : h'.dropped i = h.dropped i :=
      dropped_congr (hparallel i) (mem_log hsame.1 (hnot _ rfl))
        (fun _ => mem_log hsame.1 (hnot _ rfl)) (fun q _ => mem_log hsame.1 (hnot _ rfl))
    rw [hdropped, hF, count_eq_zero.mpr (hnot _ rfl), Nat.zero_add]
  · intro i hi
    exact hfinished i (hi.resolve_left (hnot _ rfl))

theorem Deletes.edit {x : Series} (D : Deletes h F) (extra : List Event)
    (hsame : h'.log = extra ++ h.log ∧ h'.allSeries = h.allSeries ∧
      ∀ u, h'.pointer u = none → h.pointer u = none)
    (hseries : h'.series = update h.series s x)
    (hfinished : .deleteSeries s ∈ h.log → x.finished = true)
    (hparallel : x.inParallel = (h.series s).inParallel)
    (hF : ∀ i, F'.count (.dismissLoop i) = F.count (.dismissLoop i))
    (hextra : ∀ e ∈ extra, e.idle = true) : Deletes h' F' := by
  refine D.keep extra hsame ?_ (series_apply hseries Series.inParallel hparallel) hF hextra
  intro i hdelete
  rw [hseries]
  rcases eq_or_ne i s with rfl | hi
  · rw [update_self]
    exact hfinished hdelete
  · rw [update_of_ne hi]
    exact D.finished i hdelete

theorem Deletes.idle (D : Deletes h (f :: F)) (R : Records h h' extra)
    (hall : h'.allSeries = h.allSeries) (hseries : h'.series = h.series)
    (hextra : ∀ e ∈ extra, e.idle = true)
    (hloop : ∀ i, f ≠ .dismissLoop i ∧ .dismissLoop i ∉ new) : Deletes h' (new ++ F) :=
  D.keep extra ⟨R.log, hall, by simp [R.pointer]⟩ (by simpa only [hseries] using D.finished)
    (by simp [hseries]) (count_dismissLoop hloop) hextra

theorem Deletes.workDone (D : Deletes h (.done (.work p) :: F))
    (inv : Inv h (.done (.work p) :: F))
    (R : Records h (h.taskDone (.work p)) (h.taskLog (.work p)))
    (hnew : ∀ i, .dismissLoop i ∉ new) : Deletes (h.taskDone (.work p)) (new ++ F) := by
  obtain ⟨hdispatch, hdone⟩ := inv.control.active (.work p) (.inr mem_cons_self)
  have hmembers := inv.joins.members p hdone (inv.places.not_deleted hdispatch)
  have hrunning : .work p ∉ h.running := by
    obtain ⟨i, hi, -⟩ := inv.history.start_of_dispatch hdispatch
    exact inv.control.not_running hi
  have hdelete : ∀ i, (h.taskDone (.work p)).log.count (.deleteSeries i) =
      (h.allSeries p).count i + h.log.count (.deleteSeries i) := by
    intro i
    have hmap := count_map_of_injective (h.allSeries p).reverse Event.deleteSeries
      (fun _ _ heq => Event.deleteSeries.inj heq) i
    rw [R.log, count_append, Heap.taskLog, count_cons_of_ne (by simp), count_append, hmap,
      count_reverse, count_cons_of_ne (by simp), count_nil, Nat.add_zero]
  refine ⟨?_, ?_, ?_, ?_, ?_⟩
  · intro i
    have honce := D.once i
    rw [hdelete, count_dismissLoop (f := .done (.work p)) (fun i => ⟨by simp, hnew i⟩)]
    by_cases hi : (h.series i).inParallel = some p
    · -- a member: it is deleted now and was not before
      rw [inv.member_not_dropped hdone hi, Bool.toNat_false] at honce
      have hafter : (h.taskDone (.work p)).dropped i = true := by
        have hparallel : ((h.taskDone (.work p)).series i).inParallel = some p := hi
        simp [Heap.dropped, hparallel, R.log]
      rw [hafter, count_eq_one_of_mem (inv.joins.nodup p) ((hmembers i).mpr hi),
        Bool.toNat_true]
      omega
    · have hafter : (h.taskDone (.work p)).dropped i = h.dropped i := by
        refine dropped_congr rfl (R.mem (by simp)) (fun _ => R.mem (by simp)) ?_
        intro q hq
        have hne : q ≠ p := by
          rintro rfl
          exact hi hq
        exact R.mem (by simp [hne])
      rw [hafter, count_eq_zero.mpr (fun hin => hi ((hmembers i).mp hin)), Nat.zero_add]
      exact honce
  · intro i hi
    rw [← count_pos_iff, hdelete] at hi
    by_cases hin : i ∈ h.allSeries p
    · exact inv.births.ended i (inv.joins.joined p hdispatch hrunning i ((hmembers i).mp hin))
    · rw [count_eq_zero.mpr hin, Nat.zero_add] at hi
      exact D.finished i (count_pos_iff.mp hi)
  · intro u hu
    rw [count_log R.log (by simp)]
    exact D.free u hu
  · intro q hq i hi
    rw [R.mem (by simp)] at hq ⊢
    have hne : q ≠ p := by
      rintro rfl
      exact inv.places.not_deleted hdispatch hq
    exact D.left q hq i (by simpa [Heap.taskDone, hne] using hi)
  · intro q hq
    by_cases hne : q = p
    · subst hne
      simp [Heap.taskDone]
    · rw [R.mem (by simp [hne])] at hq
      simpa [Heap.taskDone, hne] using D.emptied q hq

theorem Deletes.finish {parent : Option ParallelId} (D : Deletes h (.callback s parent :: F))
    (hs : (h.series s).inParallel ≠ none) :
    Deletes (h.record (.finish s)) (parent.toList.map .decrement ++ F) := by
  refine D.move [.finish s] ⟨rfl, rfl, fun _ => id⟩ ?_ (fun i hi => D.finished i (by simpa using hi))
    (fun _ => .inr rfl) (by simp)
  intro i
  have hsame : (h.record (.finish s)).dropped i = h.dropped i := by
    refine dropped_congr rfl (by simp) ?_ (by simp)
    intro hi
    have hne : i ≠ s := by
      rintro rfl
      exact hs hi
    simp [hne]
  rw [hsame, count_dismissLoop (f := .callback s parent) (by simp),
    count_eq_zero.mpr (by simp), Nat.zero_add]

theorem Deletes.finishDelete {parent : Option ParallelId} (D : Deletes h (.callback s parent :: F))
    (inv : Inv h (.callback s parent :: F)) (hs : (h.series s).inParallel = none) :
    Deletes ((h.record (.finish s)).record (.deleteSeries s))
      (parent.toList.map .decrement ++ F) := by
  obtain ⟨hstart, hfinish, -⟩ := inv.control.sole (s := s) rfl
  have hbefore := inv.open_not_dropped hstart hfinish
  refine D.move [.deleteSeries s, .finish s] ⟨rfl, rfl, fun _ => id⟩ ?_ ?_ (fun _ => .inr rfl)
    (by simp)
  · intro i
    rw [count_dismissLoop (f := .callback s parent) (by simp)]
    rcases eq_or_ne i s with rfl | hi
    · have hafter : ((h.record (.finish i)).record (.deleteSeries i)).dropped i = true := by
        simp [Heap.dropped, Heap.record, hs]
      simp [hbefore, hafter, Nat.add_comm]
    · have hsame : ((h.record (.finish s)).record (.deleteSeries s)).dropped i = h.dropped i :=
        dropped_congr rfl (by simp) (by simp [hi]) (by simp)
      simp [hsame, Ne.symm hi]
  · rintro i (hi | hi)
    · obtain rfl : i = s := by simpa using hi
      exact inv.births.ending i parent mem_cons_self
    · exact D.finished i hi

theorem Deletes.delete (D : Deletes h F)
    (hmembers : ∀ p, t = .work p → ∀ i ∈ h.allSeries p, (h.series i).inParallel = some p)
    (hfree : h.pointer t = none → .delete t ∉ h.log)
    (hF : ∀ i, F'.count (.dismissLoop i) = F.count (.dismissLoop i)) :
    Deletes (h.record (.delete t)) F' := by
  have R : Records h (h.record (.delete t)) [.delete t] := ⟨rfl, rfl, rfl⟩
  refine ⟨?_, ?_, ?_, ?_, ?_⟩
  · intro i
    have hdropped : (h.record (.delete t)).dropped i = h.dropped i :=
      dropped_congr rfl (by simp) (by simp) (by simp)
    rw [count_log R.log (by simp), hF, hdropped]
    exact D.once i
  · intro i hi
    exact D.finished i ((R.mem (by simp)).mp hi)
  · intro u hu
    by_cases hut : u = t
    · subst hut
      simp [count_eq_zero.mpr (hfree hu)]
    · rw [count_log R.log (by simp [hut])]
      exact D.free u hu
  · intro q hq i hi
    rcases mem_cons.mp hq with heq | hq
    · exact .inr (hmembers q (Event.delete.inj heq).symm i hi)
    · rcases D.left q hq i hi with hdismiss | hparallel
      · exact .inl (mem_cons_of_mem _ hdismiss)
      · exact .inr hparallel
  · intro q hq
    exact D.emptied q ((R.mem (by simp)).mp hq)

theorem Deletes.dismiss (D : Deletes h F) (R : Records h h' [.dismiss s])
    (hall : h'.allSeries = h.allSeries) (hbefore : h.dropped s = false)
    (hother : ∀ i, i ≠ s → (h'.series i).inParallel = (h.series i).inParallel)
    (hfinished : ∀ i, (h'.series i).finished = (h.series i).finished) :
    Deletes h' ([.delete t, .dismissLoop s] ++ F) := by
  refine D.move [.dismiss s] ⟨R.log, hall, by simp [R.pointer]⟩ ?_ ?_ ?_ (by simp)
  · intro i
    rcases eq_or_ne i s with rfl | hi
    · have hafter : h'.dropped i = true := by simp [Heap.dropped, R.log]
      simp [hbefore, hafter]
    · have hsame : h'.dropped i = h.dropped i :=
        dropped_congr (hother i hi) (R.mem (by simp [hi])) (fun _ => R.mem (by simp))
          (fun _ _ => R.mem (by simp))
      simp [hsame, Ne.symm hi]
  · intro i hi
    rw [hfinished]
    exact D.finished i (by simpa using hi)
  · intro i
    rcases eq_or_ne i s with rfl | hi
    · exact .inl mem_cons_self
    · exact .inr (hother i hi)

theorem Deletes.deleteSeries (D : Deletes h (.dismissLoop s :: F))
    (hfinished : (h.series s).finished = true) : Deletes (h.record (.deleteSeries s)) F := by
  refine D.move [.deleteSeries s] ⟨rfl, rfl, fun _ => id⟩ ?_ ?_ (fun _ => .inr rfl) (by simp)
  · intro i
    have hsame : (h.record (.deleteSeries s)).dropped i = h.dropped i :=
      dropped_congr rfl (by simp) (by simp) (by simp)
    rcases eq_or_ne i s with rfl | hi
    · simp [hsame, Nat.add_comm]
    · simp [hsame, Ne.symm hi]
  · rintro i (hi | hi)
    · obtain rfl : i = s := by simpa using hi
      exact hfinished
    · exact D.finished i hi

theorem Deletes.exec (e : Exec h f new extra h') (D : Deletes h (f :: F)) (inv : Inv h (f :: F)) :
    Deletes h' (new ++ F) := by
  have R := e.records
  cases e with
  | sync | async | fork | forkNone | loopEnd | pop | join | joinNot | loop =>
    exact D.idle R rfl rfl (by simp [Event.idle]) (by simp)
  | done t | doneNone t =>
    cases t with
    | leaf n => exact D.idle R rfl rfl (by simp [Event.idle]) (by simp)
    | work p => exact D.workDone inv R (by simp)
  | take i parent t x ht | drop i parent t x ht =>
    exact D.edit [] ⟨rfl, rfl, fun _ => id⟩ rfl (fun hi => ht.finished.trans (D.finished i hi))
      ht.inParallel (count_dismissLoop (by simp)) (by simp)
  | close i =>
    exact D.edit [] ⟨rfl, rfl, fun _ => id⟩ rfl (fun _ => by rfl) rfl (count_dismissLoop (by simp))
      (by simp)
  | finish i parent hi => exact D.finish hi
  | finishDelete i parent hi => exact D.finishDelete inv hi
  | deleteLeaf n =>
    obtain ⟨i, hi⟩ := inv.places.owned (t := .leaf n)
      (.inl (mem_holdings_cons.mpr (.inl mem_cons_self)))
    exact D.delete (by simp) (by simp [hi]) (count_dismissLoop (by simp))
  | deleteWork p =>
    obtain ⟨i, hi⟩ := inv.places.owned (t := .work p)
      (.inl (mem_holdings_cons.mpr (.inl mem_cons_self)))
    obtain ⟨hdispatch, hdelete, -⟩ := inv.places.next (t := .work p) rfl
    refine D.delete ?_ (by simp [hi]) (count_dismissLoop (by simp))
    rintro q heq j hj
    cases heq
    exact (inv.joins.members p (inv.history.not_done hdispatch) hdelete j).mp hj
  | dismiss i =>
    obtain ⟨⟨q, hq, hdelete⟩, -, hstart, hdismiss, -⟩ := inv.unused_of_dismiss
    have hbefore := inv.member_not_dropped (inv.done_not_deleted hdelete) hq
    have D' : Deletes h ([] ++ F) := D.idle (.refl h) rfl rfl (by simp) (by simp)
    refine D'.dismiss R rfl hbefore ?_ (series_apply rfl Series.finished (by rfl))
    intro j hj
    exact congrArg Series.inParallel (update_of_ne hj _ _)
  | dismissTake i t x ht =>
    refine D.edit [] ⟨rfl, rfl, fun _ => id⟩ rfl (fun hi => ht.finished.trans (D.finished i hi))
      ht.inParallel ?_ (by simp)
    intro j
    rw [cons_append, count_cons_of_ne (by simp), singleton_append]
  | dismissEnd i hqueue hlast =>
    have D' : Deletes (h.setSeries i fun x => { x with finished := true }) (.dismissLoop i :: F) :=
      D.edit [] ⟨rfl, rfl, fun _ => id⟩ rfl (fun _ => by rfl) rfl (fun _ => rfl) (by simp)
    exact D'.deleteSeries (by simp [Heap.setSeries])

/-! ## What users do -/

theorem pointer_of_update {i : SeriesId} (u : Task)
    (hu : update h.pointer t (some i) u = none) : h.pointer u = none := by
  by_cases hut : u = t
  · subst hut
    rw [update_self] at hu
    cases hu
  · rwa [update_of_ne hut] at hu

theorem Inv.unborn_not_dropped (inv : Inv h F) : h.dropped h.created = false := by
  obtain ⟨-, -, hnone, hstart, hdismiss, -⟩ := inv.births.unborn h.created le_rfl
  refine inv.dropped_of_unused hstart hdismiss ?_
  intro p hp
  rw [hnone] at hp
  cases hp

theorem Deletes.newSeries (D : Deletes h F) (inv : Inv h F) : Deletes (h.newSeries t) F := by
  obtain ⟨-, -, hnone, -⟩ := inv.births.unborn h.created le_rfl
  refine D.edit [] ⟨rfl, rfl, pointer_of_update⟩ rfl ?_ hnone.symm (fun _ => rfl) (by simp)
  exact fun hdelete => absurd hdelete (D.not_deleted inv.unborn_not_dropped).1

theorem displaceLast_log (h : Heap) (s : SeriesId) :
    (h.displaceLast s).log = ((h.series s).last.toList.map .displace) ++ h.log := by
  rw [Heap.displaceLast]
  cases hlast : (h.series s).last <;> rfl

theorem displaceLast_fields (h : Heap) (s : SeriesId) :
    (h.displaceLast s).pointer = h.pointer ∧ (h.displaceLast s).series = h.series ∧
      (h.displaceLast s).allSeries = h.allSeries := by
  rw [Heap.displaceLast]
  split <;> exact ⟨rfl, rfl, rfl⟩

theorem displace_idle (h : Heap) (s : SeriesId) :
    ∀ e ∈ (h.series s).last.toList.map Event.displace, e.idle = true := by
  intro e he
  obtain ⟨u, -, rfl⟩ := mem_map.mp he
  rfl

theorem Deletes.setLastTask (D : Deletes h F) : Deletes (h.setLastTask s t) F := by
  obtain ⟨hpointer, hseries, hall⟩ := displaceLast_fields h s
  refine D.edit (x := { h.series s with last := some t }) _ ⟨displaceLast_log h s, hall, ?_⟩ ?_
    (D.finished s) rfl (fun _ => rfl) (displace_idle h s)
  · intro u hu
    simp only [Heap.setLastTask, Heap.setPointer, Heap.setSeries, hpointer] at hu
    exact pointer_of_update u hu
  · simp only [Heap.setLastTask, Heap.setPointer, Heap.setSeries, hseries]

theorem Deletes.unsetLastTask (D : Deletes h F) (s : SeriesId) :
    Deletes (h.unsetLastTask s) F := by
  obtain ⟨hpointer, hseries, hall⟩ := displaceLast_fields h s
  refine D.edit (x := { h.series s with last := none }) _ ⟨displaceLast_log h s, hall, ?_⟩ ?_
    (D.finished s) rfl (fun _ => rfl) (displace_idle h s)
  · intro u hu
    simpa only [Heap.unsetLastTask, Heap.setSeries, hpointer] using hu
  · simp only [Heap.unsetLastTask, Heap.setSeries, hseries]

theorem Deletes.cancel (D : Deletes h F) (s : SeriesId) : Deletes (h.cancel s) F :=
  D.edit [] ⟨rfl, rfl, fun _ => id⟩ rfl (D.finished s) (by rfl) (fun _ => rfl) (by simp)

theorem Deletes.addSeries (D : Deletes h F) (inv : Inv h F) (hs : h.Unused s)
    (hdispatch : .dispatch (.work p) ∉ h.log) (hdelete : .delete (.work p) ∉ h.log) :
    Deletes (h.addSeries p s) F := by
  have hbefore := inv.unused_not_dropped hs
  obtain ⟨-, hnone, hstart, hdismiss⟩ := hs
  have hdone := inv.history.not_done hdispatch
  have hother : ∀ i, i ≠ s → (h.addSeries p s).series i = h.series i :=
    fun i hi => update_of_ne hi _ _
  have hself : (h.addSeries p s).series s = { h.series s with inParallel := some p } :=
    update_self _ _ _
  have hall : ∀ q, q ≠ p → (h.addSeries p s).allSeries q = h.allSeries q :=
    fun q hq => update_of_ne hq _ _
  refine ⟨?_, ?_, D.free, ?_, ?_⟩
  · intro i
    have honce := D.once i
    by_cases hi : i = s
    · subst hi
      have hafter : (h.addSeries p i).dropped i = false := by
        refine dropped_eq_false.mpr ⟨hdismiss, ?_, ?_⟩
        · rw [hself]
          exact fun hnot => absurd hnot (by simp)
        · rw [hself]
          rintro q hq
          cases hq
          exact hdone
      rw [hbefore] at honce
      rw [hafter]
      exact honce
    · have hafter : (h.addSeries p s).dropped i = h.dropped i :=
        dropped_congr (by rw [hother i hi]) .rfl (fun _ => .rfl) (fun _ _ => .rfl)
      rw [hafter]
      exact honce
  · intro i hi
    by_cases his : i = s
    · subst his
      rw [hself]
      exact D.finished i hi
    · rw [hother i his]
      exact D.finished i hi
  · intro q hq i hi
    have hne : q ≠ p := by
      rintro rfl
      exact hdelete hq
    rw [hall q hne] at hi
    rcases D.left q hq i hi with hd | hparallel
    · exact .inl hd
    · have his : i ≠ s := by
        rintro rfl
        rw [hnone] at hparallel
        cases hparallel
      rw [hother i his]
      exact .inr hparallel
  · intro q hq
    have hne : q ≠ p := by
      rintro rfl
      exact hdone hq
    rw [hall q hne]
    exact D.emptied q hq

theorem Deletes.step {s s' : State} {a : Action} (D : Deletes s.heap s.frames)
    (inv : Inv s.heap s.frames) (hstep : step s a = some s') : Deletes s'.heap s'.frames := by
  cases a with
  | newSeries first =>
    obtain ⟨hg, rfl⟩ := of_guard hstep
    exact D.newSeries inv
  | pushBack i t | pushFront i t =>
    obtain ⟨hg, rfl⟩ := of_guard hstep
    exact D.edit [] ⟨rfl, rfl, pointer_of_update⟩ rfl (D.finished i) (by rfl) (fun _ => rfl) (by simp)
  | setLastTask i t =>
    obtain ⟨hg, rfl⟩ := of_guard hstep
    exact D.setLastTask
  | unsetLastTask i =>
    obtain ⟨hg, rfl⟩ := of_guard hstep
    exact D.unsetLastTask i
  | addSeries p i =>
    obtain ⟨hg, rfl⟩ := of_guard hstep
    exact D.addSeries inv hg.1 hg.2.1 hg.2.2
  | cancel i =>
    obtain ⟨hg, rfl⟩ := of_guard hstep
    exact D.cancel i
  | start i =>
    obtain ⟨hg, rfl⟩ := of_guard hstep
    exact D.keep [.start i] ⟨rfl, rfl, fun _ => id⟩ D.finished (fun _ => rfl)
      (fun j => count_cons_of_ne (by simp)) (by simp [Event.idle])
  | dismiss i =>
    obtain ⟨hg, rfl⟩ := of_guard hstep
    exact D.dismiss ⟨rfl, rfl, rfl⟩ rfl (inv.unused_not_dropped hg) (fun _ _ => rfl) (fun _ => rfl)
  | dismissWork p =>
    obtain ⟨hg, rfl⟩ := of_guard hstep
    have hdone := inv.history.not_done (inv.places.free _ hg.1).2.1
    refine D.delete ?_ (fun _ => hg.2) ?_
    · rintro q heq j hj
      cases heq
      exact (inv.joins.members p hdone hg.2 j).mp hj
    · intro j
      change ((s.heap.allSeries p).map Frame.dismiss ++ s.frames).count (.dismissLoop j) = _
      rw [count_append, count_eq_zero.mpr (by simp), Nat.zero_add]
  | complete n =>
    obtain ⟨hg, rfl⟩ := of_guard hstep
    exact D.keep [] ⟨rfl, rfl, fun _ => id⟩ D.finished (fun _ => rfl)
      (fun j => count_cons_of_ne (by simp)) (by simp)
  | run thread sync =>
    obtain ⟨f, others, new, extra, hperm, heq, e⟩ := step_run hstep
    have D' : Deletes s.heap (f :: others) :=
      { D with once := fun i => hperm.count_eq (.dismissLoop i) ▸ D.once i }
    rw [heq]
    exact D'.exec e (inv.perm hperm.symm)

/-! ## Whole runs -/

/-- `cancel()` may come as long as the series exists, so also after it has found its buffer
    empty. -/
inductive LifeAction where
  | act (a : Action)
  | cancelLate (s : SeriesId)
deriving DecidableEq, Repr

def lifeStep (s : State) : LifeAction → Option State
  | .act a => step s a
  | .cancelLate i =>
    if i < s.heap.created ∧ .deleteSeries i ∉ s.heap.log then
      some { s with heap := s.heap.cancel i }
    else none

def Frame.accesses (h : Heap) : Frame → List SeriesId
  | .pop s _ | .popTask s _ _ | .callback s _ | .dismiss s | .dismissLoop s => [s]
  | .dispatch (.work p) | .done (.work p) | .delete (.work p) => h.allSeries p
  | .loop _ rest => rest
  | .dispatch (.leaf _) | .done (.leaf _) | .delete (.leaf _) | .decrement _ => []

def Action.accesses (h : Heap) : Action → List SeriesId
  | .pushBack s _ | .pushFront s _ | .setLastTask s _ | .unsetLastTask s | .addSeries _ s
  | .cancel s | .start s | .dismiss s => [s]
  | .dismissWork p => h.allSeries p
  | .run (f :: _) _ => f.accesses h
  | .newSeries _ => [h.created]
  | .complete _ | .run [] _ => []

def LifeAction.accesses (h : Heap) : LifeAction → List SeriesId
  | .act a => a.accesses h
  | .cancelLate s => [s]

def State.setSeries (i : SeriesId) (x : Series) (s : State) : State :=
  { s with heap := s.heap.setSeries i fun _ => x }

section Frame

variable {i : SeriesId} (x : Series)

theorem setSeries_series (hi : s ≠ i) : (h.setSeries i fun _ => x).series s = h.series s :=
  update_of_ne hi _ _

theorem setSeries_comm (hi : s ≠ i) (g : Series → Series) :
    (h.setSeries i fun _ => x).setSeries s g = (h.setSeries s g).setSeries i fun _ => x := by
  simp only [Heap.setSeries, update_of_ne hi, update_comm hi]

theorem popTask_setSeries (hi : s ≠ i) : (h.setSeries i fun _ => x).popTask s =
    ((h.popTask s).1, (h.popTask s).2.setSeries i fun _ => x) := by
  unfold Heap.popTask
  rw [setSeries_series x hi]
  cases (h.series s).queue with
  | cons t rest => simp only [setSeries_comm x hi]
  | nil => cases (h.series s).last <;> simp only [setSeries_comm x hi]

theorem displaceLast_setSeries (hi : s ≠ i) : (h.setSeries i fun _ => x).displaceLast s =
    (h.displaceLast s).setSeries i fun _ => x := by
  unfold Heap.displaceLast
  rw [setSeries_series x hi]
  cases (h.series s).last <;> rfl

/-- A frame neither changes nor depends on a series that it does not access. -/
theorem exec_setSeries (sync : Bool) (hi : i ∉ f.accesses h) :
    (h.setSeries i fun _ => x).exec sync f =
      Prod.map id (Heap.setSeries i fun _ => x) (h.exec sync f) := by
  cases f with
  | dispatch u =>
    cases u with
    | leaf n => cases sync <;> rfl
    | work q =>
      simp only [Heap.exec, apply_ite (Prod.map id (Heap.setSeries i fun _ => x))]
      rfl
  | loop q rest =>
    cases rest with
    | nil => rfl
    | cons j rest =>
      have hj := (ne_of_not_mem_cons hi).symm
      simp only [Heap.exec, setSeries_series x hj]
      rfl
  | done u =>
    have htask : (h.setSeries i fun _ => x).taskDone u =
        (h.taskDone u).setSeries i fun _ => x := by cases u <;> rfl
    have hpointer : (h.setSeries i fun _ => x).pointer u = h.pointer u := rfl
    simp only [Heap.exec, htask, hpointer]
    cases h.pointer u <;> rfl
  | pop j parent =>
    have hj := (ne_of_not_mem_cons hi).symm
    simp only [Heap.exec, setSeries_series x hj]
    rfl
  | popTask j parent canceled =>
    have hj := (ne_of_not_mem_cons hi).symm
    simp only [Heap.exec, popTask_setSeries x hj]
    rcases h.popTask j with ⟨_ | t, h'⟩
    · rfl
    · cases canceled <;> rfl
  | callback j parent =>
    have hj := (ne_of_not_mem_cons hi).symm
    have hfinish : ((h.setSeries i fun _ => x).record (.finish j)).series j = h.series j :=
      setSeries_series x hj
    simp only [Heap.exec, hfinish, Prod.map_apply, apply_ite (Heap.setSeries i fun _ => x)]
    rfl
  | decrement q =>
    simp only [Heap.exec, apply_ite (Prod.map id (Heap.setSeries i fun _ => x))]
    rfl
  | delete u => cases u <;> rfl
  | dismiss j =>
    have hj := (ne_of_not_mem_cons hi).symm
    have hset := setSeries_comm (h := h.record (.dismiss j)) x hj
    simp only [Heap.exec, setSeries_series x hj]
    exact congrArg _ (hset _)
  | dismissLoop j =>
    have hj := (ne_of_not_mem_cons hi).symm
    simp only [Heap.exec, popTask_setSeries x hj]
    rcases h.popTask j with ⟨_ | t, h'⟩ <;> rfl

theorem step_setSeries {s s' : State} {a : Action} (hi : i ∉ a.accesses s.heap)
    (hstep : step s a = some s') : step (s.setSeries i x) a = some (s'.setSeries i x) := by
  have hopen : ∀ {j}, j ≠ i → s.heap.Open j → (s.setSeries i x).heap.Open j :=
    fun hj hopen => ⟨hopen.1, (congrArg Series.finished (setSeries_series x hj)).trans hopen.2⟩
  have hunused : ∀ {j}, j ≠ i → s.heap.Unused j → (s.setSeries i x).heap.Unused j :=
    fun hj hu => ⟨hu.1, (congrArg Series.inParallel (setSeries_series x hj)).trans hu.2.1, hu.2.2⟩
  cases a with
  | newSeries first =>
    obtain ⟨hg, rfl⟩ := of_guard hstep
    have hj := (ne_of_not_mem_cons hi).symm
    refine (if_pos hg).trans (congrArg some ?_)
    simp only [State.setSeries, Heap.setSeries, Heap.newSeries, Heap.setPointer,
      update_comm hj]
  | pushBack j t | pushFront j t =>
    obtain ⟨hg, rfl⟩ := of_guard hstep
    have hj := (ne_of_not_mem_cons hi).symm
    refine (if_pos ⟨hg.1, hopen hj hg.2⟩).trans (congrArg some ?_)
    exact congrArg (State.mk · _) (setSeries_comm (h := s.heap.setPointer t j) x hj _)
  | setLastTask j t =>
    obtain ⟨hg, rfl⟩ := of_guard hstep
    have hj := (ne_of_not_mem_cons hi).symm
    refine (if_pos ⟨hg.1, hopen hj hg.2⟩).trans (congrArg some ?_)
    simp only [State.setSeries, Heap.setLastTask, displaceLast_setSeries x hj]
    exact congrArg (State.mk · _)
      (setSeries_comm (h := (s.heap.displaceLast j).setPointer t j) x hj _)
  | unsetLastTask j =>
    obtain ⟨hg, rfl⟩ := of_guard hstep
    have hj := (ne_of_not_mem_cons hi).symm
    refine (if_pos (hopen hj hg)).trans (congrArg some ?_)
    simp only [State.setSeries, Heap.unsetLastTask, displaceLast_setSeries x hj,
      setSeries_comm x hj]
  | addSeries q j =>
    obtain ⟨hg, rfl⟩ := of_guard hstep
    have hj := (ne_of_not_mem_cons hi).symm
    refine (if_pos ⟨hunused hj hg.1, hg.2⟩).trans (congrArg some ?_)
    have hset := setSeries_comm (h := s.heap) x hj fun y => { y with inParallel := some q }
    simp only [State.setSeries, Heap.addSeries, hset]
    rfl
  | cancel j =>
    obtain ⟨hg, rfl⟩ := of_guard hstep
    have hj := (ne_of_not_mem_cons hi).symm
    refine (if_pos (hopen hj hg)).trans (congrArg some ?_)
    exact congrArg (State.mk · _) (setSeries_comm x hj _)
  | start j | dismiss j =>
    obtain ⟨hg, rfl⟩ := of_guard hstep
    have hj := (ne_of_not_mem_cons hi).symm
    refine (if_pos (hunused hj hg)).trans (congrArg some ?_)
    simp only [State.setSeries, setSeries_series x hj]
    rfl
  | dismissWork | complete =>
    obtain ⟨hg, rfl⟩ := of_guard hstep
    exact if_pos hg
  | run thread sync =>
    cases thread with
    | nil => cases hstep
    | cons f rest =>
      obtain ⟨hg, rfl⟩ := of_guard hstep
      refine (if_pos hg).trans (congrArg some ?_)
      simp only [State.setSeries, exec_setSeries x sync hi]
      rfl

end Frame

theorem life_inv {s : State} (hs : Reachable lifeStep State.init s) :
    Inv s.heap s.frames ∧ Deletes s.heap s.frames := by
  have hinit : Deletes State.init.heap State.init.frames := by
    refine ⟨?_, ?_, ?_, ?_, ?_⟩
    all_goals simp [State.init, State.frames, Heap.init, Heap.dropped, Series.ofFirst]
  refine hs.invariant (P := fun s => Inv s.heap s.frames ∧ Deletes s.heap s.frames)
    ⟨inv_init, hinit⟩ ?_
  rintro s a s' ⟨inv, D⟩ - hstep
  cases a with
  | act a => exact ⟨step_inv inv hstep, D.step inv hstep⟩
  | cancelLate i =>
    obtain ⟨hg, rfl⟩ := of_guard hstep
    exact ⟨inv.cancel i, D.cancel i⟩

theorem Inv.accesses_not_dropped (inv : Inv h (f :: F)) (hf : ∀ i, f ≠ .dismissLoop i)
    (hs : s ∈ f.accesses h) : h.dropped s = false := by
  have hheld : ∀ i, f.held h.pointer = [some i] → h.dropped i = false := by
    intro i hi
    obtain ⟨hstart, hfinish, -⟩ := inv.control.sole hi
    exact inv.open_not_dropped hstart hfinish
  have hwork : ∀ q, .done (.work q) ∉ h.log → .delete (.work q) ∉ h.log → s ∈ h.allSeries q →
      h.dropped s = false :=
    fun q hdone hdelete hq =>
      inv.member_not_dropped hdone ((inv.joins.members q hdone hdelete s).mp hq)
  have htaken : ∀ q, f.taken = [.work q] → s ∈ h.allSeries q → h.dropped s = false := by
    intro q hq hin
    obtain ⟨hdispatch, hdelete, -⟩ := inv.places.next hq
    exact hwork q (inv.history.not_done hdispatch) hdelete hin
  cases f with
  | dispatch u =>
    cases u with
    | leaf n => cases hs
    | work q => exact htaken q rfl hs
  | loop q rest =>
    have hq := inv.forks.loop q rest mem_cons_self s hs
    have hleft := inv.forks.left s
    have hpos : 0 < (holdings Frame.left (.loop q rest :: F)).count s :=
      count_pos_iff.mpr (mem_holdings_cons.mpr (.inl hs))
    split_ifs at hleft with hstart
    · refine inv.member_not_dropped ?_ hq
      intro hdone
      have hdispatch := inv.history.dispatch_of_done hdone
      have hfinish := inv.joins.joined q hdispatch (inv.done_not_running hdone) s hq
      exact hstart.2 (inv.history.start_of_finish hfinish)
    · omega
  | done u =>
    cases u with
    | leaf n => cases hs
    | work q =>
      obtain ⟨hdispatch, hdone⟩ := inv.control.active (.work q) (.inr mem_cons_self)
      exact hwork q hdone (inv.places.not_deleted hdispatch) hs
  | pop | popTask | callback =>
    obtain rfl := mem_singleton.mp hs
    exact hheld s rfl
  | decrement q => cases hs
  | delete u =>
    cases u with
    | leaf n => cases hs
    | work q => exact htaken q rfl hs
  | dismiss i =>
    obtain rfl := mem_singleton.mp hs
    obtain ⟨⟨q, hq, hdelete⟩, -⟩ := inv.unused_of_dismiss
    exact inv.member_not_dropped (inv.done_not_deleted hdelete) hq
  | dismissLoop i => exact absurd rfl (hf i)

theorem Deletes.exists_of_open (D : Deletes h F) (hs : (h.series s).finished = false) :
    .deleteSeries s ∉ h.log := by
  intro hdelete
  rw [D.finished s hdelete] at hs
  cases hs

theorem step_accesses {s s' : State} {a : Action} (inv : Inv s.heap s.frames)
    (D : Deletes s.heap s.frames) (hstep : step s a = some s') {i : SeriesId}
    (hi : i ∈ a.accesses s.heap) : .deleteSeries i ∉ s.heap.log := by
  cases a with
  | newSeries first =>
    obtain rfl := mem_singleton.mp hi
    exact (D.not_deleted inv.unborn_not_dropped).1
  | pushBack j t | pushFront j t | setLastTask j t =>
    obtain rfl := mem_singleton.mp hi
    exact D.exists_of_open (of_guard hstep).1.2.2
  | unsetLastTask j | cancel j =>
    obtain rfl := mem_singleton.mp hi
    exact D.exists_of_open (of_guard hstep).1.2
  | addSeries q j =>
    obtain rfl := mem_singleton.mp hi
    exact (D.not_deleted (inv.unused_not_dropped (of_guard hstep).1.1)).1
  | start j | dismiss j =>
    obtain rfl := mem_singleton.mp hi
    exact (D.not_deleted (inv.unused_not_dropped (of_guard hstep).1)).1
  | dismissWork q =>
    have hg := (of_guard hstep).1
    have hdone := inv.history.not_done (inv.places.free _ hg.1).2.1
    exact (D.not_deleted (inv.member_not_dropped hdone
      ((inv.joins.members q hdone hg.2 i).mp hi))).1
  | complete n => cases hi
  | run thread sync =>
    cases thread with
    | nil => cases hi
    | cons f rest =>
      obtain ⟨others, hperm, -⟩ := frames_replace (of_guard hstep).1 []
      by_cases hf : ∃ j, f = .dismissLoop j
      · -- the loop itself is what deletes the series
        obtain ⟨j, rfl⟩ := hf
        obtain rfl := mem_singleton.mp hi
        have honce := D.once i
        have hpos : 0 < s.frames.count (.dismissLoop i) :=
          count_pos_iff.mpr (hperm.mem_iff.mpr mem_cons_self)
        have hle := Bool.toNat_le (s.heap.dropped i)
        exact count_eq_zero.mp (by omega)
      · have hkept := (inv.perm hperm.symm).accesses_not_dropped (fun j hj => hf ⟨j, hj⟩) hi
        exact (D.not_deleted hkept).1

def Heap.Member (h : Heap) (p : ParallelId) (s : SeriesId) : Prop :=
  s ∈ h.allSeries p ∨ (h.series s).inParallel = some p

/-- The series of the workflows that were started or dismissed. A task that was displaced from
    `last` belongs to its workflow no more. -/
inductive Heap.Given (h : Heap) : SeriesId → Prop
  | start (s : SeriesId) (hs : .start s ∈ h.log) : Given h s
  | dismiss (s : SeriesId) (hs : .dismiss s ∈ h.log) : Given h s
  | work (p : ParallelId) (s : SeriesId) (hp : .delete (.work p) ∈ h.log) (hs : h.Member p s) :
      Given h s
  | nested (p : ParallelId) (s i : SeriesId) (hs : Given h s) (hp : h.pointer (.work p) = some s)
      (hdisplace : .displace (.work p) ∉ h.log) (hi : h.Member p i) : Given h i

def Heap.Begun (h : Heap) (s : SeriesId) : Prop := .start s ∈ h.log ∨ .dismiss s ∈ h.log

theorem State.Quiet.series_deleted {s : State} (hs : s.Quiet) (inv : Inv s.heap s.frames)
    (D : Deletes s.heap s.frames) {i : SeriesId} (hi : s.heap.Begun i) :
    s.heap.log.count (.deleteSeries i) = 1 := by
  have hdropped : s.heap.dropped i = true := by
    by_contra hnot
    obtain ⟨hdismiss, hfinish, hdone⟩ := dropped_eq_false.mp (Bool.eq_false_iff.mpr hnot)
    have hstart : .start i ∈ s.heap.log := hi.resolve_right hdismiss
    cases hparallel : (s.heap.series i).inParallel with
    | none => exact hfinish hparallel (hs.finished inv hstart)
    | some p =>
      exact hdone p hparallel (hs.done inv (inv.history.dispatch_of_start hstart hparallel))
  have honce := D.once i
  rwa [hdropped, hs.frames, count_nil, Nat.add_zero, Bool.toNat_true] at honce

theorem State.Quiet.task_taken {s : State} (hs : s.Quiet) (inv : Inv s.heap s.frames)
    (D : Deletes s.heap s.frames) {i : SeriesId} (hi : s.heap.Begun i)
    (ht : s.heap.pointer t = some i) (hdisplace : .displace t ∉ s.heap.log) :
    s.heap.log.count (.dispatch t) + s.heap.log.count (.delete t) = 1 := by
  have hdelete := count_pos_iff.mp (Nat.lt_of_lt_of_eq Nat.one_pos
    (hs.series_deleted inv D hi).symm)
  obtain ⟨hqueue, hlast⟩ := inv.births.closed i (D.finished i hdelete)
  have hwaiting : s.heap.waiting i = [] := by
    rcases hi with hstart | hdismiss
    · simp [Heap.waiting, hstart, hqueue, hlast]
    · simp [Heap.waiting, hdismiss, hqueue, hlast]
  have hone := inv.places.once i t ht
  rw [hwaiting, hs.frames, Heap.taken, count_append, count_taken,
    count_eq_zero.mpr hdisplace, count_nil] at hone
  rw [holdings, flatMap_nil, count_nil] at hone
  omega

theorem State.Quiet.member_dismissed {s : State} (hs : s.Quiet) (inv : Inv s.heap s.frames)
    (D : Deletes s.heap s.frames) (hp : .delete (.work p) ∈ s.heap.log) {i : SeriesId}
    (hi : s.heap.Member p i) : .dismiss i ∈ s.heap.log := by
  have hnot : (s.heap.series i).inParallel ≠ some p := by
    intro hparallel
    have hcount := inv.drops.dismissing i
    rw [if_pos (by simp [hparallel, hp]), hs.frames] at hcount
    cases hcount
  exact (D.left p hp i (hi.resolve_right hnot)).resolve_right hnot

theorem State.Quiet.begun {s : State} (hs : s.Quiet) (inv : Inv s.heap s.frames)
    (D : Deletes s.heap s.frames) {i : SeriesId} (hi : s.heap.Given i) : s.heap.Begun i := by
  induction hi with
  | start i hi => exact .inl hi
  | dismiss i hi => exact .inr hi
  | work p i hp hi => exact .inr (hs.member_dismissed inv D hp hi)
  | nested p j i hj hp hdisplace hi ih =>
    have htaken := hs.task_taken inv D ih hp hdisplace
    by_cases hdispatch : .dispatch (.work p) ∈ s.heap.log
    · have hempty := D.emptied p (hs.done inv hdispatch)
      have hparallel : (s.heap.series i).inParallel = some p := by
        refine hi.resolve_left ?_
        rw [hempty]
        exact not_mem_nil
      exact .inl (hs.members_started inv hdispatch hparallel)
    · rw [count_eq_zero.mpr hdispatch, Nat.zero_add] at htaken
      have hdelete := count_pos_iff.mp (Nat.lt_of_lt_of_eq Nat.one_pos htaken.symm)
      exact .inr (hs.member_dismissed inv D hdelete hi)

theorem Exec.displace (e : Exec h f new extra h') (ht : .displace t ∈ h'.log) :
    .displace t ∈ h.log := by
  have R := e.records
  refine (R.mem ?_).mp ht
  cases e <;> simp

theorem mem_displaceLast {i : SeriesId} (ht : .displace t ∈ (h.displaceLast i).log) :
    (h.series i).last = some t ∨ .displace t ∈ h.log := by
  rw [displaceLast_log, mem_append] at ht
  exact ht.imp_left fun hlast => by simpa using hlast

theorem step_displace {s s' : State} {a : Action} (hstep : step s a = some s')
    (ht : .displace t ∈ s'.heap.log) : .displace t ∈ s.heap.log ∨
      ∃ i, (s.heap.series i).last = some t ∧
        (a = .unsetLastTask i ∨ ∃ u, a = .setLastTask i u) := by
  cases a with
  | setLastTask i u =>
    obtain ⟨hg, rfl⟩ := of_guard hstep
    rcases mem_displaceLast ht with hlast | hlog
    · exact .inr ⟨i, hlast, .inr ⟨u, rfl⟩⟩
    · exact .inl hlog
  | unsetLastTask i =>
    obtain ⟨hg, rfl⟩ := of_guard hstep
    rcases mem_displaceLast ht with hlast | hlog
    · exact .inr ⟨i, hlast, .inl rfl⟩
    · exact .inl hlog
  | run thread sync =>
    obtain ⟨f, others, new, extra, -, -, e⟩ := step_run hstep
    exact .inl (e.displace ht)
  | start i | dismiss i | dismissWork q =>
    obtain ⟨hg, rfl⟩ := of_guard hstep
    exact .inl (mem_of_ne_of_mem (by simp) ht)
  | newSeries | pushBack | pushFront | addSeries | cancel | complete =>
    obtain ⟨hg, rfl⟩ := of_guard hstep
    exact .inl ht

def cancelRun : List Action :=
  [.newSeries (.leaf 0), .pushBack 0 (.work 0), .newSeries (.leaf 1), .addSeries 0 1,
    .pushBack 0 (.leaf 2), .cancel 0, .start 0, .run [.dispatch (.leaf 0)] true,
    .run [.done (.leaf 0)] true, .run [.pop 0 none] true, .run [.popTask 0 none true] true,
    .run [.delete (.work 0), .popTask 0 none true] true,
    .run [.dismiss 1, .popTask 0 none true] true,
    .run [.delete (.leaf 1), .dismissLoop 1, .popTask 0 none true] true,
    .run [.dismissLoop 1, .popTask 0 none true] true, .run [.popTask 0 none true] true,
    .run [.delete (.leaf 2), .popTask 0 none true] true, .run [.popTask 0 none true] true,
    .run [.callback 0 none] true]

end MyWorkflow.Workflow
