import MyWorkflow.WorkflowControl

set_option autoImplicit false

namespace MyWorkflow.Workflow
open Function List Bags

variable {h h' : Heap} {F new : List Frame} {f : Frame} {s : SeriesId} {t : Task} {p : ParallelId}
  {extra : List Event}

/-! ## The order of events -/

theorem LegalLog.cons {l : List Event} {e : Event} (hist : LegalLog h l) (he : Legal h e l) :
    LegalLog h (e :: l) := by
  intro e' l' hl
  rcases suffix_cons_iff.mp hl with heq | hl
  · cases heq
    exact he
  · exact hist e' l' hl

theorem LegalLog.append_deletes {l : List Event} (hist : LegalLog h l) (series : List SeriesId) :
    LegalLog h (series.map .deleteSeries ++ l) := by
  induction series with
  | nil => exact hist
  | cons s series ih => exact ih.cons trivial

theorem LegalLog.mono {l : List Event} (hist : LegalLog h l)
    (hpointer : ∀ u, .dispatch u ∈ l → h'.pointer u = h.pointer u)
    (hparallel : ∀ i p, (h'.series i).inParallel = some p → .start i ∈ l ∨ .callback p ∈ l →
      (h.series i).inParallel = some p) : LegalLog h' l := by
  intro e l' hl
  have he := hist e l' hl
  have hmem : e ∈ l := hl.subset mem_cons_self
  have hsub : ∀ x ∈ l', x ∈ l := fun x hx => hl.subset (mem_cons_of_mem _ hx)
  have hall : ∀ s, (∀ u, h.pointer u = some s → .dispatch u ∈ l' → .done u ∈ l') →
      ∀ u, h'.pointer u = some s → .dispatch u ∈ l' → .done u ∈ l' := by
    intro s hs u hu hd
    rw [hpointer u (hsub _ hd)] at hu
    exact hs u hu hd
  cases e with
  | start s => exact ⟨he.1, fun p hp => he.2 p (hparallel s p hp (.inl hmem))⟩
  | callback p => exact ⟨he.1, he.2.1, fun i hi => he.2.2 i (hparallel i p hi (.inr hmem))⟩
  | dispatch t =>
    obtain ⟨hnot, s, hs, hstart, hdone⟩ := he
    exact ⟨hnot, s, (hpointer t hmem).trans hs, hstart, hall s hdone⟩
  | finish s => exact ⟨he.1, he.2.1, hall s he.2.2⟩
  | done t => exact he
  | delete t | displace t | dismiss s | deleteSeries s => trivial

theorem LegalLog.congr {l : List Event} (hist : LegalLog h l) (hpointer : h'.pointer = h.pointer)
    (hparallel : ∀ i, (h'.series i).inParallel = (h.series i).inParallel) : LegalLog h' l := by
  refine hist.mono (fun u _ => by rw [hpointer]) ?_
  intro i p hp _
  rwa [hparallel i] at hp

theorem Inv.legal_dispatch (inv : Inv h (.dispatch t :: F)) : Legal h (.dispatch t) h.log := by
  obtain ⟨s, hs⟩ := inv.places.owned (t := t) (.inl (mem_holdings_cons.mpr (.inl mem_cons_self)))
  have hheld : (Frame.dispatch t).held h.pointer = [some s] := congrArg (fun x => [x]) hs
  refine ⟨(inv.places.next rfl).1, s, hs, (inv.control.sole hheld).1, ?_⟩
  intro u hu hd
  exact inv.control.all_done hheld hu (by simp) hd

theorem Inv.legal_finish {parent : Option ParallelId} (inv : Inv h (.callback s parent :: F)) :
    Legal h (.finish s) h.log := by
  obtain ⟨hstart, hfinish, -⟩ := inv.control.sole (s := s) rfl
  refine ⟨hfinish, hstart, ?_⟩
  intro u hu hd
  exact inv.control.all_done (s := s) rfl hu (by simp) hd

theorem Inv.legal_start {rest : List SeriesId} (inv : Inv h (.loop p (s :: rest) :: F)) :
    Legal h (.start s) h.log := by
  refine ⟨inv.unused_of_left.2.1, ?_⟩
  intro q hq
  have hleft := inv.forks.left s
  rw [count_holdings_cons, Frame.left, count_cons_self] at hleft
  split_ifs at hleft with hf
  · simpa [Heap.forked, hq] using hf.1
  · omega

theorem Inv.legal_done (inv : Inv h (.done t :: F)) : LegalLog h (h.taskDone t).log := by
  obtain ⟨hdispatch, hdone⟩ := inv.control.active t (.inr mem_cons_self)
  cases t with
  | leaf n => exact inv.history.cons ⟨hdone, hdispatch, by simp⟩
  | work p =>
    obtain ⟨s, hs⟩ := inv.done_owned
    have hcallback : .callback p ∉ h.log := fun hmem => hdone (inv.joins.called p hmem)
    have hlegal : Legal h (.callback p) h.log :=
      ⟨hcallback, hdispatch, inv.joins.joined p hdispatch (inv.control.not_running hs)⟩
    refine ((inv.history.cons hlegal).append_deletes _).cons ⟨?_, ?_, ?_⟩
    · simpa using hdone
    · simpa using hdispatch
    · rintro q hq
      cases hq
      simp

theorem History.exec (e : Exec h f new extra h') (inv : Inv h (f :: F)) : History h' := by
  have hist := inv.history
  have R := e.records
  cases e with
  | sync | async | fork | forkNone => exact (hist.cons inv.legal_dispatch).congr rfl fun _ => rfl
  | loopEnd | pop | join | joinNot => exact LegalLog.congr hist rfl fun _ => rfl
  | loop => exact (hist.cons inv.legal_start).congr rfl fun _ => rfl
  | done | doneNone => exact inv.legal_done.congr R.pointer (by simp [taskDone_fields])
  | take s parent t x ht | drop s parent t x ht | dismissTake s t x ht =>
    exact LegalLog.congr hist rfl (ht.parallel rfl)
  | close => exact LegalLog.congr hist rfl (series_apply rfl Series.inParallel (by rfl))
  | finish => exact (hist.cons inv.legal_finish).congr rfl fun _ => rfl
  | finishDelete s =>
    exact ((hist.cons inv.legal_finish).cons (e := .deleteSeries s) trivial).congr rfl fun _ => rfl
  | deleteLeaf n => exact (hist.cons (e := .delete (.leaf n)) trivial).congr rfl fun _ => rfl
  | deleteWork p => exact (hist.cons (e := .delete (.work p)) trivial).congr rfl fun _ => rfl
  | dismiss s =>
    refine (hist.cons (e := .dismiss s) trivial).mono (fun _ _ => rfl) ?_
    intro i p hp _
    simp only [Heap.setSeries, Heap.record, update_apply] at hp
    split_ifs at hp
    exact hp
  | dismissEnd s =>
    exact (hist.cons (e := .deleteSeries s) trivial).congr rfl
      (series_apply rfl Series.inParallel (by rfl))

/-! ## Forks -/

theorem Forks.keep (K : Forks h (f :: F)) (R : Records h h' extra)
    (hparallel : ∀ i, (h'.series i).inParallel = (h.series i).inParallel)
    (hleft : holdings Frame.left new = f.left)
    (hquiet : (∀ i, .start i ∉ extra) ∧
      ∀ q, .dispatch (.work q) ∉ extra ∧ ∀ rest, .loop q rest ∉ new) : Forks h' (new ++ F) where
  left := by
    intro i
    have hcount := K.left i
    rw [count_holdings_cons] at hcount
    have hforked : h'.forked i = h.forked i := by
      simp only [Heap.forked, hparallel, R.log, mem_append, hquiet.2, false_or]
    rw [holdings, flatMap_append, count_append, ← holdings, ← holdings, hleft, hcount,
      hforked, R.log]
    simp only [mem_append, hquiet.1, false_or]
  loop := by
    intro q rest hq i hi
    rw [mem_append, or_iff_right ((hquiet.2 q).2 rest)] at hq
    rw [hparallel]
    exact K.loop q rest (mem_cons_of_mem _ hq) i hi

theorem Inv.before_fork (inv : Inv h (.dispatch (.work p) :: F)) :
    .dispatch (.work p) ∉ h.log ∧ (∀ i, i ∈ h.allSeries p ↔ (h.series i).inParallel = some p) ∧
      .work p ∉ h.running ∧ .decrement p ∉ F ∧
      ∀ i, (h.series i).inParallel = some p → .start i ∉ h.log ∧ .finish i ∉ h.log := by
  obtain ⟨hdispatch, hdelete, -⟩ := inv.places.next (t := .work p) rfl
  have hrun : .work p ∉ h.running := fun hmem => hdispatch (inv.control.active _ (.inl hmem)).1
  have hstart : ∀ i, (h.series i).inParallel = some p → .start i ∉ h.log :=
    fun i hi hmem => hdispatch (inv.history.dispatch_of_start hmem hi)
  refine ⟨hdispatch, ?_, hrun, ?_, ?_⟩
  · exact inv.joins.members p (inv.history.not_done hdispatch) hdelete
  · intro hmem
    exact hrun (inv.joins.decrement p (mem_cons_of_mem _ hmem))
  · intro i hi
    exact ⟨hstart i hi, fun hmem => hstart i hi (inv.history.start_of_finish hmem)⟩

theorem Forks.fork (inv : Inv h (.dispatch (.work p) :: F))
    (R : Records h h' [.dispatch (.work p)]) (hseries : h'.series = h.series)
    (hleft : holdings Frame.left new = h.allSeries p)
    (hloop : ∀ q rest, .loop q rest ∈ new → q = p ∧ rest = h.allSeries p) :
    Forks h' (new ++ F) := by
  have hlog : h'.log = .dispatch (.work p) :: h.log := R.log
  obtain ⟨hdispatch, hmembers, -, -, hfresh⟩ := inv.before_fork
  refine ⟨?_, ?_⟩
  · intro i
    have hold := inv.forks.left i
    have hnone : (Frame.dispatch (.work p)).left = [] := rfl
    rw [count_holdings_cons, hnone, count_nil, Nat.zero_add] at hold
    rw [holdings, flatMap_append, count_append, ← holdings, ← holdings, hleft, hold]
    by_cases hi : i ∈ h.allSeries p
    · have hp := (hmembers i).mp hi
      have hnot : h.forked i = false := by simp [Heap.forked, hp, hdispatch]
      have hforked : h'.forked i = true := by simp [Heap.forked, hseries, hlog, hp]
      rw [count_eq_one_of_mem (inv.joins.nodup p) hi, hforked, hnot, hlog]
      simp [(hfresh i hp).1]
    · have hsame : h'.forked i = h.forked i := by
        cases hq : (h.series i).inParallel with
        | none => simp [Heap.forked, hseries, hq]
        | some q =>
          have hqp : q ≠ p := by
            rintro rfl
            exact hi ((hmembers i).mpr hq)
          simp [Heap.forked, hseries, hlog, hq, hqp]
      rw [count_eq_zero.mpr hi, Nat.zero_add, hsame, hlog]
      simp
  · intro q rest hq i hi
    rw [hseries]
    rcases mem_append.mp hq with hq | hq
    · obtain ⟨rfl, rfl⟩ := hloop q rest hq
      exact (hmembers i).mp hi
    · exact inv.forks.loop q rest (mem_cons_of_mem _ hq) i hi

theorem Forks.loopNext {rest : List SeriesId} (inv : Inv h (.loop p (s :: rest) :: F))
    (R : Records h h' [.start s]) (hseries : h'.series = h.series) (t : Task) :
    Forks h' ([.dispatch t, .loop p rest] ++ F) := by
  have hlog : h'.log = .start s :: h.log := R.log
  have hforked : ∀ i, h'.forked i = h.forked i := by
    intro i
    simp [Heap.forked, hseries, hlog]
  refine ⟨?_, ?_⟩
  · intro i
    have hold := inv.forks.left i
    have hhead : (Frame.dispatch t).left = [] := rfl
    rw [count_holdings_cons, Frame.left] at hold
    rw [cons_append, singleton_append, count_holdings_cons, count_holdings_cons, hhead,
      Frame.left, count_nil, Nat.zero_add, hforked, hlog]
    by_cases hi : s = i
    · subst hi
      rw [count_cons_self] at hold
      simp only [mem_cons, true_or, not_true, and_false, if_false]
      split_ifs at hold <;> omega
    · rw [count_cons_of_ne hi] at hold
      rw [hold]
      simp [Ne.symm hi]
  · intro q r hq i hi
    rw [hseries]
    rcases mem_cons.mp hq with heq | hq
    · cases heq
    · rcases mem_cons.mp hq with heq | hq
      · obtain ⟨hqp, hr⟩ := Frame.loop.inj heq
        rw [hr] at hi
        rw [hqp]
        exact inv.forks.loop p (s :: rest) mem_cons_self i (mem_cons_of_mem _ hi)
      · exact inv.forks.loop q r (mem_cons_of_mem _ hq) i hi

theorem Forks.adopt (K : Forks h F) (R : Records h h' extra) (hold : h.forked s = false)
    (hnew : h'.forked s = false)
    (hparallel : ∀ i, i ≠ s → (h'.series i).inParallel = (h.series i).inParallel)
    (hextra : ∀ i q, .start i ∉ extra ∧ .dispatch (.work q) ∉ extra) : Forks h' F := by
  have hforked : ∀ i, h'.forked i = h.forked i := by
    intro i
    by_cases hi : i = s
    · rw [hi, hold, hnew]
    · simp only [Heap.forked, hparallel i hi, R.mem (hextra i _).2]
  refine ⟨?_, ?_⟩
  · intro i
    simp only [K.left i, hforked, R.mem (hextra i 0).1]
  · intro q rest hq i hi
    have hne : i ≠ s := by
      rintro rfl
      have hcount := K.left i
      rw [hold] at hcount
      have hmem : i ∈ holdings Frame.left F := mem_flatMap.mpr ⟨_, hq, hi⟩
      have hpos := count_pos_iff.mpr hmem
      simp only [Bool.false_eq_true, false_and, if_false] at hcount
      omega
    rw [hparallel i hne]
    exact K.loop q rest hq i hi

theorem Inv.not_forked (inv : Inv h (.dismiss s :: F)) : h.forked s = false := by
  obtain ⟨⟨p, hp, hdelete⟩, -⟩ := inv.unused_of_dismiss
  have hnot : .dispatch (.work p) ∉ h.log := fun hmem => inv.places.not_deleted hmem hdelete
  simp [Heap.forked, hp, hnot]

theorem Forks.exec (e : Exec h f new extra h') (inv : Inv h (f :: F)) : Forks h' (new ++ F) := by
  have K := inv.forks
  have R := e.records
  cases e with
  | sync | async | loopEnd | pop | join | joinNot | deleteLeaf =>
    exact K.keep R (fun _ => rfl) rfl (by simp)
  | fork => exact Forks.fork inv R rfl (by simp [holdings, Frame.left]) (by simp)
  | forkNone p hnil => exact Forks.fork inv R rfl hnil.symm (by simp)
  | loop => exact Forks.loopNext inv R rfl _
  | done t | doneNone t => exact K.keep R (by simp [taskDone_fields]) rfl (by simp)
  | take s parent t x ht | drop s parent t x ht | dismissTake s t x ht =>
    exact K.keep R (ht.parallel rfl) rfl (by simp)
  | close | dismissEnd => exact K.keep R (series_apply rfl Series.inParallel (by rfl)) rfl (by simp)
  | finish s parent | finishDelete s parent =>
    exact K.keep R (fun _ => rfl) (by cases parent <;> rfl) (by simp)
  | deleteWork => exact K.keep R (fun _ => rfl) (by simp [holdings, Frame.left]) (by simp)
  | dismiss s =>
    have K' : Forks h ([.delete (h.series s).first, .dismissLoop s] ++ F) :=
      K.keep (.refl h) (fun _ => rfl) rfl (by simp)
    refine K'.adopt R (s := s) inv.not_forked ?_ ?_ (by simp)
    · simp [Heap.forked, Heap.setSeries]
    · intro i hi
      exact congrArg Series.inParallel (update_of_ne hi _ _)

/-! ## Joins -/

theorem countP_unfinished (log : List Event) {log' : List Event}
    (hlog : ∀ i, .finish i ∈ log' ↔ .finish i ∈ log) (l : List SeriesId) :
    l.countP (fun i => .finish i ∉ log') = l.countP (fun i => .finish i ∉ log) := by
  simp only [hlog]

theorem Joins.keep (J : Joins h (f :: F)) (R : Records h h' extra)
    (hall : h'.allSeries = h.allSeries) (hnleft : h'.nleft = h.nleft)
    (hparallel : ∀ i, (h'.series i).inParallel = (h.series i).inParallel)
    (hrunning : ∀ q, .work q ∈ h'.running ↔ .work q ∈ h.running)
    (hquiet : ∀ q, .dispatch (.work q) ∉ extra ∧ .callback q ∉ extra ∧ f ≠ .decrement q ∧
      .decrement q ∉ new ∧ .finish q ∉ extra) : Joins h' (new ++ F) where
  members := by
    intro q hdone hdelete i
    rw [R.log, mem_append, not_or] at hdone hdelete
    rw [hall, hparallel]
    exact J.members q hdone.2 hdelete.2 i
  nodup := by
    rw [hall]
    exact J.nodup
  nleft := by
    intro q hq
    have hcount := J.nleft q ((hrunning q).mp hq)
    rw [count_cons_of_ne (hquiet q).2.2.1] at hcount
    rw [hnleft, hall, hcount, count_append, count_eq_zero.mpr (hquiet q).2.2.2.1,
      Nat.zero_add]
    congr 1
    exact (countP_unfinished h.log (fun i => R.mem (hquiet i).2.2.2.2) _).symm
  nleft_pos := by
    intro q hq
    rw [hnleft]
    exact J.nleft_pos q ((hrunning q).mp hq)
  decrement := by
    intro q hq
    rw [mem_append, or_iff_right (hquiet q).2.2.2.1] at hq
    exact (hrunning q).mpr (J.decrement q (mem_cons_of_mem _ hq))
  joined := by
    intro q hq hrun i hi
    rw [R.mem (hquiet q).1] at hq
    rw [hrunning] at hrun
    rw [hparallel] at hi
    rw [R.log]
    exact mem_append_right _ (J.joined q hq hrun i hi)
  called := by
    intro q hq
    rw [R.mem (hquiet q).2.1] at hq
    rw [R.log]
    exact mem_append_right _ (J.called q hq)

theorem Joins.fork (inv : Inv h (.dispatch (.work p) :: F))
    (R : Records h h' [.dispatch (.work p)]) (hall : h'.allSeries = h.allSeries)
    (hseries : h'.series = h.series)
    (hnleft : h'.nleft = update h.nleft p (h.allSeries p).length)
    (hrunning : ∀ q, .work q ∈ h'.running ↔ q = p ∧ h.allSeries p ≠ [] ∨ .work q ∈ h.running)
    (hnew : ∀ q, .decrement q ∉ new) : Joins h' (new ++ F) := by
  have hlog : h'.log = .dispatch (.work p) :: h.log := R.log
  obtain ⟨-, hmembers, hrun, hdec, hfresh⟩ := inv.before_fork
  have J := inv.joins
  have hfinish : ∀ i, .finish i ∈ h'.log ↔ .finish i ∈ h.log := by simp [hlog]
  have hother : ∀ q, .work q ∈ h'.running → q ≠ p → .work q ∈ h.running ∧ h'.nleft q = h.nleft q := by
    intro q hq hqp
    rw [hrunning, or_iff_right (fun hand => hqp hand.1)] at hq
    exact ⟨hq, by rw [hnleft, update_of_ne hqp]⟩
  refine ⟨?_, by simpa only [hall] using J.nodup, ?_, ?_, ?_, ?_, ?_⟩
  · intro q hdone hdelete i
    rw [hall, hseries]
    exact J.members q (by simpa [hlog] using hdone) (by simpa [hlog] using hdelete) i
  · intro q hq
    rw [hall, countP_unfinished h.log hfinish, count_append,
      count_eq_zero.mpr (hnew q), Nat.zero_add]
    by_cases hqp : q = p
    · subst hqp
      have hlength : (h.allSeries q).countP (fun i => .finish i ∉ h.log) =
          (h.allSeries q).length := by
        rw [countP_eq_length]
        intro i hi
        simpa using (hfresh i ((hmembers i).mp hi)).2
      rw [hnleft, update_self, hlength, count_eq_zero.mpr hdec, Nat.add_zero]
    · obtain ⟨hq', hsame⟩ := hother q hq hqp
      have hold := J.nleft q hq'
      rw [count_cons_of_ne (by simp)] at hold
      rw [hsame, hold]
  · intro q hq
    by_cases hqp : q = p
    · subst hqp
      rw [hrunning, or_iff_left hrun] at hq
      rw [hnleft, update_self]
      exact length_pos_of_ne_nil hq.2
    · obtain ⟨hq', hsame⟩ := hother q hq hqp
      rw [hsame]
      exact J.nleft_pos q hq'
  · intro q hq
    rw [mem_append, or_iff_right (hnew q)] at hq
    exact (hrunning q).mpr (.inr (J.decrement q (mem_cons_of_mem _ hq)))
  · intro q hq hnot i hi
    rw [hseries] at hi
    rw [hrunning, not_or] at hnot
    rw [hfinish]
    by_cases hqp : q = p
    · subst hqp
      have hmem := (hmembers i).mpr hi
      have hnil : h.allSeries q = [] := by tauto
      rw [hnil] at hmem
      cases hmem
    · exact J.joined q (by simpa [hlog, hqp] using hq) hnot.2 i hi
  · intro q hq
    have hold := J.called q (by simpa [hlog] using hq)
    simpa [hlog] using hold

theorem Joins.done (inv : Inv h (.done t :: F)) (R : Records h (h.taskDone t) (h.taskLog t))
    (hnew : ∀ q, .decrement q ∉ new) : Joins (h.taskDone t) (new ++ F) := by
  cases t with
  | leaf n =>
    exact inv.joins.keep R rfl rfl (fun _ => rfl) (fun _ => .rfl) (by simpa using hnew)
  | work p =>
    obtain ⟨s, hs⟩ := inv.done_owned
    have hrun := inv.control.not_running hs
    have J := inv.joins
    have hfinish : ∀ i, .finish i ∈ (h.taskDone (.work p)).log ↔ .finish i ∈ h.log := by
      simp [Heap.taskDone]
    have hall : ∀ q, q ≠ p → (h.taskDone (.work p)).allSeries q = h.allSeries q :=
      fun q hq => update_of_ne hq _ _
    refine ⟨?_, ?_, ?_, J.nleft_pos, ?_, ?_, ?_⟩
    · intro q hdone hdelete i
      have hqp : q ≠ p := by
        rintro rfl
        exact hdone (by simp [Heap.taskDone])
      rw [hall q hqp]
      exact J.members q (fun hmem => hdone (by simp [Heap.taskDone, hmem]))
        (fun hmem => hdelete (by simp [Heap.taskDone, hmem])) i
    · intro q
      by_cases hqp : q = p
      · rw [hqp]
        simp [Heap.taskDone]
      · rw [hall q hqp]
        exact J.nodup q
    · intro q hq
      have hqp : q ≠ p := by
        rintro rfl
        exact hrun hq
      have hold := J.nleft q hq
      rw [count_cons_of_ne (by simp)] at hold
      rw [countP_unfinished h.log hfinish, hall q hqp, count_append,
        count_eq_zero.mpr (hnew q), Nat.zero_add]
      exact hold
    · intro q hq
      rw [mem_append, or_iff_right (hnew q)] at hq
      exact J.decrement q (mem_cons_of_mem _ hq)
    · intro q hq hnot i hi
      rw [hfinish]
      exact J.joined q (by simpa [Heap.taskDone] using hq) hnot i hi
    · intro q hq
      have hor : q = p ∨ .callback q ∈ h.log := by simpa [Heap.taskDone] using hq
      rcases hor with rfl | hmem
      · simp [Heap.taskDone]
      · have hold := J.called q hmem
        simp [Heap.taskDone, hold]

theorem countP_finish {log log' : List Event}
    (hlog : ∀ i, .finish i ∈ log' ↔ i = s ∨ .finish i ∈ log) (hs : .finish s ∉ log)
    {l : List SeriesId} (hl : l.Nodup) : l.countP (fun i => .finish i ∉ log') + l.count s =
      l.countP (fun i => .finish i ∉ log) := by
  induction l with
  | nil => rfl
  | cons i l ih =>
    obtain ⟨hi, hl⟩ := nodup_cons.mp hl
    have hrest := ih hl
    by_cases his : i = s
    · subst his
      have hzero := count_eq_zero.mpr hi
      simp only [countP_cons, count_cons_self, hlog, true_or, not_true, hs,
        not_false_eq_true, decide_true, decide_false, Bool.false_eq_true, if_false, if_true] at *
      omega
    · rw [count_cons_of_ne his]
      simp only [countP_cons, hlog, his, false_or] at *
      omega

theorem Inv.members_running (inv : Inv h F) (hp : .work p ∈ h.running) (i : SeriesId) :
    i ∈ h.allSeries p ↔ (h.series i).inParallel = some p := by
  obtain ⟨hdispatch, hdone⟩ := inv.control.active _ (.inl hp)
  exact inv.joins.members p hdone (inv.places.not_deleted hdispatch) i

theorem Inv.running_of_callback (inv : Inv h (.callback s (some p) :: F)) :
    .work p ∈ h.running := by
  have hp := inv.parents.carried _ mem_cons_self s (some p) rfl
  obtain ⟨hstart, hfinish, -⟩ := inv.control.sole (s := s) rfl
  by_contra hrun
  exact hfinish (inv.joins.joined p (inv.history.dispatch_of_start hstart hp.symm) hrun s hp.symm)

theorem Joins.finish {parent : Option ParallelId} (inv : Inv h (.callback s parent :: F))
    (R : Records h h' extra) (hextra : ∀ e, e ≠ .deleteSeries s → (e ∈ extra ↔ e = .finish s))
    (hsame : h'.allSeries = h.allSeries ∧ h'.series = h.series ∧ h'.nleft = h.nleft ∧
      h'.running = h.running) : Joins h' (parent.toList.map .decrement ++ F) := by
  obtain ⟨hall, hseries, hnleft, hrunning⟩ := hsame
  have J := inv.joins
  have hparent := inv.parents.carried _ mem_cons_self s parent rfl
  obtain ⟨-, hnot, -⟩ := inv.control.sole (s := s) rfl
  have hmem : ∀ e, e ≠ .deleteSeries s → (e ∈ h'.log ↔ e = .finish s ∨ e ∈ h.log) := by
    intro e he
    rw [R.log, mem_append, hextra e he]
  have hfinish : ∀ i, .finish i ∈ h'.log ↔ i = s ∨ .finish i ∈ h.log := by
    intro i
    rw [hmem _ (by simp), Event.finish.injEq]
  refine ⟨?_, by simpa only [hall] using J.nodup, ?_, ?_, ?_, ?_, ?_⟩
  · intro q hdone hdelete i
    rw [hmem _ (by simp), not_or] at hdone hdelete
    rw [hall, hseries]
    exact J.members q hdone.2 hdelete.2 i
  · intro q hq
    rw [hrunning] at hq
    have hold := J.nleft q hq
    have hcount := countP_finish hfinish hnot (J.nodup q)
    have hnew : (parent.toList.map Frame.decrement).count (.decrement q) =
        (h.allSeries q).count s := by
      by_cases hs : s ∈ h.allSeries q
      · rw [count_eq_one_of_mem (J.nodup q) hs, hparent, (inv.members_running hq s).mp hs]
        simp
      · rw [count_eq_zero.mpr hs, count_eq_zero]
        intro hq'
        refine hs ((inv.members_running hq s).mpr ?_)
        have hq'' : parent = some q := by simpa using hq'
        rw [← hparent, hq'']
    rw [count_cons_of_ne (by simp)] at hold
    rw [hnleft, hall, count_append, hold, hnew]
    omega
  · intro q hq
    rw [hrunning] at hq
    rw [hnleft]
    exact J.nleft_pos q hq
  · intro q hq
    rw [hrunning]
    rcases mem_append.mp hq with hq | hq
    · obtain rfl : parent = some q := by simpa using hq
      exact inv.running_of_callback
    · exact J.decrement q (mem_cons_of_mem _ hq)
  · intro q hq hrun i hi
    rw [hrunning] at hrun
    rw [hseries] at hi
    rw [hmem _ (by simp)] at hq
    rw [hfinish]
    exact .inr (J.joined q (hq.resolve_left (by simp)) hrun i hi)
  · intro q hq
    rw [hmem _ (by simp)] at hq ⊢
    exact .inr (J.called q (hq.resolve_left (by simp)))

theorem Joins.join (inv : Inv h (.decrement p :: F)) (hp : h.nleft p - 1 = 0) :
    Joins ((h.setNleft p (h.nleft p - 1)).land (.work p)) (.done (.work p) :: F) := by
  have J := inv.joins
  have hrun := J.decrement p mem_cons_self
  have hcount := J.nleft p hrun
  rw [count_cons_self] at hcount
  have hdec : .decrement p ∉ F := count_eq_zero.mp (by omega)
  have hended : (h.allSeries p).countP (fun i => .finish i ∉ h.log) = 0 := by omega
  obtain ⟨s, hs, -⟩ := inv.history.start_of_dispatch (inv.control.active _ (.inl hrun)).1
  have hone := inv.control.running_count hs
  have hother : ∀ q, .work q ∈ h.running.erase (.work p) ↔ q ≠ p ∧ .work q ∈ h.running := by
    intro q
    by_cases hqp : q = p
    · subst hqp
      have hnot : .work q ∉ h.running.erase (.work q) := by
        rw [← count_eq_zero, count_erase_self]
        omega
      simp [hnot]
    · simp [mem_erase_of_ne, hqp]
  refine ⟨J.members, J.nodup, ?_, ?_, ?_, ?_, J.called⟩
  · intro q hq
    obtain ⟨hqp, hq⟩ := (hother q).mp hq
    have hold := J.nleft q hq
    rw [count_cons_of_ne (by simp [Ne.symm hqp])] at hold
    rw [count_cons_of_ne (by simp)]
    exact (update_of_ne hqp _ _).trans hold
  · intro q hq
    obtain ⟨hqp, hq⟩ := (hother q).mp hq
    simp only [Heap.land, Heap.setNleft]
    rw [update_of_ne hqp]
    exact J.nleft_pos q hq
  · intro q hq
    have hq' : .decrement q ∈ F := by simpa using hq
    refine (hother q).mpr ⟨?_, J.decrement q (mem_cons_of_mem _ hq')⟩
    rintro rfl
    exact hdec hq'
  · intro q hq hnot i hi
    by_cases hqp : q = p
    · subst hqp
      have hmem := (inv.members_running hrun i).mpr hi
      have hfinish : .finish i ∈ h.log := by simpa using countP_eq_zero.mp hended i hmem
      exact hfinish
    · refine J.joined q hq ?_ i hi
      intro hmem
      exact hnot ((hother q).mpr ⟨hqp, hmem⟩)

theorem Joins.joinNot (inv : Inv h (.decrement p :: F)) (hp : h.nleft p - 1 ≠ 0) :
    Joins (h.setNleft p (h.nleft p - 1)) F := by
  have J := inv.joins
  refine ⟨J.members, J.nodup, ?_, ?_, ?_, J.joined, J.called⟩
  · intro q hq
    have hold := J.nleft q hq
    by_cases hqp : q = p
    · subst hqp
      rw [count_cons_self] at hold
      exact (update_self _ _ _).trans (Nat.sub_eq_of_eq_add hold)
    · rw [count_cons_of_ne (by simp [Ne.symm hqp])] at hold
      exact (update_of_ne hqp _ _).trans hold
  · intro q hq
    simp only [Heap.setNleft]
    by_cases hqp : q = p
    · subst hqp
      rw [update_self]
      omega
    · rw [update_of_ne hqp]
      exact J.nleft_pos q hq
  · intro q hq
    exact J.decrement q (mem_cons_of_mem _ hq)

theorem Joins.orphan (J : Joins h F) (R : Records h h' [.dismiss s])
    (hsame : h'.allSeries = h.allSeries ∧ h'.nleft = h.nleft ∧ h'.running = h.running)
    (hp : (h.series s).inParallel = some p) (hdelete : .delete (.work p) ∈ h.log)
    (hparallel : ∀ i, (h'.series i).inParallel =
      if i = s then none else (h.series i).inParallel) : Joins h' F := by
  obtain ⟨hall, hnleft, hrunning⟩ := hsame
  refine ⟨?_, by simpa only [hall] using J.nodup, ?_, ?_, ?_, ?_, ?_⟩
  · intro q hdone hnot i
    rw [R.mem (by simp)] at hdone hnot
    rw [hall, hparallel, J.members q hdone hnot i]
    split_ifs with his
    · subst his
      rw [hp]
      simp only [Option.some.injEq, iff_false]
      rintro rfl
      exact hnot hdelete
    · exact .rfl
  · intro q hq
    rw [hrunning] at hq
    rw [hnleft, hall, countP_unfinished h.log (fun _ => R.mem (by simp))]
    exact J.nleft q hq
  · rw [hrunning, hnleft]
    exact J.nleft_pos
  · rw [hrunning]
    exact J.decrement
  · intro q hq hnot i hi
    rw [hrunning] at hnot
    rw [R.mem (by simp)] at hq ⊢
    rw [hparallel] at hi
    split_ifs at hi
    exact J.joined q hq hnot i hi
  · intro q hq
    rw [R.mem (by simp)] at hq ⊢
    exact J.called q hq

theorem Joins.exec (e : Exec h f new extra h') (inv : Inv h (f :: F)) : Joins h' (new ++ F) := by
  have J := inv.joins
  have R := e.records
  cases e with
  | sync | async | loopEnd | pop | loop | deleteLeaf | deleteWork =>
    exact J.keep R rfl rfl (fun _ => rfl) (by simp) (by simp)
  | fork p hne => exact Joins.fork inv R rfl rfl rfl (by simp [hne]) (by simp)
  | forkNone p hnil =>
    exact Joins.fork inv R rfl rfl (by rw [hnil]; rfl) (by simp [hnil]) (by simp)
  | done | doneNone => exact Joins.done inv R (by simp)
  | take s parent t x ht | drop s parent t x ht | dismissTake s t x ht =>
    exact J.keep R rfl rfl (ht.parallel rfl) (by simp) (by simp)
  | close | dismissEnd =>
    exact J.keep R rfl rfl (series_apply rfl Series.inParallel (by rfl)) (by simp) (by simp)
  | finish | finishDelete =>
    exact Joins.finish inv R (by simp +contextual) ⟨rfl, rfl, rfl, rfl⟩
  | join p hp => exact Joins.join inv hp
  | joinNot p hp => exact Joins.joinNot inv hp
  | dismiss s =>
    obtain ⟨⟨p, hp, hdelete⟩, -⟩ := inv.unused_of_dismiss
    have J' : Joins h ([.delete (h.series s).first, .dismissLoop s] ++ F) :=
      J.keep (.refl h) rfl rfl (fun _ => rfl) (by simp) (by simp)
    refine J'.orphan R ⟨rfl, rfl, rfl⟩ hp hdelete ?_
    intro i
    simp only [Heap.setSeries, Heap.record, update_apply]
    split_ifs <;> rfl

theorem Inv.exec (e : Exec h f new extra h') (inv : Inv h (f :: F)) : Inv h' (new ++ F) where
  places := Places.exec e inv
  births := Births.exec e inv
  drops := Drops.exec e inv
  control := Control.exec e inv
  parents := Parents.exec e inv
  forks := Forks.exec e inv
  joins := Joins.exec e inv
  history := History.exec e inv

end MyWorkflow.Workflow
