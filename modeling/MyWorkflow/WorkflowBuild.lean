import MyWorkflow.WorkflowJoins

set_option autoImplicit false

namespace MyWorkflow.Workflow
open Function List Bags

variable {h h' : Heap} {F : List Frame} {s : SeriesId} {t : Task} {p : ParallelId}

theorem Inv.idle (inv : Inv h F) : Inv h (.loop 0 [] :: F) := by
  obtain ⟨hplaces, hbirths, hdrops, hcontrol, hparents, hforks, hjoins, hhistory⟩ := inv
  refine ⟨?_, ?_, ?_, hcontrol.cons_idle rfl (by simp), ?_, ?_, ?_, hhistory⟩
  · obtain ⟨h₁, h₂, h₃⟩ := hplaces
    exact ⟨h₁, h₂, h₃⟩
  · obtain ⟨h₁, h₂, h₃, h₄, h₅⟩ := hbirths
    exact ⟨h₁, h₂, h₃, by simpa using h₄, by simpa using h₅⟩
  · obtain ⟨h₁, h₂, h₃, h₄, h₅⟩ := hdrops
    exact ⟨by simpa using h₁, by simpa using h₂, by simpa using h₃, by simpa using h₄, h₅⟩
  · obtain ⟨h₁, h₂, h₃⟩ := hparents
    exact ⟨by simpa [Frame.carried] using h₁, by simpa using h₂, by simpa using h₃⟩
  · obtain ⟨h₁, h₂⟩ := hforks
    refine ⟨h₁, ?_⟩
    intro q rest hq i hi
    rcases mem_cons.mp hq with heq | hq
    · rw [(Frame.loop.inj heq).2] at hi
      cases hi
    · exact h₂ q rest hq i hi
  · obtain ⟨h₁, h₂, h₃, h₄, h₅, h₆, h₇⟩ := hjoins
    exact ⟨h₁, h₂, by simpa using h₃, h₄, by simpa using h₅, h₆, h₇⟩

/-! ## Start, dismissal and completion -/

theorem Unused.first_waiting (hs : h.Unused s) : (h.series s).first ∈ h.waiting s := by
  rw [Heap.waiting, if_pos ⟨hs.1, hs.2.2⟩]
  exact mem_cons_self

theorem Forks.startTop (K : Forks h (.loop 0 [] :: F)) (hnone : (h.series s).inParallel = none)
    (t : Task) : Forks (h.record (.start s)) ([.dispatch t] ++ F) := by
  have K' : Forks h ([.dispatch t] ++ F) := K.keep (.refl h) (fun _ => rfl) rfl (by simp)
  refine ⟨?_, K'.loop⟩
  intro i
  rw [K'.left i]
  have hforked : (h.record (.start s)).forked i = h.forked i := by simp [Heap.forked, Heap.record]
  rw [hforked]
  by_cases hi : i = s
  · have hnot : h.forked i = false := by simp [Heap.forked, hi, hnone]
    simp [hnot]
  · simp [Heap.record, hi]

theorem Inv.start (inv : Inv h F) (hs : h.Unused s) :
    Inv (h.record (.start s)) ([.dispatch (h.series s).first] ++ F) := by
  have hfirst := Unused.first_waiting hs
  obtain ⟨hcreated, hnone, hstart, hdismiss⟩ := hs
  have inv' := inv.idle
  have hpointer := inv.places.pointer s _ hfirst
  obtain ⟨hdispatch, hdone, hrun, hlog⟩ := inv.waiting_fresh hfirst
  have hparent := inv.parents.fresh _ hdispatch hlog
  have R : Records h (h.record (.start s)) [.start s] := ⟨rfl, rfl, rfl⟩
  have hlegal : Legal h (.start s) h.log := by
    refine ⟨hstart, ?_⟩
    intro q hq
    rw [hnone] at hq
    cases hq
  refine ⟨?_, ?_, ?_, ?_, ?_, ?_, ?_, ?_⟩
  · have L := leaves_first hcreated hstart hdismiss (.inl rfl) R fun _ => rfl
    exact inv'.places.leave R L rfl rfl
  · exact inv'.births.keep R rfl (by simpa using hcreated)
  · exact inv'.drops.keep _ R (fun _ => rfl) (fun _ => rfl) (by simp) (by simp)
      (by simpa using hdismiss)
  · exact inv.control.start R rfl inv.history hstart hpointer
  · refine inv'.parents.give R rfl ?_ (fun _ => rfl) ⟨hdispatch, hdone, hrun⟩ hpointer hnone.symm
      (by simp [Frame.carried])
    rw [← hparent, update_eq_self]
    rfl
  · exact inv'.forks.startTop hnone _
  · exact inv'.joins.keep R rfl rfl (fun _ => rfl) (by simp) (by simp)
  · exact (inv.history.cons hlegal).congr rfl fun _ => rfl

theorem Inv.dismiss (inv : Inv h F) (hs : h.Unused s) :
    Inv (h.record (.dismiss s)) ([.delete (h.series s).first, .dismissLoop s] ++ F) := by
  have hfirst := Unused.first_waiting hs
  obtain ⟨hcreated, hnone, hstart, hdismiss⟩ := hs
  have inv' := inv.idle
  have hpointer := inv.places.pointer s _ hfirst
  have R : Records h (h.record (.dismiss s)) [.dismiss s] := ⟨rfl, rfl, rfl⟩
  refine ⟨?_, ?_, ?_, ?_, ?_, ?_, ?_, ?_⟩
  · have L := leaves_first hcreated hstart hdismiss (.inr rfl) R fun _ => rfl
    exact inv'.places.leave R L rfl rfl
  · exact inv'.births.keep R rfl (by simpa using hcreated)
  · refine inv'.drops.step R (fun _ => rfl) ?_ (by simp) (by simp) ?_ ?_
    · intro i u hi hu
      obtain rfl : u = (h.series s).first := by simpa using hu
      rw [hpointer] at hi
      cases hi
      exact .inr (.inr mem_cons_self)
    · intro i
      have hold := inv.drops.dismissing i
      have hnew : ([Frame.delete (h.series s).first, .dismissLoop s] ++ F).count (.dismiss i) =
          F.count (.dismiss i) := by simp
      rw [hnew, hold]
      simp [Heap.record]
    · intro i hi
      rcases mem_cons.mp hi with heq | hi
      · rw [Event.dismiss.inj heq]
        exact ⟨hnone, by simpa [Heap.record] using hstart⟩
      · obtain ⟨h₁, h₂⟩ := inv.drops.dismissed i hi
        exact ⟨h₁, by simpa [Heap.record] using h₂⟩
  · exact inv'.control.keep R rfl rfl (by simp)
  · exact inv'.parents.keep R rfl (fun _ => rfl) (by simp [Frame.carried]) (by simp) (by simp)
  · exact inv'.forks.keep R (fun _ => rfl) rfl (by simp)
  · exact inv'.joins.keep R rfl rfl (fun _ => rfl) (by simp) (by simp)
  · exact (inv.history.cons (e := .dismiss s) trivial).congr rfl fun _ => rfl

theorem Inv.complete {n : ℕ} (inv : Inv h F) (hn : .leaf n ∈ h.running) :
    Inv (h.land (.leaf n)) ([.done (.leaf n)] ++ F) := by
  have inv' := inv.idle
  obtain ⟨s, hs, -⟩ := inv.history.start_of_dispatch (inv.control.active _ (.inl hn)).1
  have hworks : ∀ q, .work q ∈ (h.land (.leaf n)).running ↔ .work q ∈ h.running :=
    fun q => mem_erase_of_ne (by simp)
  have R : Records h (h.land (.leaf n)) [] := ⟨rfl, rfl, rfl⟩
  refine ⟨?_, ?_, ?_, ?_, ?_, ?_, ?_, ?_⟩
  · exact inv'.places.keep R rfl (fun _ => rfl) (by simp)
  · exact inv'.births.keep R rfl (by simp)
  · exact inv'.drops.keep _ R (fun _ => rfl) (fun _ => rfl) (by simp) (by simp) (by simp)
  · exact inv.control.land R rfl hn hs
  · refine inv'.parents.keep R rfl (fun _ => rfl) (by simp [Frame.carried]) ?_ (by simp)
    intro u hu
    have hor : u = .leaf n ∨ u ∈ h.running.erase (.leaf n) := by simpa using hu
    rcases hor with rfl | hu
    · exact .inr hn
    · exact .inr (mem_of_mem_erase hu)
  · exact inv'.forks.keep R (fun _ => rfl) rfl (by simp)
  · exact inv'.joins.keep R rfl rfl (fun _ => rfl) hworks (by simp)
  · exact inv.history.congr rfl fun _ => rfl

theorem Inv.dismissWork (inv : Inv h F) (hp : h.Free (.work p)) :
    Inv (h.record (.delete (.work p))) ((h.allSeries p).map .dismiss ++ F) := by
  have inv' := inv.idle
  obtain ⟨hpointer, hdelete⟩ := hp
  obtain ⟨-, hdispatch, -⟩ := inv.places.free _ hpointer
  have hother : ∀ i u, h.pointer u = some i → u ≠ .work p := by
    rintro i u hu rfl
    rw [hpointer] at hu
    cases hu
  have R : Records h (h.record (.delete (.work p))) [.delete (.work p)] := ⟨rfl, rfl, rfl⟩
  have hwaiting := R.waiting (fun _ => rfl) (by simp)
  have hframes : holdings Frame.taken ((h.allSeries p).map .dismiss ++ F) =
      holdings Frame.taken F := by simp [holdings, Frame.taken]
  refine ⟨?_, ?_, ?_, ?_, ?_, ?_, ?_, ?_⟩
  · obtain ⟨h₁, h₂, h₃⟩ := inv.places
    refine ⟨?_, ?_, ?_⟩
    · intro i u hu
      rw [hwaiting] at hu
      exact h₁ i u hu
    · intro i u hi
      have hone := h₂ i u hi
      have hnot : u ∉ (Event.delete (.work p)).taken := by
        intro hmem
        exact hother i u hi (mem_singleton.mp hmem)
      rw [Heap.taken, count_append] at hone
      rw [hwaiting, Heap.taken, hframes, count_append, Heap.record, count_holdings_cons,
        count_eq_zero.mpr hnot, Nat.zero_add]
      exact hone
    · intro u hu
      rw [hframes]
      simpa [Heap.record] using h₃ u hu
  · exact inv'.births.keep R rfl (by simp)
  · refine inv'.drops.step R (fun _ => rfl) ?_ (by simp) (by simp)
      (inv'.dismissing_after_delete (by simp) hdispatch hdelete) ?_
    · intro i u hi hu
      exact absurd (by simpa using hu) (hother i u hi)
    · intro i hi
      have hi' : .dismiss i ∈ h.log := by simpa [Heap.record] using hi
      simpa [Heap.record] using inv.drops.dismissed i hi'
  · exact inv'.control.keep R rfl (by simp [holdings, Frame.held]) (by simp)
  · exact inv'.parents.keep R rfl (fun _ => rfl) (by simp [Frame.carried]) (by simp) (by simp)
  · exact inv'.forks.keep R (fun _ => rfl) (by simp [holdings, Frame.left]) (by simp)
  · exact inv'.joins.keep R rfl rfl (fun _ => rfl) (by simp) (by simp)
  · exact (inv.history.cons (e := .delete (.work p)) trivial).congr rfl fun _ => rfl

/-! ## The last task -/

theorem unsetLastTask_none (hlast : (h.series s).last = none) : h.unsetLastTask s = h := by
  have hsame : { h.series s with last := none } = h.series s := by rw [← hlast]
  rw [Heap.unsetLastTask, Heap.displaceLast, hlast]
  simp only [Heap.setSeries, hsame, update_eq_self]

theorem Inv.displace {x : Series} (inv : Inv h F) (ht : Takes h s t x) :
    Inv ((h.record (.displace t)).setSeries s fun _ => x) ([] ++ F) := by
  have R : Records h ((h.record (.displace t)).setSeries s fun _ => x) [.displace t] :=
    ⟨rfl, rfl, rfl⟩
  have inv' := inv.idle
  refine ⟨?_, ?_, ?_, ?_, ?_, ?_, ?_, ?_⟩
  · exact inv'.places.leave R (ht.leaves R rfl (by simp)) rfl rfl
  · exact inv'.births.takes R ht rfl (by simp)
  · exact inv'.drops.keep _ R (series_apply rfl Series.canceled ht.canceled) (ht.parallel rfl)
      (by simp) (by simp) (by simp)
  · exact inv'.control.keep R rfl rfl (by simp)
  · exact inv'.parents.keep R rfl (ht.parallel rfl) (by simp) (by simp) (by simp)
  · exact inv'.forks.keep R (ht.parallel rfl) rfl (by simp)
  · exact inv'.joins.keep R rfl rfl (ht.parallel rfl) (by simp) (by simp)
  · exact (inv.history.cons (e := .displace t) trivial).congr rfl (ht.parallel rfl)

theorem Inv.unsetLastTask (inv : Inv h F) (s : SeriesId) : Inv (h.unsetLastTask s) F := by
  cases hlast : (h.series s).last with
  | none =>
    rw [unsetLastTask_none hlast]
    exact inv
  | some t =>
    have hunset : h.unsetLastTask s = (h.record (.displace t)).setSeries s fun _ =>
        { h.series s with last := none } := by
      rw [Heap.unsetLastTask, Heap.displaceLast, hlast]
      rfl
    rw [hunset]
    exact inv.displace ⟨rfl, rfl, rfl, rfl, fun u => by simp [hlast]⟩

theorem Inv.cancel (inv : Inv h F) (s : SeriesId) : Inv (h.cancel s) F := by
  have inv' := inv.idle
  have hcanceled : ∀ i, (h.series i).canceled = true → ((h.cancel s).series i).canceled = true := by
    intro i hi
    simp only [Heap.cancel, Heap.setSeries, update_apply]
    split_ifs
    · rfl
    · exact hi
  have hparallel : ∀ i, ((h.cancel s).series i).inParallel = (h.series i).inParallel :=
    series_apply rfl Series.inParallel (by rfl)
  have R : Records h (h.cancel s) [] := ⟨rfl, rfl, rfl⟩
  have hnil : F = [] ++ F := rfl
  rw [hnil]
  refine ⟨?_, ?_, ?_, ?_, ?_, ?_, ?_, ?_⟩
  · exact inv'.places.keep R rfl (series_apply rfl Series.tasks (by rfl)) (by simp)
  · exact inv'.births.edit R rfl rfl (fun _ hi => hi) id (by simp)
  · obtain ⟨h₁, h₂, h₃, h₄, h₅⟩ := inv.drops
    refine ⟨?_, ?_, h₃, ?_, ?_⟩
    · intro i t hi ht
      exact (h₁ i t hi ht).imp_left (hcanceled i)
    · intro i parent hi
      exact hcanceled i (h₂ i parent hi)
    · intro i
      rw [hparallel]
      exact h₄ i
    · intro i hi
      rw [hparallel]
      exact h₅ i hi
  · exact inv'.control.keep R rfl rfl (by simp)
  · exact inv'.parents.keep R rfl hparallel (by simp) (by simp [Heap.cancel]) (by simp)
  · exact inv'.forks.keep R hparallel rfl (by simp)
  · exact inv'.joins.keep R rfl rfl hparallel (fun _ => .rfl) (by simp)
  · exact inv.history.congr rfl hparallel

/-! ## Series of a parallel work -/

theorem addSeries_parallel (p : ParallelId) (s i : SeriesId) :
    ((h.addSeries p s).series i).inParallel =
      if i = s then some p else (h.series i).inParallel := by
  simp only [Heap.addSeries, Heap.setSeries, update_apply]
  split_ifs <;> rfl

theorem Joins.addSeries (inv : Inv h F) (hnone : (h.series s).inParallel = none)
    (hdispatch : .dispatch (.work p) ∉ h.log) (hdelete : .delete (.work p) ∉ h.log) :
    Joins (h.addSeries p s) F := by
  have J := inv.joins
  have hdone := inv.history.not_done hdispatch
  have hrun : .work p ∉ h.running := fun hmem => hdispatch (inv.control.active _ (.inl hmem)).1
  have hs : ∀ q, .done (.work q) ∉ h.log → .delete (.work q) ∉ h.log → s ∉ h.allSeries q := by
    intro q h₁ h₂ hmem
    rw [(J.members q h₁ h₂ s).mp hmem] at hnone
    cases hnone
  have hother : ∀ q, q ≠ p → (h.addSeries p s).allSeries q = h.allSeries q :=
    fun q hq => update_of_ne hq _ _
  have hself : (h.addSeries p s).allSeries p = h.allSeries p ++ [s] := update_self _ _ _
  refine ⟨?_, ?_, ?_, J.nleft_pos, J.decrement, ?_, J.called⟩
  · intro q h₁ h₂ i
    rw [addSeries_parallel]
    by_cases hqp : q = p
    · subst hqp
      rw [hself, mem_append, J.members q h₁ h₂ i, mem_singleton]
      split_ifs with his
      · simp [his]
      · simp [his]
    · rw [hother q hqp, J.members q h₁ h₂ i]
      split_ifs with his
      · subst his
        simp [hnone, Ne.symm hqp]
      · exact .rfl
  · intro q
    by_cases hqp : q = p
    · subst hqp
      rw [hself]
      refine (J.nodup q).append (nodup_singleton s) ?_
      rw [disjoint_singleton]
      exact hs q hdone hdelete
    · rw [hother q hqp]
      exact J.nodup q
  · intro q hq
    have hqp : q ≠ p := by
      rintro rfl
      exact hrun hq
    rw [hother q hqp]
    exact J.nleft q hq
  · intro q hq hnot i hi
    rw [addSeries_parallel] at hi
    split_ifs at hi
    · cases hi
      exact absurd hq hdispatch
    · exact J.joined q hq hnot i hi

theorem Inv.addSeries (inv : Inv h F) (hs : h.Unused s) (hdispatch : .dispatch (.work p) ∉ h.log)
    (hdelete : .delete (.work p) ∉ h.log) : Inv (h.addSeries p s) F := by
  obtain ⟨hcreated, hnone, hstart, hdismiss⟩ := hs
  have inv' := inv.idle
  obtain ⟨hF, hrun⟩ := inv.not_held hstart
  have R : Records h (h.addSeries p s) [] := ⟨rfl, rfl, rfl⟩
  have hlog : (h.addSeries p s).log = h.log := rfl
  have hparallel : ∀ i, i ≠ s → ((h.addSeries p s).series i).inParallel =
      (h.series i).inParallel := by
    intro i hi
    rw [addSeries_parallel, if_neg hi]
  refine ⟨?_, ?_, ?_, ?_, ?_, ?_, Joins.addSeries inv hnone hdispatch hdelete, ?_⟩
  · have P : Places (h.addSeries p s) ([] ++ F) :=
      inv'.places.keep R rfl (series_apply rfl Series.tasks (by rfl)) (by simp)
    exact P
  · have B : Births (h.addSeries p s) ([] ++ F) := inv'.births.edit R rfl rfl
      (fun hs => absurd hcreated (Nat.not_lt.mpr hs)) id (by simp)
    exact B
  · obtain ⟨h₁, h₂, h₃, h₄, h₅⟩ := inv.drops
    have hcanceled : ∀ i, ((h.addSeries p s).series i).canceled = (h.series i).canceled :=
      series_apply rfl Series.canceled (by rfl)
    refine ⟨?_, ?_, h₃, ?_, ?_⟩
    · intro i t hi ht
      rw [hcanceled]
      exact h₁ i t hi ht
    · intro i parent hi
      rw [hcanceled]
      exact h₂ i parent hi
    · intro i
      have hold := h₄ i
      rw [addSeries_parallel]
      split_ifs with his hany hany
      · have hmem : .delete (.work p) ∈ h.log := by simpa [hlog] using hany
        exact absurd hmem hdelete
      · rw [his, hnone] at hold
        rw [his]
        exact hold
      · rw [hold]
        exact if_pos hany
      · rw [hold]
        exact if_neg hany
    · intro i hi
      have hne : i ≠ s := by
        rintro rfl
        exact hdismiss hi
      rw [hparallel i hne]
      exact h₅ i hi
  · have C : Control (h.addSeries p s) ([] ++ F) := inv'.control.keep R rfl rfl (by simp)
    exact C
  · exact inv.parents.adopt R rfl rfl hF hrun hparallel (by simp)
  · refine inv.forks.adopt R (s := s) ?_ ?_ hparallel (by simp)
    · simp [Heap.forked, hnone]
    · rw [Heap.forked, addSeries_parallel, if_pos rfl]
      simpa [hlog] using hdispatch
  · refine inv.history.mono (fun _ _ => rfl) ?_
    intro i q hq hmem
    rw [addSeries_parallel] at hq
    split_ifs at hq with his
    · cases hq
      rcases hmem with hmem | hmem
      · exact absurd hmem (his ▸ hstart)
      · exact absurd (inv.history.dispatch_of_callback hmem) hdispatch
    · exact hq

/-! ## Tasks of a series -/

theorem Inv.free_fresh (inv : Inv h F) (ht : h.Free t) :
    t ∉ h.taken F ∧ .done t ∉ F ∧ t ∉ h.running := by
  obtain ⟨hpointer, hdelete⟩ := ht
  obtain ⟨hF, hdispatch, hdisplace⟩ := inv.places.free t hpointer
  refine ⟨?_, ?_, ?_⟩
  · rw [Heap.taken, mem_append, not_or]
    refine ⟨hF, ?_⟩
    intro hmem
    obtain ⟨e, he, hte⟩ := mem_flatMap.mp hmem
    cases e with
    | dispatch u => exact hdispatch (mem_singleton.mp hte ▸ he)
    | delete u => exact hdelete (mem_singleton.mp hte ▸ he)
    | displace u => exact hdisplace (mem_singleton.mp hte ▸ he)
    | start | done | callback | finish | dismiss | deleteSeries => cases hte
  · exact fun hmem => hdispatch (inv.control.active t (.inr hmem)).1
  · exact fun hmem => hdispatch (inv.control.active t (.inl hmem)).1

theorem Inv.created_of_start (inv : Inv h F) {i : SeriesId} (hi : .start i ∈ h.log) :
    i < h.created := by
  by_contra hlt
  exact (inv.births.unborn i (Nat.not_lt.mp hlt)).2.2.2.1 hi

theorem Inv.created_of_pointer (inv : Inv h F) {i : SeriesId} {u : Task}
    (hu : h.pointer u = some i) : i < h.created := by
  by_contra hlt
  exact (inv.births.unborn i (Nat.not_lt.mp hlt)).2.2.2.2.2 u hu

structure Owns (h h' : Heap) (t : Task) (s : SeriesId) : Prop where
  pointer : h'.pointer = update h.pointer t (some s)
  parent : h'.parent = h.parent
  nleft : h'.nleft = h.nleft
  allSeries : h'.allSeries = h.allSeries
  running : h'.running = h.running
  log : h'.log = h.log
  parallel : ∀ i, (h'.series i).inParallel = (h.series i).inParallel
  canceled : ∀ i < h.created, (h'.series i).canceled = (h.series i).canceled

theorem Owns.pointer_ne (o : Owns h h' t s) {u : Task} (hu : u ≠ t) :
    h'.pointer u = h.pointer u := by
  rw [o.pointer, update_of_ne hu]

theorem Owns.tokens (o : Owns h h' t s) (inv : Inv h F) (ht : h.Free t) (i : SeriesId) :
    h'.tokens F i = h.tokens F i := by
  obtain ⟨htaken, hdone, hrun⟩ := inv.free_fresh ht
  have hheld : holdings (Frame.held h'.pointer) F = holdings (Frame.held h.pointer) F := by
    refine flatMap_congr ?_
    intro f hf
    have hsame : ∀ u, f = .dispatch u ∨ f = .done u → h'.pointer u = h.pointer u := by
      intro u hu
      refine o.pointer_ne ?_
      rintro rfl
      rcases hu with rfl | rfl
      · exact htaken (mem_append_left _ (mem_flatMap.mpr ⟨_, hf, mem_cons_self⟩))
      · exact hdone hf
    cases f with
    | dispatch u => exact congrArg (fun x => [x]) (hsame u (.inl rfl))
    | done u => exact congrArg (fun x => [x]) (hsame u (.inr rfl))
    | loop | pop | popTask | callback | decrement | delete | dismiss | dismissLoop => rfl
  have hmap : h.running.map h'.pointer = h.running.map h.pointer := by
    refine map_congr_left ?_
    intro u hu
    refine o.pointer_ne ?_
    rintro rfl
    exact hrun hu
  rw [Heap.tokens, Heap.tokens, hheld, o.running, hmap]

theorem Owns.drops (o : Owns h h' t s) (inv : Inv h F) (ht : h.Free t) : Drops h' F := by
  obtain ⟨htaken, -, -⟩ := inv.free_fresh ht
  obtain ⟨h₁, h₂, h₃, h₄, h₅⟩ := inv.drops
  refine ⟨?_, ?_, ?_, ?_, ?_⟩
  · intro i u hi hu
    rw [o.log] at hu ⊢
    have hne : u ≠ t := by
      rintro rfl
      rcases hu with hu | hu
      · exact htaken (mem_append_left _ (mem_flatMap.mpr ⟨_, hu, mem_cons_self⟩))
      · exact ht.2 hu
    rw [o.pointer_ne hne] at hi
    rw [o.canceled i (inv.created_of_pointer hi)]
    exact h₁ i u hi hu
  · intro i parent hi
    have hstart : .start i ∈ h.log := by
      by_contra hnot
      exact (inv.not_held hnot).1 _ hi mem_cons_self
    rw [o.canceled i (inv.created_of_start hstart)]
    exact h₂ i parent hi
  · rw [o.log]
    exact h₃
  · intro i
    rw [o.parallel, o.log]
    exact h₄ i
  · intro i hi
    rw [o.log] at hi ⊢
    rw [o.parallel]
    exact h₅ i hi

theorem Owns.inv (o : Owns h h' t s) (inv : Inv h F) (ht : h.Free t) (places : Places h' F)
    (births : Births h' F) : Inv h' F := by
  obtain ⟨htaken, hdone, hrun⟩ := inv.free_fresh ht
  obtain ⟨-, hdispatch, -⟩ := inv.places.free t ht.1
  have hforked : ∀ i, h'.forked i = h.forked i := by
    intro i
    rw [Heap.forked, Heap.forked, o.parallel, o.log]
  refine ⟨places, births, o.drops inv ht, ?_, ?_, ?_, ?_, ?_⟩
  · obtain ⟨h₁, h₂, h₃⟩ := inv.control
    refine ⟨?_, ?_, ?_⟩
    · intro i
      rw [o.tokens inv ht, o.log]
      exact h₁ i
    · rw [o.log, o.running]
      exact h₂
    · rw [o.log, o.running]
      exact h₃
  · obtain ⟨h₁, h₂, h₃⟩ := inv.parents
    refine ⟨by simpa only [o.parallel] using h₁, ?_, ?_⟩
    · intro i u hi hu
      rw [o.running] at hu
      have hne : u ≠ t := by
        rintro rfl
        rcases hu with hu | hu | hu
        · exact htaken (mem_append_left _
            (mem_flatMap.mpr ⟨_, hu, mem_cons_self⟩))
        · exact hdone hu
        · exact hrun hu
      rw [o.pointer_ne hne] at hi
      rw [o.parent, o.parallel]
      exact h₂ i u hi hu
    · rw [o.parent, o.log]
      exact h₃
  · obtain ⟨h₁, h₂⟩ := inv.forks
    refine ⟨?_, by simpa only [o.parallel] using h₂⟩
    intro i
    rw [hforked, o.log]
    exact h₁ i
  · obtain ⟨h₁, h₂, h₃, h₄, h₅, h₆, h₇⟩ := inv.joins
    refine ⟨?_, ?_, ?_, ?_, ?_, ?_, ?_⟩
    · simpa only [o.log, o.allSeries, o.parallel] using h₁
    · simpa only [o.allSeries] using h₂
    · simpa only [o.log, o.allSeries, o.nleft, o.running] using h₃
    · simpa only [o.nleft, o.running] using h₄
    · simpa only [o.running] using h₅
    · simpa only [o.log, o.running, o.parallel] using h₆
    · simpa only [o.log] using h₇
  · rw [History, o.log]
    refine inv.history.mono ?_ ?_
    · intro u hu
      refine o.pointer_ne ?_
      rintro rfl
      exact hdispatch hu
    · intro i q hq _
      rwa [o.parallel] at hq

theorem Places.put (o : Owns h h' t s) (inv : Inv h F) (ht : h.Free t)
    (hother : ∀ i, i ≠ s → h'.waiting i = h.waiting i)
    (hcount : ∀ u, (h'.waiting s).count u = (h.waiting s).count u + [t].count u) :
    Places h' F := by
  obtain ⟨htaken, -, -⟩ := inv.free_fresh ht
  have P := inv.places
  have hsame : h'.taken F = h.taken F := by rw [Heap.taken, Heap.taken, o.log]
  have hold : ∀ i, ∀ u ∈ h.waiting i, u ≠ t := by
    rintro i u hu rfl
    have hp := P.pointer i u hu
    rw [ht.1] at hp
    cases hp
  have hself : ∀ u, u ≠ t → (h'.waiting s).count u = (h.waiting s).count u := by
    intro u hu
    rw [hcount, count_singleton, beq_false_of_ne hu.symm]
    rfl
  refine ⟨?_, ?_, ?_⟩
  · intro i u hu
    by_cases hut : u = t
    · subst hut
      have his : i = s := by
        by_contra his
        rw [hother i his] at hu
        exact hold i u hu rfl
      rw [o.pointer, update_self, his]
    · rw [o.pointer_ne hut]
      refine P.pointer i u ?_
      by_cases his : i = s
      · subst his
        have hpos := count_pos_iff.mpr hu
        rw [hself u hut] at hpos
        exact count_pos_iff.mp hpos
      · rwa [hother i his] at hu
  · intro i u hi
    rw [hsame]
    by_cases hut : u = t
    · subst hut
      rw [o.pointer, update_self] at hi
      cases hi
      have hnot : u ∉ h.waiting s := fun hmem => hold s u hmem rfl
      rw [hcount, count_eq_zero.mpr hnot, count_eq_zero.mpr htaken,
        count_singleton_self]
    · rw [o.pointer_ne hut] at hi
      have hone := P.once i u hi
      by_cases his : i = s
      · subst his
        rw [hself u hut]
        exact hone
      · rw [hother i his]
        exact hone
  · intro u hu
    have hut : u ≠ t := by
      rintro rfl
      rw [o.pointer, update_self] at hu
      cases hu
    rw [o.pointer_ne hut] at hu
    rw [o.log]
    exact P.free u hu

theorem Births.put (o : Owns h h' t s) (inv : Inv h F) (hcreated : h.created ≤ h'.created)
    (hs : s < h'.created) (hfinished : (h'.series s).finished = false)
    (hfinish : .finish s ∉ h.log) (hcallback : ∀ parent, .callback s parent ∉ F)
    (hother : ∀ i, i ≠ s → h'.series i = h.series i) : Births h' F := by
  have B := inv.births
  refine ⟨?_, ?_, ?_, ?_, ?_⟩
  · intro i hi
    have his : i ≠ s := Nat.ne_of_gt (Nat.lt_of_lt_of_le hs hi)
    obtain ⟨h₁, h₂, h₃, h₄, h₅, h₆⟩ := B.unborn i (Nat.le_trans hcreated hi)
    rw [hother i his, o.log]
    refine ⟨h₁, h₂, h₃, h₄, h₅, ?_⟩
    intro u hu
    by_cases hut : u = t
    · rw [hut, o.pointer, update_self] at hu
      exact his (Option.some.inj hu).symm
    · rw [o.pointer_ne hut] at hu
      exact h₆ u hu
  · intro i hi
    have his : i ≠ s := by
      rintro rfl
      rw [hfinished] at hi
      cases hi
    rw [hother i his] at hi ⊢
    exact B.closed i hi
  · intro i hi
    rw [o.log] at hi
    have his : i ≠ s := by
      rintro rfl
      exact hfinish hi
    rw [hother i his]
    exact B.ended i hi
  · intro i parent hi
    have his : i ≠ s := by
      rintro rfl
      exact hcallback parent hi
    rw [hother i his]
    exact B.ending i parent hi
  · intro i hi
    have his : i ≠ s := by
      rintro rfl
      rw [hfinished] at hi
      cases hi
    rw [hother i his] at hi
    rw [o.log]
    exact B.why i hi

theorem Inv.newSeries (inv : Inv h F) (ht : h.Free t) : Inv (h.newSeries t) F := by
  obtain ⟨hqueue, hlast, hnone, hstart, hdismiss, -⟩ := inv.births.unborn h.created le_rfl
  have hother : ∀ i, i ≠ h.created → (h.newSeries t).series i = h.series i :=
    fun i hi => update_of_ne hi _ _
  have hself : (h.newSeries t).series h.created = .ofFirst t := update_self _ _ _
  have o : Owns h (h.newSeries t) t h.created := by
    refine ⟨rfl, rfl, rfl, rfl, rfl, rfl, ?_, ?_⟩
    · intro i
      by_cases hi : i = h.created
      · rw [hi, hself, hnone]
        rfl
      · rw [hother i hi]
    · intro i hi
      rw [hother i (Nat.ne_of_lt hi)]
  refine o.inv inv ht (Places.put o inv ht ?_ ?_) (Births.put o inv ?_ ?_ ?_ ?_ ?_ hother)
  · intro i hi
    have hlt : i < h.created + 1 ↔ i < h.created :=
      ⟨fun hlt => Nat.lt_of_le_of_ne (Nat.lt_succ_iff.mp hlt) hi, Nat.lt_succ_of_lt⟩
    have hcreated : (h.newSeries t).created = h.created + 1 := rfl
    rw [Heap.waiting, Heap.waiting, hother i hi, o.log, hcreated]
    simp only [hlt]
  · intro u
    have hold : h.waiting h.created = [] := by
      rw [Heap.waiting, hqueue, hlast, if_neg (fun hand => Nat.lt_irrefl _ hand.1)]
      rfl
    have hnew : (h.newSeries t).waiting h.created = [t] := by
      rw [Heap.waiting, hself, o.log, if_pos ⟨Nat.lt_succ_self _, hstart, hdismiss⟩]
      rfl
    rw [hold, hnew, count_nil, Nat.zero_add]
  · exact Nat.le_succ _
  · exact Nat.lt_succ_self _
  · rw [hself]
    rfl
  · exact fun hmem => hstart (inv.history.start_of_finish hmem)
  · intro parent hmem
    exact (inv.not_held hstart).1 _ hmem mem_cons_self

theorem Inv.put (inv : Inv h F) (ht : h.Free t) (hs : h.Open s) (x : Series)
    (hfirst : x.first = (h.series s).first) (hcanceled : x.canceled = (h.series s).canceled)
    (hfinished : x.finished = (h.series s).finished)
    (hparallel : x.inParallel = (h.series s).inParallel)
    (hcount : ∀ u, (x.queue ++ x.last.toList).count u =
      ((h.series s).queue ++ (h.series s).last.toList).count u + [t].count u) :
    Inv ((h.setPointer t s).setSeries s fun _ => x) F := by
  obtain ⟨hcreated, hopen⟩ := hs
  have hother : ∀ i, i ≠ s → ((h.setPointer t s).setSeries s fun _ => x).series i = h.series i :=
    fun i hi => update_of_ne hi _ _
  have hself : ((h.setPointer t s).setSeries s fun _ => x).series s = x :=
    update_self _ _ _
  have o : Owns h ((h.setPointer t s).setSeries s fun _ => x) t s :=
    ⟨rfl, rfl, rfl, rfl, rfl, rfl, series_apply rfl Series.inParallel hparallel,
      fun i _ => series_apply rfl Series.canceled hcanceled i⟩
  refine o.inv inv ht (Places.put o inv ht ?_ ?_)
    (Births.put o inv le_rfl hcreated ?_ ?_ ?_ hother)
  · intro i hi
    exact waiting_eq rfl .rfl .rfl (by rw [hother i hi])
  · intro u
    have hlog : ((h.setPointer t s).setSeries s fun _ => x).log = h.log := rfl
    have hborn : ((h.setPointer t s).setSeries s fun _ => x).created = h.created := rfl
    rw [Heap.waiting, Heap.waiting, hself, hlog, hborn, hfirst, count_append, hcount,
      ← Nat.add_assoc, ← count_append]
  · rw [hself, hfinished, hopen]
  · intro hmem
    rw [inv.births.ended s hmem] at hopen
    cases hopen
  · intro parent hmem
    rw [inv.births.ending s parent hmem] at hopen
    cases hopen

theorem Inv.pushBack (inv : Inv h F) (ht : h.Free t) (hs : h.Open s) :
    Inv (h.pushBack s t) F := by
  refine inv.put ht hs { h.series s with queue := (h.series s).queue ++ [t] } rfl rfl rfl rfl ?_
  intro u
  simp only [count_append]
  omega

theorem Inv.pushFront (inv : Inv h F) (ht : h.Free t) (hs : h.Open s) :
    Inv (h.pushFront s t) F := by
  refine inv.put ht hs { h.series s with queue := t :: (h.series s).queue } rfl rfl rfl rfl ?_
  intro u
  rw [cons_append, ← singleton_append, count_append, Nat.add_comm]

theorem setLastTask_eq (h : Heap) (s : SeriesId) (t : Task) : h.setLastTask s t =
    ((h.unsetLastTask s).setPointer t s).setSeries s fun _ =>
      { h.series s with last := some t } := by
  have hseries : (h.displaceLast s).series = h.series := by
    unfold Heap.displaceLast
    split <;> rfl
  simp only [Heap.setLastTask, Heap.unsetLastTask, Heap.setSeries, Heap.setPointer, hseries,
    update_idem]

theorem Inv.setLastTask (inv : Inv h F) (ht : h.Free t) (hs : h.Open s) :
    Inv (h.setLastTask s t) F := by
  have hseries : (h.unsetLastTask s).series s = { h.series s with last := none } := by
    cases hlast : (h.series s).last with
    | none =>
      rw [unsetLastTask_none hlast]
      rw [← hlast]
    | some u =>
      rw [Heap.unsetLastTask, Heap.displaceLast, hlast]
      exact update_self _ _ _
  have hpointer : (h.unsetLastTask s).pointer = h.pointer := by
    rw [Heap.unsetLastTask, Heap.displaceLast]
    split <;> rfl
  have hlog : ∀ e, (∀ u, e ≠ .displace u) → e ∈ (h.unsetLastTask s).log → e ∈ h.log := by
    intro e he hmem
    rw [Heap.unsetLastTask, Heap.displaceLast] at hmem
    split at hmem
    · exact (mem_cons.mp hmem).resolve_left (he _)
    · exact hmem
  have hcreated : (h.unsetLastTask s).created = h.created := by
    rw [Heap.unsetLastTask, Heap.displaceLast]
    split <;> rfl
  rw [setLastTask_eq]
  refine (inv.unsetLastTask s).put ?_ ?_ _ ?_ ?_ ?_ ?_ ?_
  · refine ⟨by rw [hpointer]; exact ht.1, ?_⟩
    exact fun hmem => ht.2 (hlog _ (by simp) hmem)
  · refine ⟨by rw [hcreated]; exact hs.1, ?_⟩
    rw [hseries]
    exact hs.2
  · rw [hseries]
  · rw [hseries]
  · rw [hseries]
  · rw [hseries]
  · intro u
    rw [hseries]
    simp

end MyWorkflow.Workflow
