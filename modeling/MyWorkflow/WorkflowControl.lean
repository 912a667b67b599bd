import MyWorkflow.WorkflowPlaces

set_option autoImplicit false

namespace MyWorkflow.Workflow
open Function List Bags

variable {h h' : Heap} {F new : List Frame} {f : Frame} {s : SeriesId} {t : Task} {extra : List Event}

theorem tokens_append (h : Heap) (new F : List Frame) (s : SeriesId) :
    h.tokens (new ++ F) s = (holdings (Frame.held h.pointer) new).count (some s) +
      h.tokens F s := by
  rw [Heap.tokens, Heap.tokens, holdings, flatMap_append, count_append, Nat.add_assoc]
  rfl

theorem tokens_congr (hpointer : h'.pointer = h.pointer) (hrunning : h'.running = h.running)
    (F : List Frame) (s : SeriesId) : h'.tokens F s = h.tokens F s := by
  rw [Heap.tokens, Heap.tokens, hpointer, hrunning]

theorem Control.keep (C : Control h (f :: F)) (R : Records h h' extra)
    (hrunning : h'.running = h.running)
    (hheld : holdings (Frame.held h.pointer) new = f.held h.pointer)
    (hquiet : (∀ u, .dispatch u ∉ extra ∧ .done u ∉ extra ∧ f ≠ .done u ∧ .done u ∉ new) ∧
      ∀ i, .start i ∉ extra ∧ .finish i ∉ extra) : Control h' (new ++ F) := by
  obtain ⟨hquiet, hextra⟩ := hquiet
  have hmem : ∀ u, .done u ∈ new ++ F ↔ .done u ∈ f :: F := by
    intro u
    obtain ⟨-, -, hf, hnew⟩ := hquiet u
    rw [mem_append, mem_cons, or_iff_right hnew, or_iff_right hf.symm]
  refine ⟨?_, ?_, ?_⟩
  · intro i
    have htoken := C.token i
    rw [tokens_cons] at htoken
    rw [tokens_congr R.pointer hrunning, tokens_append, hheld, htoken, R.log]
    simp only [mem_append, hextra, false_or]
  · intro u hu
    rw [R.mem (hquiet u).1] at hu
    rw [R.mem (hquiet u).2.1, hrunning, hmem]
    exact C.busy u hu
  · intro u hu
    rw [hrunning, hmem] at hu
    rw [R.mem (hquiet u).1, R.mem (hquiet u).2.1]
    exact C.active u hu

theorem Control.dispatch (C : Control h (.dispatch t :: F)) (R : Records h h' [.dispatch t])
    (hist : History h) (ht : .dispatch t ∉ h.log)
    (hmove : (holdings (Frame.held h.pointer) new ++ h'.running.map h.pointer).Perm
      (h.pointer t :: h.running.map h.pointer))
    (hactive : ∀ u, u ∈ h'.running ∨ .done u ∈ new ↔ u = t ∨ u ∈ h.running) :
    Control h' (new ++ F) := by
  have hdone := hist.not_done ht
  have hlog : h'.log = .dispatch t :: h.log := R.log
  refine ⟨?_, ?_, ?_⟩
  · intro i
    have htoken := C.token i
    have hcount := hmove.count_eq (some i)
    rw [tokens_cons, Heap.tokens] at htoken
    rw [count_append] at hcount
    have hheld : (Frame.dispatch t).held h.pointer = [h.pointer t] := rfl
    rw [← singleton_append, count_append, ← hheld] at hcount
    rw [tokens_append, Heap.tokens, R.pointer]
    have hlogs : (.start i ∈ h'.log ∧ .finish i ∉ h'.log) ↔
        (.start i ∈ h.log ∧ .finish i ∉ h.log) := by simp [hlog]
    simp only [hlogs, ← htoken]
    omega
  · intro u hu
    rw [hlog] at hu ⊢
    have hor : u = t ∨ .dispatch u ∈ h.log := by simpa using hu
    rw [mem_append]
    rcases hor with rfl | hu
    · have := (hactive u).mpr (.inl rfl)
      tauto
    · rcases C.busy u hu with h₁ | h₁ | h₁
      · exact .inl (mem_cons_of_mem _ h₁)
      · have := (hactive u).mpr (.inr h₁)
        tauto
      · have h₂ : .done u ∈ F := by simpa using h₁
        tauto
  · intro u hu
    rw [mem_append, ← or_assoc, hactive] at hu
    rw [hlog]
    rcases hu with (rfl | hu) | hu
    · exact ⟨mem_cons_self, by simpa using hdone⟩
    · obtain ⟨h₁, h₂⟩ := C.active u (.inl hu)
      exact ⟨mem_cons_of_mem _ h₁, by simpa using h₂⟩
    · obtain ⟨h₁, h₂⟩ := C.active u (.inr (mem_cons_of_mem _ hu))
      exact ⟨mem_cons_of_mem _ h₁, by simpa using h₂⟩

theorem Control.start (C : Control h F) (R : Records h h' [.start s])
    (hrunning : h'.running = h.running) (hist : History h) (hs : .start s ∉ h.log)
    (hfirst : h.pointer t = some s) : Control h' (.dispatch t :: F) := by
  have hlog : h'.log = .start s :: h.log := R.log
  have hfinish : .finish s ∉ h.log := fun hmem => hs (hist.start_of_finish hmem)
  refine ⟨?_, ?_, ?_⟩
  · intro i
    have htoken := C.token i
    rw [tokens_cons, tokens_congr R.pointer hrunning, htoken, hlog, R.pointer, Frame.held, hfirst]
    by_cases hi : s = i
    · subst hi
      simp [hs, hfinish]
    · simp [hi, Ne.symm hi]
  · intro u hu
    have h₁ := C.busy u (by simpa [hlog] using hu)
    simpa [hlog, hrunning] using h₁
  · intro u hu
    have h₁ := C.active u (by simpa [hrunning] using hu)
    simpa [hlog] using h₁

theorem Control.idle (C : Control h (f :: F)) (hheld : f.held h.pointer = [])
    (hf : ∀ u, f ≠ .done u) : Control h F := by
  have C' : Control h ([] ++ F) := C.keep (.refl h) rfl hheld.symm (by simpa using hf)
  exact C'

theorem Control.cons_idle (C : Control h F) (hheld : f.held h.pointer = [])
    (hf : ∀ u, f ≠ .done u) : Control h (f :: F) := by
  obtain ⟨htoken, hbusy, hactive⟩ := C
  refine ⟨?_, ?_, ?_⟩
  · intro i
    rw [tokens_cons, hheld, htoken, count_nil, Nat.zero_add]
  · intro u hu
    rw [mem_cons, or_iff_right (hf u).symm]
    exact hbusy u hu
  · intro u hu
    rw [mem_cons, or_iff_right (hf u).symm] at hu
    exact hactive u hu

theorem Control.done (C : Control h (.done t :: F)) (R : Records h h' (h.taskLog t))
    (hrunning : h'.running = h.running) (hs : h.pointer t = some s) (parent : Option ParallelId) :
    Control h' (.pop s parent :: F) := by
  obtain ⟨-, -, hzero⟩ := C.sole (s := s) (congrArg (fun x => [x]) hs)
  obtain ⟨hF, hrun⟩ := tokens_eq_zero hzero
  have hne : ∀ u, u ∈ h.running ∨ .done u ∈ F → u ≠ t := by
    rintro u (hu | hu) rfl
    · exact hrun u hu hs
    · exact hF _ hu (mem_singleton.mpr hs.symm)
  refine ⟨?_, ?_, ?_⟩
  · intro i
    have htoken := C.token i
    rw [tokens_cons, Frame.held, hs] at htoken
    rw [tokens_cons, Frame.held, tokens_congr R.pointer hrunning, htoken, R.log]
    simp
  · intro u hu
    have h₁ : .dispatch u ∈ h.log := by simpa [R.log] using hu
    have h₂ := C.busy u h₁
    simp only [mem_cons, Frame.done.injEq, reduceCtorEq, false_or] at h₂ ⊢
    rw [R.log, hrunning, mem_append, mem_taskLog]
    rcases h₂ with h₂ | h₂ | rfl | h₂ <;> tauto
  · intro u hu
    have hold : u ∈ h.running ∨ .done u ∈ F := by simpa [hrunning] using hu
    obtain ⟨h₁, h₂⟩ := C.active u (hold.imp_right (mem_cons_of_mem _))
    have h₃ := hne u hold
    rw [R.log, mem_append, mem_append]
    refine ⟨.inr h₁, ?_⟩
    simp [h₂, h₃]

theorem Control.land (C : Control h F) (R : Records h h' [])
    (hrunning : h'.running = h.running.erase t) (ht : t ∈ h.running) (hs : h.pointer t = some s) :
    Control h' (.done t :: F) := by
  have hlog : h'.log = h.log := R.log
  have hone := C.running_count hs
  have hperm := perm_cons_erase ht
  have hnot : t ∉ h.running.erase t := by
    have hcount := hperm.count_eq t
    rw [count_cons_self] at hcount
    exact count_eq_zero.mp (by omega)
  refine ⟨?_, ?_, ?_⟩
  · intro i
    have htoken := C.token i
    have hcount := (hperm.map h.pointer).count_eq (some i)
    rw [map_cons, ← singleton_append, count_append] at hcount
    rw [Heap.tokens, hcount] at htoken
    rw [tokens_cons, Heap.tokens, Frame.held, R.pointer, hrunning, hlog, ← htoken]
    omega
  · intro u hu
    rw [hlog] at hu ⊢
    rw [hrunning, mem_cons]
    rcases C.busy u hu with h₁ | h₁ | h₁
    · exact .inl h₁
    · rcases mem_cons.mp (hperm.mem_iff.mp h₁) with rfl | h₂
      · exact .inr (.inr (.inl rfl))
      · exact .inr (.inl h₂)
    · exact .inr (.inr (.inr h₁))
  · intro u hu
    rw [hlog]
    rw [hrunning, mem_cons] at hu
    rcases hu with hu | hu | hu
    · exact C.active u (.inl (mem_of_mem_erase hu))
    · rw [Frame.done.inj hu]
      exact C.active t (.inl ht)
    · exact C.active u (.inr hu)

theorem Control.finish {parent : Option ParallelId} (C : Control h (.callback s parent :: F))
    (R : Records h h' extra) (hrunning : h'.running = h.running)
    (hextra : (∀ i, .start i ∉ extra ∧ (.finish i ∈ extra ↔ i = s)) ∧
      ∀ u, .dispatch u ∉ extra ∧ .done u ∉ extra) : Control h' F := by
  obtain ⟨hseries, htask⟩ := hextra
  obtain ⟨hs, hnot, hzero⟩ := C.sole rfl
  refine ⟨?_, ?_, ?_⟩
  · intro i
    have htoken := C.token i
    rw [tokens_cons, Frame.held] at htoken
    simp only [tokens_congr R.pointer hrunning, R.log, mem_append, hseries, false_or]
    by_cases hi : i = s
    · rw [hi, hzero]
      simp
    · rw [count_singleton, beq_false_of_ne (by simp [Ne.symm hi])] at htoken
      simpa [hi] using htoken
  · intro u hu
    rw [R.mem (htask u).1] at hu
    rw [R.mem (htask u).2, hrunning]
    simpa using C.busy u hu
  · intro u hu
    rw [hrunning] at hu
    rw [R.mem (htask u).1, R.mem (htask u).2]
    exact C.active u (hu.imp_right (mem_cons_of_mem _))

theorem Control.cons_decrement (parent : Option ParallelId) (C : Control h F) :
    Control h (parent.toList.map .decrement ++ F) := by
  cases parent with
  | none => exact C
  | some p => exact C.cons_idle rfl (by simp)

theorem Inv.done_owned (inv : Inv h (.done t :: F)) : ∃ s, h.pointer t = some s := by
  have hd := (inv.control.active t (.inr mem_cons_self)).1
  obtain ⟨s, hs, -⟩ := inv.history.start_of_dispatch hd
  exact ⟨s, hs⟩

theorem Control.exec (e : Exec h f new extra h') (inv : Inv h (f :: F)) : Control h' (new ++ F) := by
  have C := inv.control
  have R := e.records
  cases e with
  | sync | forkNone =>
    exact C.dispatch R inv.history (inv.places.next rfl).1 .rfl (by simp [or_comm])
  | async | fork => exact C.dispatch R inv.history (inv.places.next rfl).1 .rfl (by simp)
  | loopEnd => exact C.idle rfl (by simp)
  | loop p s rest =>
    obtain ⟨hs, hstart, hdismiss⟩ := inv.unused_of_left
    have C' : Control h (.loop p rest :: F) := (C.idle rfl (by simp)).cons_idle rfl (by simp)
    exact C'.start R rfl inv.history hstart (inv.first_pointer hs hstart hdismiss)
  | done t s hs => exact C.done R (taskDone_fields h t).2.1 hs _
  | doneNone t hs =>
    obtain ⟨s, hs'⟩ := inv.done_owned
    rw [hs] at hs'
    cases hs'
  | pop | drop | close | joinNot | dismissTake | deleteLeaf | dismiss | dismissEnd =>
    exact C.keep R rfl rfl (by simp)
  | take s parent t x ht =>
    refine C.keep R rfl ?_ (by simp)
    rw [holdings, flatMap_singleton, Frame.held, inv.takes_pointer ht]
    rfl
  | finish s parent | finishDelete s parent =>
    exact Control.cons_decrement parent (C.finish R rfl (by simp))
  | join p hp =>
    have hrun := inv.joins.decrement p mem_cons_self
    obtain ⟨s, hs, -⟩ := inv.history.start_of_dispatch (C.active _ (.inl hrun)).1
    exact (C.idle rfl (by simp)).land R rfl hrun hs
  | deleteWork => exact C.keep R rfl (by simp [holdings, Frame.held]) (by simp)

/-! ## Parents -/

theorem Inv.waiting_fresh (inv : Inv h F) (ht : t ∈ h.waiting s) :
    .dispatch t ∉ F ∧ .done t ∉ F ∧ t ∉ h.running ∧ .dispatch t ∉ h.log := by
  have hone := inv.places.once s t (inv.places.pointer s t ht)
  have hpos := count_pos_iff.mpr ht
  have hnot : t ∉ h.taken F := count_eq_zero.mp (by omega)
  rw [Heap.taken, mem_append, not_or] at hnot
  have hlog : .dispatch t ∉ h.log := by
    intro hmem
    exact hnot.2 (mem_flatMap.mpr ⟨_, hmem, mem_cons_self⟩)
  refine ⟨?_, ?_, ?_, hlog⟩
  · intro hmem
    exact hnot.1 (mem_flatMap.mpr ⟨_, hmem, mem_cons_self⟩)
  · intro hmem
    exact hlog (inv.control.active t (.inr hmem)).1
  · intro hmem
    exact hlog (inv.control.active t (.inl hmem)).1

theorem Parents.step (A : Parents h (f :: F)) (R : Records h h' extra)
    (hparallel : ∀ i, (h'.series i).inParallel = (h.series i).inParallel)
    (hcarried : ∀ g ∈ new, ∀ i parent, g.carried = some (i, parent) →
      parent = (h.series i).inParallel)
    (htask : ∀ i u, h.pointer u = some i → (.dispatch u ∈ new ∨ .done u ∈ new ∨ u ∈ h'.running) →
      h'.parent u = (h.series i).inParallel)
    (hrest : ∀ u, .dispatch u ∈ F ∨ .done u ∈ F → h'.parent u = h.parent u)
    (hfresh : ∀ u, .dispatch u ∉ new → .dispatch u ∉ extra →
      f ≠ .dispatch u ∧ h'.parent u = h.parent u) : Parents h' (new ++ F) where
  carried := by
    intro g hg i parent hi
    rw [hparallel]
    rcases mem_append.mp hg with hg | hg
    · exact hcarried g hg i parent hi
    · exact A.carried g (mem_cons_of_mem _ hg) i parent hi
  task := by
    intro i u hi hu
    rw [R.pointer] at hi
    rw [hparallel]
    simp only [mem_append] at hu
    have hcases : (.dispatch u ∈ new ∨ .done u ∈ new ∨ u ∈ h'.running) ∨ .dispatch u ∈ F ∨
        .done u ∈ F := by tauto
    rcases hcases with hu | hu
    · exact htask i u hi hu
    · rw [hrest u hu]
      refine A.task i u hi ?_
      simp only [mem_cons]
      tauto
  fresh := by
    intro u hF hlog
    rw [mem_append, not_or] at hF
    rw [R.log, mem_append, not_or] at hlog
    obtain ⟨hf, hparent⟩ := hfresh u hF.1 hlog.1
    rw [hparent]
    refine A.fresh u ?_ hlog.2
    rw [mem_cons, not_or]
    exact ⟨hf.symm, hF.2⟩

theorem Parents.keep (A : Parents h (f :: F)) (R : Records h h' extra)
    (hparent : h'.parent = h.parent)
    (hparallel : ∀ i, (h'.series i).inParallel = (h.series i).inParallel)
    (hcarried : ∀ g ∈ new, ∀ i parent, g.carried = some (i, parent) →
      parent = (h.series i).inParallel)
    (htask : ∀ u, .dispatch u ∈ new ∨ .done u ∈ new ∨ u ∈ h'.running →
      .dispatch u = f ∨ u ∈ h.running)
    (hfresh : ∀ u, .dispatch u = f → .dispatch u ∈ extra) : Parents h' (new ++ F) := by
  refine A.step R hparallel hcarried ?_ ?_ ?_
  · intro i u hi hu
    rw [hparent]
    refine A.task i u hi ?_
    rcases htask u hu with rfl | hrun
    · exact .inl mem_cons_self
    · exact .inr (.inr hrun)
  · intro u _
    rw [hparent]
  · intro u _ hu
    refine ⟨?_, by rw [hparent]⟩
    intro hf
    exact hu (hfresh u hf.symm)

theorem Parents.give (A : Parents h (f :: F)) (R : Records h h' extra)
    (hrunning : h'.running = h.running) {parent : Option ParallelId}
    (hparents : h'.parent = update h.parent t parent)
    (hparallel : ∀ i, (h'.series i).inParallel = (h.series i).inParallel)
    (ht : .dispatch t ∉ F ∧ .done t ∉ F ∧ t ∉ h.running) (hs : h.pointer t = some s)
    (hparent : parent = (h.series s).inParallel)
    (hquiet : (∀ g ∈ new, g.carried = none) ∧
      ∀ u, f ≠ .dispatch u ∧ (.dispatch u ∈ new ↔ u = t) ∧ .done u ∉ new) :
    Parents h' (new ++ F) := by
  obtain ⟨hcarried, hnew⟩ := hquiet
  obtain ⟨hdispatch, hdoneF, hrun⟩ := ht
  have hother : ∀ u, u ≠ t → h'.parent u = h.parent u := by
    intro u hu
    rw [hparents, update_of_ne hu]
  refine A.step R hparallel ?_ ?_ ?_ ?_
  · intro g hg i parent hi
    rw [hcarried g hg] at hi
    cases hi
  · intro i u hi hu
    rw [(hnew u).2.1, or_iff_right (hnew u).2.2, hrunning] at hu
    by_cases hut : u = t
    · subst hut
      rw [hs] at hi
      cases hi
      rw [hparents, update_self, hparent]
    · rw [hother u hut]
      exact A.task i u hi (.inr (.inr (hu.resolve_left hut)))
  · intro u hu
    refine hother u ?_
    rintro rfl
    exact hu.elim hdispatch hdoneF
  · intro u hu _
    rw [(hnew u).2.1] at hu
    exact ⟨(hnew u).1, hother u hu⟩

theorem Inv.not_held (inv : Inv h F) (hs : .start s ∉ h.log) :
    (∀ f ∈ F, some s ∉ f.held h.pointer) ∧ ∀ u ∈ h.running, h.pointer u ≠ some s := by
  refine tokens_eq_zero ?_
  rw [inv.control.token, if_neg]
  exact fun hstart => hs hstart.1

theorem held_of_carried {parent : Option ParallelId} (hf : f.carried = some (s, parent)) :
    some s ∈ f.held h.pointer := by
  cases f <;> simp_all [Frame.carried, Frame.held]

theorem Parents.adopt (A : Parents h F) (R : Records h h' extra) (hrunning : h'.running = h.running)
    (hparent : h'.parent = h.parent) (hF : ∀ f ∈ F, some s ∉ f.held h.pointer)
    (hrun : ∀ u ∈ h.running, h.pointer u ≠ some s)
    (hparallel : ∀ i, i ≠ s → (h'.series i).inParallel = (h.series i).inParallel)
    (hextra : ∀ u, .dispatch u ∉ extra) : Parents h' F where
  carried := by
    intro g hg i parent hi
    rw [hparallel i]
    · exact A.carried g hg i parent hi
    · rintro rfl
      exact hF g hg (held_of_carried hi)
  task := by
    intro i u hi hu
    rw [R.pointer] at hi
    rw [hrunning] at hu
    rw [hparent, hparallel i]
    · exact A.task i u hi hu
    · rintro rfl
      rcases hu with hu | hu | hu
      · exact hF _ hu (mem_singleton.mpr hi.symm)
      · exact hF _ hu (mem_singleton.mpr hi.symm)
      · exact hrun u hu hi
  fresh := by
    intro u hu hd
    rw [R.mem (hextra u)] at hd
    rw [hparent]
    exact A.fresh u hu hd

theorem Parents.exec (e : Exec h f new extra h') (inv : Inv h (f :: F)) : Parents h' (new ++ F) := by
  have A := inv.parents
  have R := e.records
  cases e with
  | sync | async | fork | forkNone | loopEnd | joinNot | finish | finishDelete | deleteLeaf
  | deleteWork => exact A.keep R rfl (fun _ => rfl) (by simp [Frame.carried]) (by simp) (by simp)
  | loop p s rest =>
    obtain ⟨hs, hstart, hdismiss⟩ := inv.unused_of_left
    have hp := inv.forks.loop p (s :: rest) mem_cons_self s mem_cons_self
    have hfirst : (h.series s).first ∈ h.waiting s := by
      rw [Heap.waiting, if_pos ⟨hs, hstart, hdismiss⟩]
      exact mem_cons_self
    obtain ⟨h₁, h₂, h₃, -⟩ := inv.waiting_fresh hfirst
    exact A.give R rfl rfl (fun _ => rfl) ⟨by simpa using h₁, by simpa using h₂, h₃⟩
      (inv.places.pointer s _ hfirst) hp.symm (by simp [Frame.carried])
  | done t s hs =>
    obtain ⟨hseries, hrunning, hparent⟩ := taskDone_fields h t
    have ht := A.task s t hs (.inr (.inl mem_cons_self))
    exact A.keep R hparent (by simp [hseries]) (by simpa [Frame.carried] using ht)
      (by simp [hrunning]) (by simp)
  | doneNone t hs =>
    obtain ⟨s, hs'⟩ := inv.done_owned
    rw [hs] at hs'
    cases hs'
  | pop s parent =>
    have hs := A.carried _ mem_cons_self s parent rfl
    exact A.keep R rfl (fun _ => rfl) (by simpa [Frame.carried] using hs) (by simp) (by simp)
  | take s parent t x ht =>
    have hs := A.carried _ mem_cons_self s parent rfl
    obtain ⟨h₁, h₂, h₃, -⟩ := inv.waiting_fresh ht.mem_waiting
    exact A.give R rfl rfl (ht.parallel rfl) ⟨by simpa using h₁, by simpa using h₂, h₃⟩
      (inv.takes_pointer ht) hs (by simp [Frame.carried])
  | drop s parent t x ht =>
    have hs := A.carried _ mem_cons_self s parent rfl
    exact A.keep R rfl (ht.parallel rfl) (by simpa [Frame.carried] using hs) (by simp) (by simp)
  | close s parent =>
    have hs := A.carried _ mem_cons_self s parent rfl
    exact A.keep R rfl (series_apply rfl Series.inParallel (by rfl))
      (by simpa [Frame.carried] using hs) (by simp) (by simp)
  | join p hp =>
    have hrun := inv.joins.decrement p mem_cons_self
    refine A.keep R rfl (fun _ => rfl) (by simp [Frame.carried]) ?_ (by simp)
    intro u hu
    have hor : u = .work p ∨ u ∈ h.running.erase (.work p) := by simpa using hu
    rcases hor with rfl | hu
    · exact .inr hrun
    · exact .inr (mem_of_mem_erase hu)
  | dismiss s =>
    obtain ⟨hF, hrun⟩ := inv.not_held inv.unused_of_dismiss.2.2.1
    have A' : Parents h ([.delete (h.series s).first, .dismissLoop s] ++ F) :=
      A.keep (.refl h) rfl (fun _ => rfl) (by simp [Frame.carried]) (by simp) (by simp)
    refine A'.adopt R rfl rfl (s := s) ?_ hrun ?_ (by simp)
    · intro g hg
      rcases mem_append.mp hg with hg | hg
      · have hheld : g.held h.pointer = [] := by
          rcases mem_pair.mp hg with rfl | rfl <;> rfl
        rw [hheld]
        exact not_mem_nil
      · exact hF g (mem_cons_of_mem _ hg)
    · intro i hi
      exact congrArg Series.inParallel (update_of_ne hi _ _)
  | dismissTake s t x ht =>
    exact A.keep R rfl (ht.parallel rfl) (by simp [Frame.carried]) (by simp) (by simp)
  | dismissEnd =>
    exact A.keep R rfl (series_apply rfl Series.inParallel (by rfl)) (by simp) (by simp) (by simp)

end MyWorkflow.Workflow
