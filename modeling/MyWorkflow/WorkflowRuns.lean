import MyWorkflow.WorkflowBuild

set_option autoImplicit false

namespace MyWorkflow.Workflow
open Bags Runs
open List hiding replace

variable {h h' : Heap} {F new : List Frame} {f : Frame} {s : SeriesId} {t : Task} {p : ParallelId}
  {extra : List Event}

def State.frames (s : State) : List Frame := s.threads.flatten

theorem inv_init : Inv Heap.init [] := by
  have hhistory : History Heap.init := by
    intro e l hl
    have hlength := hl.length_le
    simp [Heap.init] at hlength
  refine ⟨⟨?_, ?_, ?_⟩, ⟨?_, ?_, ?_, ?_, ?_⟩, ⟨?_, ?_, ?_, ?_, ?_⟩, ⟨?_, ?_, ?_⟩, ⟨?_, ?_, ?_⟩, ⟨?_, ?_⟩,
    ⟨?_, ?_, ?_, ?_, ?_, ?_, ?_⟩, hhistory⟩
  all_goals
    simp [Heap.init, Heap.waiting, Heap.tokens, Heap.forked, holdings, Series.ofFirst]

theorem frames_replace {threads : List (List Frame)} {rest : List Frame}
    (hmem : f :: rest ∈ threads) (new : List Frame) :
    ∃ others, threads.flatten.Perm (f :: others) ∧
      (replace (f :: rest) [new ++ rest] threads).flatten = new ++ others := by
  have hp := (perm_of_mem hmem).flatten
  rw [flatten_cons, cons_append] at hp
  refine ⟨_, hp, ?_⟩
  rw [replace, flatten_append, flatten_singleton, append_assoc]

theorem step_run {s s' : State} {thread : List Frame} {sync : Bool}
    (hstep : step s (.run thread sync) = some s') : ∃ f others new extra,
      s.frames.Perm (f :: others) ∧ s'.frames = new ++ others ∧ Exec s.heap f new extra s'.heap := by
  cases thread with
  | nil => cases hstep
  | cons f rest =>
    obtain ⟨hg, rfl⟩ := of_guard hstep
    obtain ⟨others, hperm, heq⟩ := frames_replace hg (s.heap.exec sync f).1
    obtain ⟨extra, e⟩ := exec_spec sync s.heap f
    exact ⟨f, others, _, extra, hperm, heq, e⟩

theorem step_inv {s s' : State} {a : Action} (inv : Inv s.heap s.frames)
    (hstep : step s a = some s') : Inv s'.heap s'.frames := by
  cases a with
  | newSeries first =>
    obtain ⟨hg, rfl⟩ := of_guard hstep
    exact inv.newSeries hg
  | pushBack i t =>
    obtain ⟨hg, rfl⟩ := of_guard hstep
    exact inv.pushBack hg.1 hg.2
  | pushFront i t =>
    obtain ⟨hg, rfl⟩ := of_guard hstep
    exact inv.pushFront hg.1 hg.2
  | setLastTask i t =>
    obtain ⟨hg, rfl⟩ := of_guard hstep
    exact inv.setLastTask hg.1 hg.2
  | unsetLastTask i =>
    obtain ⟨hg, rfl⟩ := of_guard hstep
    exact inv.unsetLastTask i
  | addSeries p i =>
    obtain ⟨hg, rfl⟩ := of_guard hstep
    exact inv.addSeries hg.1 hg.2.1 hg.2.2
  | cancel i =>
    obtain ⟨hg, rfl⟩ := of_guard hstep
    exact inv.cancel i
  | start i =>
    obtain ⟨hg, rfl⟩ := of_guard hstep
    exact inv.start hg
  | dismiss i =>
    obtain ⟨hg, rfl⟩ := of_guard hstep
    exact inv.dismiss hg
  | dismissWork p =>
    obtain ⟨hg, rfl⟩ := of_guard hstep
    exact inv.dismissWork hg
  | complete n =>
    obtain ⟨hg, rfl⟩ := of_guard hstep
    exact inv.complete hg
  | run thread sync =>
    obtain ⟨f, others, new, extra, hperm, heq, e⟩ := step_run hstep
    rw [heq]
    exact (inv.perm hperm.symm).exec e

theorem reachable_inv {s : State} (hs : Reachable step State.init s) : Inv s.heap s.frames :=
  hs.invariant inv_init (fun _ _ _ inv _ hstep => step_inv inv hstep)

def Action.internal : Action → Bool
  | .complete _ | .run _ _ => true
  | _ => false

def State.Quiet (s : State) : Prop := ∀ a : Action, a.internal = true → step s a = none

theorem State.Quiet.frames {s : State} (hs : s.Quiet) : s.frames = [] := by
  rw [State.frames, flatten_eq_nil_iff]
  intro thread hthread
  cases thread with
  | nil => rfl
  | cons f rest =>
    have hnone := hs (.run (f :: rest) false) rfl
    simp [step, hthread] at hnone

theorem State.Quiet.running {s : State} (hs : s.Quiet) (n : ℕ) : .leaf n ∉ s.heap.running := by
  intro hn
  have hnone := hs (.complete n) rfl
  simp [step, hn] at hnone

def Task.isLeaf : Task → Bool
  | .leaf _ => true
  | .work _ => false

/-- A bound on the steps that a frame brings about, when no task is taken out of a series. -/
def Frame.weight : Frame → ℕ
  | .dismiss _ => 0
  | .popTask _ _ _ | .loop _ _ | .delete _ | .dismissLoop _ => 1
  | .pop _ _ => 2
  | .done _ => 3
  | .decrement _ => 4
  | .dispatch _ | .callback _ _ => 5

def weights (F : List Frame) : ℕ := (F.map Frame.weight).sum

def Heap.ahead (h : Heap) (s : SeriesId) : ℕ :=
  7 * (h.waiting s).length + if (h.series s).finished then 0 else 5

def Heap.slack (h : Heap) : ℕ := total h.created h.ahead

def Heap.potential (h : Heap) (F : List Frame) : ℕ :=
  h.slack + 4 * h.running.countP Task.isLeaf + weights F

theorem slack_congr (hcreated : h'.created = h.created) (hwait : ∀ i, h'.waiting i = h.waiting i)
    (hfinished : ∀ i, (h'.series i).finished = (h.series i).finished) : h'.slack = h.slack := by
  rw [Heap.slack, Heap.slack, hcreated]
  refine total_congr ?_
  intro i _
  rw [Heap.ahead, Heap.ahead, hwait, hfinished]

theorem slack_note (R : Records h h' extra) (hseries : h'.series = h.series)
    (hextra : ∀ i, .start i ∉ extra ∧ .dismiss i ∉ extra) : h'.slack = h.slack :=
  slack_congr R.created (R.waiting (by simp [hseries]) hextra) (by simp [hseries])

theorem slack_leave (R : Records h h' extra) (L : Leaves h h' s t) (hs : s < h.created)
    (hfinished : ∀ i, (h'.series i).finished = (h.series i).finished) :
    h'.slack + 7 = h.slack := by
  obtain ⟨hother, hcount⟩ := L
  have hperm : (h.waiting s).Perm (h'.waiting s ++ [t]) := by
    rw [perm_iff_count]
    intro u
    rw [hcount, count_append]
  have hlength := hperm.length_eq
  rw [length_append, length_singleton] at hlength
  have hahead : h.ahead s = h'.ahead s + 7 := by
    rw [Heap.ahead, Heap.ahead, hlength, hfinished]
    omega
  have hchange := total_change (g := h'.ahead) (f := h.ahead) hs (fun i hi => by
    rw [Heap.ahead, Heap.ahead, hother i hi, hfinished])
  rw [Heap.slack, Heap.slack, R.created]
  omega

theorem slack_close (R : Records h h' extra) (hs : s < h.created)
    (hseries : h'.series = Function.update h.series s { h.series s with finished := true })
    (hextra : ∀ i, .start i ∉ extra ∧ .dismiss i ∉ extra) :
    h'.slack + (if (h.series s).finished then 0 else 5) = h.slack := by
  have hwait := R.waiting (series_apply hseries Series.tasks (by rfl)) hextra
  have hother : ∀ i, i ≠ s → h'.ahead i = h.ahead i := by
    intro i hi
    rw [Heap.ahead, Heap.ahead, hwait, hseries, Function.update_of_ne hi]
  have hself : h'.ahead s = 7 * (h.waiting s).length := by
    rw [Heap.ahead, hwait, hseries, Function.update_self]
    rfl
  have hchange := total_change hs hother
  rw [Heap.slack, Heap.slack, R.created]
  rw [hself, Heap.ahead] at hchange
  omega

theorem Inv.popping_open {parent : Option ParallelId} {canceled : Bool}
    (inv : Inv h (.popTask s parent canceled :: F)) : (h.series s).finished = false := by
  obtain ⟨hstart, hfinish, hzero⟩ := inv.control.sole (s := s) rfl
  rw [Bool.eq_false_iff]
  intro hclosed
  rcases inv.births.why s hclosed with hlog | hlog | ⟨parent', hmem⟩
  · exact hfinish hlog
  · exact (inv.drops.dismissed s hlog).2 hstart
  · rcases mem_cons.mp hmem with heq | hmem
    · cases heq
    · exact (tokens_eq_zero hzero).1 _ hmem mem_cons_self

theorem weights_append (F F' : List Frame) : weights (F ++ F') = weights F + weights F' := by
  rw [weights, weights, weights, map_append, sum_append]

theorem weights_dismiss (l : List SeriesId) : weights (l.map .dismiss) = 0 := by
  rw [weights, map_map, sum_eq_zero]
  intro w hw
  obtain ⟨i, -, rfl⟩ := mem_map.mp hw
  rfl

theorem weights_decrement (parent : Option ParallelId) :
    weights (parent.toList.map .decrement) ≤ 4 := by
  cases parent <;> simp [weights, Frame.weight]

theorem potential_note (R : Records h h' extra) (hseries : h'.series = h.series)
    (hrunning : h'.running.countP Task.isLeaf = h.running.countP Task.isLeaf)
    (hextra : ∀ i, .start i ∉ extra ∧ .dismiss i ∉ extra) (hweight : weights new < f.weight) :
    h'.potential new < h.potential [f] := by
  rw [Heap.potential, Heap.potential, slack_note R hseries hextra, hrunning]
  exact Nat.add_lt_add_left hweight _

theorem potential_leave (R : Records h h' extra) (L : Leaves h h' s t) (hs : s < h.created)
    (hfinished : ∀ i, (h'.series i).finished = (h.series i).finished)
    (hrunning : h'.running = h.running) (hweight : weights new < f.weight + 7) :
    h'.potential new < h.potential [f] := by
  have hslack := slack_leave R L hs hfinished
  have hf : weights [f] = f.weight := rfl
  rw [Heap.potential, Heap.potential, hrunning, hf]
  omega

theorem Exec.descends (e : Exec h f new extra h') (inv : Inv h (f :: F)) :
    h'.potential new < h.potential [f] := by
  have R := e.records
  cases e with
  | sync | fork | forkNone | loopEnd | pop | joinNot | deleteLeaf =>
    exact potential_note R rfl rfl (by simp) (by simp [weights, Frame.weight])
  | async n =>
    rw [Heap.potential, Heap.potential, slack_note R rfl (by simp)]
    have hcount : (Task.leaf n :: h.running).countP Task.isLeaf =
        h.running.countP Task.isLeaf + 1 := countP_cons_of_pos rfl
    simp only [Heap.record, Heap.launch, hcount, weights, Frame.weight, map_cons, map_nil,
      sum_cons, sum_nil]
    omega
  | loop =>
    exact potential_leave R inv.loop_leaves inv.unused_of_left.1 (fun _ => rfl) rfl
      (by simp [weights, Frame.weight])
  | done t | doneNone t =>
    obtain ⟨hseries, hrunning, -⟩ := taskDone_fields h t
    exact potential_note R hseries (by rw [hrunning]) (by simp) (by simp [weights, Frame.weight])
  | take s parent t x ht | drop s parent t x ht | dismissTake s t x ht =>
    exact potential_leave R (ht.leaves R rfl (by simp))
      (inv.created_of_pointer (inv.takes_pointer ht)) (series_apply rfl Series.finished ht.finished)
      rfl (by simp [weights, Frame.weight])
  | close s parent canceled =>
    have hopen := inv.popping_open
    have hslack := slack_close R (inv.created_of_start (inv.control.sole (s := s) rfl).1) rfl (by simp)
    have hrunning : (h.setSeries s fun x => { x with finished := true }).running = h.running := rfl
    rw [hopen] at hslack
    have hnew : weights [.callback s parent] = 5 := rfl
    have hold : weights [.popTask s parent canceled] = 1 := rfl
    rw [Heap.potential, Heap.potential, hrunning, ← hslack, hnew, hold, if_neg Bool.false_ne_true]
    omega
  | finish s parent | finishDelete s parent =>
    exact potential_note R rfl rfl (by simp) (Nat.lt_succ_of_le (weights_decrement parent))
  | join p hp =>
    refine potential_note R rfl ?_ (by simp) (by simp [weights, Frame.weight])
    have hrun := inv.joins.decrement p mem_cons_self
    have hcount := (perm_cons_erase hrun).countP_eq Task.isLeaf
    rw [countP_cons_of_neg (by simp [Task.isLeaf])] at hcount
    exact hcount.symm
  | deleteWork p =>
    refine potential_note R rfl rfl (by simp) ?_
    rw [weights_dismiss]
    exact Nat.one_pos
  | dismiss s =>
    exact potential_leave R inv.dismiss_leaves inv.unused_of_dismiss.2.1
      (series_apply rfl Series.finished (by rfl)) rfl (by simp [weights, Frame.weight])
  | dismissEnd s =>
    have hs : s < h.created := by
      by_contra hlt
      have hunborn := inv.births.unborn s (Nat.not_lt.mp hlt)
      exact hunborn.2.2.2.2.1 (inv.drops.dismissLoop s mem_cons_self)
    have hslack := slack_close R hs rfl (by simp)
    have hrunning : ((h.setSeries s fun x => { x with finished := true }).record
      (.deleteSeries s)).running = h.running := rfl
    have hold : weights [.dismissLoop s] = 1 := rfl
    have hnew : weights [] = 0 := rfl
    rw [Heap.potential, Heap.potential, hrunning, ← hslack, hold, hnew]
    omega

theorem potential_append (h : Heap) (F F' : List Frame) :
    h.potential (F ++ F') = h.potential F + weights F' := by
  rw [Heap.potential, Heap.potential, weights_append]
  omega

theorem step_descends {s s' : State} {a : Action} (inv : Inv s.heap s.frames)
    (ha : a.internal = true) (hstep : step s a = some s') :
    s'.heap.potential s'.frames < s.heap.potential s.frames := by
  cases a with
  | complete n =>
    obtain ⟨hg, rfl⟩ := of_guard hstep
    have R : Records s.heap (s.heap.land (.leaf n)) [] := ⟨rfl, rfl, rfl⟩
    have hslack := slack_note R rfl (by simp)
    have hcount := (perm_cons_erase hg).countP_eq Task.isLeaf
    rw [countP_cons_of_pos rfl] at hcount
    have hrunning : (s.heap.land (.leaf n)).running = s.heap.running.erase (.leaf n) := rfl
    have hdone : weights [.done (.leaf n)] = 3 := rfl
    change (s.heap.land (.leaf n)).potential ([.done (.leaf n)] ++ s.frames) < _
    rw [potential_append, Heap.potential, Heap.potential, hslack, hdone, hrunning, hcount]
    omega
  | run thread sync =>
    obtain ⟨f, others, new, extra, hperm, heq, e⟩ := step_run hstep
    have hlt := e.descends (inv.perm hperm.symm)
    have hweights : weights s.frames = weights ([f] ++ others) := (hperm.map _).sum_eq
    have hpotential : s.heap.potential s.frames = s.heap.potential ([f] ++ others) := by
      rw [Heap.potential, Heap.potential, hweights]
    rw [heq, hpotential, potential_append, potential_append]
    exact Nat.add_lt_add_right hlt _
  | _ => cases ha

theorem internal_run_bound {s s' : State} (inv : Inv s.heap s.frames) (as : List Action)
    (has : ∀ a ∈ as, a.internal = true) (hrun : run step s as = some s') :
    as.length ≤ s.heap.potential s.frames := by
  induction as generalizing s with
  | nil => exact Nat.zero_le _
  | cons a as ih =>
    obtain ⟨s₁, hstep, hrun⟩ := Option.bind_eq_some_iff.mp hrun
    obtain ⟨ha, has⟩ := forall_mem_cons.mp has
    have hlt := step_descends inv ha hstep
    have hle := ih (step_inv inv hstep) has hrun
    rw [length_cons]
    omega

theorem count_le_one {e : Event} (l : List Event) (hl : ∀ l', e :: l' <:+ l → e ∉ l') :
    l.count e ≤ 1 := by
  induction l with
  | nil => exact Nat.zero_le _
  | cons x l ih =>
    by_cases hx : x = e
    · subst hx
      rw [count_cons_self, count_eq_zero.mpr (hl l (suffix_refl _))]
    · rw [count_cons_of_ne hx]
      exact ih (fun l' hl' => hl l' (hl'.trans (suffix_cons x l)))

theorem suffix_of_mem {e : Event} {l : List Event} (he : e ∈ l) :
    ∃ l', e :: l' <:+ l ∧ l'.length < l.length := by
  obtain ⟨l₁, l₂, rfl⟩ := append_of_mem he
  refine ⟨l₂, suffix_append _ _, ?_⟩
  rw [length_append, length_cons]
  omega

theorem History.start_later (hist : History h) {i : SeriesId} {l l' : List Event}
    (hi : .start i :: l <:+ h.log) (hp : h.pointer (.work p) = some i)
    (hs : .start s :: l' <:+ h.log) (hparallel : (h.series s).inParallel = some p) :
    l.length < l'.length := by
  obtain ⟨l₁, hl₁, hlt₁⟩ := suffix_of_mem ((hist _ _ hs).2 p hparallel)
  have hl₁' := (hl₁.trans (suffix_cons _ _)).trans hs
  obtain ⟨-, j, hj, hstart, -⟩ := hist _ _ hl₁'
  rw [hp] at hj
  cases hj
  by_contra hle
  have hsuffix : l₁ <:+ l :=
    suffix_of_suffix_length_le ((suffix_cons _ _).trans hl₁')
      ((suffix_cons _ _).trans hi) (by omega)
  exact (hist _ _ hi).1 (hsuffix.subset hstart)

theorem Inv.finished_of_rest (inv : Inv h []) (hleaf : ∀ n, .leaf n ∉ h.running) (n : ℕ) :
    ∀ i l, .start i :: l <:+ h.log → h.log.length ≤ l.length + n → .finish i ∈ h.log := by
  induction n with
  | zero =>
    intro i l hl hlength
    have := hl.length_le
    rw [length_cons] at this
    omega
  | succ n ih =>
    intro i l hl hlength
    by_contra hfinish
    have hstart : .start i ∈ h.log := hl.subset mem_cons_self
    -- the control of the series is at a task that runs, and so at a work
    have htoken := inv.control.token i
    rw [if_pos ⟨hstart, hfinish⟩] at htoken
    have hrun : some i ∈ h.running.map h.pointer := by
      refine count_pos_iff.mp ?_
      rw [Heap.tokens, holdings, flatMap_nil, count_nil] at htoken
      omega
    obtain ⟨t, ht, hpointer⟩ := mem_map.mp hrun
    cases t with
    | leaf m => exact hleaf m ht
    | work p =>
      have hpos := inv.joins.nleft_pos p ht
      rw [inv.joins.nleft p ht, count_nil, Nat.add_zero] at hpos
      obtain ⟨s, hs, hopen⟩ := countP_pos_iff.mp hpos
      obtain ⟨hdispatch, hdone⟩ := inv.control.active _ (.inl ht)
      have hparallel := (inv.joins.members p hdone (inv.places.not_deleted hdispatch) s).mp hs
      have hleft := inv.forks.left s
      have hforked : h.forked s = true := by simp [Heap.forked, hparallel, hdispatch]
      have hstarted : .start s ∈ h.log := by
        by_contra hnot
        rw [if_pos ⟨hforked, hnot⟩] at hleft
        cases hleft
      obtain ⟨l', hl', -⟩ := suffix_of_mem hstarted
      have hlater := inv.history.start_later hl hpointer hl' hparallel
      have hdone := ih s l' hl' (by omega)
      exact (of_decide_eq_true hopen) hdone

theorem State.Quiet.finished {s : State} (hs : s.Quiet) (inv : Inv s.heap s.frames)
    {i : SeriesId} (hi : .start i ∈ s.heap.log) : .finish i ∈ s.heap.log := by
  rw [hs.frames] at inv
  obtain ⟨l, hl, -⟩ := suffix_of_mem hi
  exact inv.finished_of_rest hs.running s.heap.log.length i l hl (Nat.le_add_left _ _)

theorem State.Quiet.dispatched {s : State} (hs : s.Quiet) (inv : Inv s.heap s.frames)
    {i : SeriesId} (hi : .start i ∈ s.heap.log) (hcanceled : (s.heap.series i).canceled = false)
    (ht : s.heap.pointer t = some i) (hdisplace : .displace t ∉ s.heap.log) :
    s.heap.log.count (.dispatch t) = 1 := by
  have hclosed := inv.births.ended i (hs.finished inv hi)
  obtain ⟨hqueue, hlast⟩ := inv.births.closed i hclosed
  have hwaiting : s.heap.waiting i = [] := by simp [Heap.waiting, hi, hqueue, hlast]
  have hdelete : .delete t ∉ s.heap.log := by
    intro hmem
    rcases inv.drops.deleted i t ht (.inr hmem) with htrue | hdismiss
    · rw [hcanceled] at htrue
      cases htrue
    · exact (inv.drops.dismissed i hdismiss).2 hi
  have hone := inv.places.once i t ht
  rw [hwaiting, hs.frames, Heap.taken, count_append, count_taken,
    count_eq_zero.mpr hdelete, count_eq_zero.mpr hdisplace, count_nil] at hone
  rw [holdings, flatMap_nil, count_nil] at hone
  omega

theorem Inv.callback_of_done {l : List Event} (inv : Inv h F) (hl : l <:+ h.log)
    (hp : .done (.work p) ∈ l) : .callback p ∈ l := by
  obtain ⟨l', hl', -⟩ := suffix_of_mem hp
  have hcallback := (inv.history _ _ (hl'.trans hl)).2.2 p rfl
  exact hl'.subset (mem_cons_of_mem _ hcallback)

theorem State.Quiet.done {s : State} (hs : s.Quiet) (inv : Inv s.heap s.frames)
    (ht : .dispatch t ∈ s.heap.log) : .done t ∈ s.heap.log := by
  obtain ⟨i, hi, hstart⟩ := inv.history.start_of_dispatch ht
  rcases inv.control.busy _ ht with hdone | hrun | hframe
  · exact hdone
  · have hzero := inv.control.token i
    rw [if_neg (fun hand => hand.2 (hs.finished inv hstart))] at hzero
    exact absurd hi ((tokens_eq_zero hzero).2 _ hrun)
  · rw [hs.frames] at hframe
    cases hframe

theorem State.Quiet.called {s : State} (hs : s.Quiet) (inv : Inv s.heap s.frames)
    (hp : .dispatch (.work p) ∈ s.heap.log) : s.heap.log.count (.callback p) = 1 := by
  have hle := count_le_one s.heap.log (fun l' hl' => (inv.history (.callback p) l' hl').1)
  have hcallback := inv.callback_of_done (suffix_refl _) (hs.done inv hp)
  have hpos := count_pos_iff.mpr hcallback
  omega

theorem State.Quiet.members_started {s : State} (hs : s.Quiet) (inv : Inv s.heap s.frames)
    (hp : .dispatch (.work p) ∈ s.heap.log) {i : SeriesId}
    (hi : (s.heap.series i).inParallel = some p) : .start i ∈ s.heap.log := by
  by_contra hnot
  have hleft := inv.forks.left i
  have hforked : s.heap.forked i = true := by simp [Heap.forked, hi, hp]
  rw [if_pos ⟨hforked, hnot⟩, hs.frames] at hleft
  cases hleft

/-- Each task is dispatched at most once, after every earlier task of its series; a work calls back
    once, after all its series. A run that users leave alone ends, and then nothing is left out but
    what was displaced from `last`. -/
theorem workflow_fork_join {s : State} (hs : Reachable step State.init s) :
    (∀ t, s.heap.log.count (.dispatch t) ≤ 1) ∧
    (∀ t l, .dispatch t :: l <:+ s.heap.log → ∀ u, s.heap.pointer u = s.heap.pointer t →
      .dispatch u ∈ l → .done u ∈ l ∧ ∀ p, u = .work p → .callback p ∈ l) ∧
    (∀ p l, .callback p :: l <:+ s.heap.log → .callback p ∉ l ∧
      ∀ i, (s.heap.series i).inParallel = some p → .finish i ∈ l) ∧
    (∃ n, ∀ as s', (∀ a ∈ as, a.internal = true) → run step s as = some s' → as.length ≤ n) ∧
    (s.Quiet →
      (∀ i, .start i ∈ s.heap.log → (s.heap.series i).canceled = false →
        ∀ t, s.heap.pointer t = some i → .displace t ∉ s.heap.log →
          s.heap.log.count (.dispatch t) = 1) ∧
      ∀ p, .dispatch (.work p) ∈ s.heap.log → s.heap.log.count (.callback p) = 1 ∧
        ∀ i, (s.heap.series i).inParallel = some p → .start i ∈ s.heap.log) := by
  have inv := reachable_inv hs
  refine ⟨?_, ?_, ?_, ?_, ?_⟩
  · intro t
    exact count_le_one s.heap.log (fun l hl => (inv.history (.dispatch t) l hl).1)
  · intro t l hl u hu hd
    obtain ⟨-, i, hi, -, hdone⟩ := inv.history (.dispatch t) l hl
    have hmem := hdone u (hu.trans hi) hd
    refine ⟨hmem, ?_⟩
    rintro p rfl
    exact inv.callback_of_done ((suffix_cons _ _).trans hl) hmem
  · intro p l hl
    obtain ⟨honce, -, hfinish⟩ := inv.history (.callback p) l hl
    exact ⟨honce, hfinish⟩
  · exact ⟨_, fun as s' has hrun => internal_run_bound inv as has hrun⟩
  · intro hquiet
    refine ⟨?_, ?_⟩
    · intro i hi hcanceled t ht hdisplace
      exact hquiet.dispatched inv hi hcanceled ht hdisplace
    · intro p hp
      exact ⟨hquiet.called inv hp, fun i hi => hquiet.members_started inv hp hi⟩

def forkRun : List Action :=
  [.newSeries (.leaf 0), .pushBack 0 (.work 0), .newSeries (.leaf 1), .addSeries 0 1,
    .pushBack 0 (.leaf 2), .start 0, .run [.dispatch (.leaf 0)] true, .run [.done (.leaf 0)] true,
    .run [.pop 0 none] true, .run [.popTask 0 none false] true, .run [.dispatch (.work 0)] true,
    .run [.loop 0 [1]] true, .run [.dispatch (.leaf 1), .loop 0 []] false, .run [.loop 0 []] true,
    .complete 1, .run [.done (.leaf 1)] true, .run [.pop 1 (some 0)] true,
    .run [.popTask 1 (some 0) false] true, .run [.callback 1 (some 0)] true,
    .run [.decrement 0] true, .run [.done (.work 0)] true, .run [.pop 0 none] true,
    .run [.popTask 0 none false] true, .run [.dispatch (.leaf 2)] true, .run [.done (.leaf 2)] true,
    .run [.pop 0 none] true, .run [.popTask 0 none false] true, .run [.callback 0 none] true]

theorem quiet_of_rest {s : State} (hthreads : ∀ thread ∈ s.threads, thread = [])
    (hrunning : s.heap.running = []) : s.Quiet := by
  intro a ha
  cases a with
  | complete n => simp [step, hrunning]
  | run thread sync =>
    cases thread with
    | nil => rfl
    | cons f rest =>
      have hnot : f :: rest ∉ s.threads := fun hmem => cons_ne_nil _ _ (hthreads _ hmem)
      simp [step, hnot]
  | _ => cases ha

theorem forkRun_joins : ∃ s, run step State.init forkRun = some s ∧ s.Quiet ∧
    s.heap.log.count (.callback 0) = 1 ∧ s.heap.log.count (.dispatch (.leaf 2)) = 1 := by
  obtain ⟨s, hs, hthreads, hrunning, hwork, hleaf, hstart, hcanceled, hdisplace⟩ :
      ∃ s, run step State.init forkRun = some s ∧ s.threads = [[], []] ∧ s.heap.running = [] ∧
        .dispatch (.work 0) ∈ s.heap.log ∧ s.heap.pointer (.leaf 2) = some 0 ∧
        .start 0 ∈ s.heap.log ∧ (s.heap.series 0).canceled = false ∧
        .displace (.leaf 2) ∉ s.heap.log :=
    ⟨_, rfl, rfl, rfl, by decide, rfl, by decide, rfl, by decide⟩
  have hquiet : s.Quiet := quiet_of_rest (by simp [hthreads]) hrunning
  have hall := (workflow_fork_join (reachable_of_run _ .start hs)).2.2.2.2 hquiet
  exact ⟨s, hs, hquiet, (hall.2 0 hwork).1, hall.1 0 hstart hcanceled _ hleaf hdisplace⟩

/-- A task that a second `set_last_task` displaces is never dispatched. -/
theorem displaced_never_dispatched : ∃ s, Reachable step State.init s ∧ s.Quiet ∧
    .start 0 ∈ s.heap.log ∧ .finish 0 ∈ s.heap.log ∧ (s.heap.series 0).canceled = false ∧
    s.heap.pointer (.leaf 1) = some 0 ∧ s.heap.log.count (.dispatch (.leaf 1)) = 0 := by
  obtain ⟨s, hs, hthreads, hrunning, hrest⟩ : ∃ s, run step State.init
      [.newSeries (.leaf 0), .setLastTask 0 (.leaf 1), .setLastTask 0 (.leaf 2), .start 0,
        .run [.dispatch (.leaf 0)] true, .run [.done (.leaf 0)] true, .run [.pop 0 none] true,
        .run [.popTask 0 none false] true, .run [.dispatch (.leaf 2)] true,
        .run [.done (.leaf 2)] true, .run [.pop 0 none] true, .run [.popTask 0 none false] true,
        .run [.callback 0 none] true] = some s ∧ s.threads = [[]] ∧ s.heap.running = [] ∧
      .start 0 ∈ s.heap.log ∧ .finish 0 ∈ s.heap.log ∧ (s.heap.series 0).canceled = false ∧
      s.heap.pointer (.leaf 1) = some 0 ∧ s.heap.log.count (.dispatch (.leaf 1)) = 0 :=
    ⟨_, rfl, rfl, rfl, by decide, by decide, rfl, rfl, by decide⟩
  exact ⟨s, reachable_of_run _ .start hs, quiet_of_rest (by simp [hthreads]) hrunning, hrest⟩

end MyWorkflow.Workflow
