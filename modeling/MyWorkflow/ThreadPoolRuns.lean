import MyWorkflow.ThreadPoolThreads

set_option autoImplicit false

namespace MyWorkflow.ThreadPool
open List Runs Bags

variable {s s' : State} {i : ThreadId} {l : List ThreadId}

/-- The destroyer has not begun to drain the queue, or the step does not put anything in it. -/
def Allowed (s : State) (a : Action) : Prop :=
  a = .schedule ∨ a = .increase → s.stage.passed = false

instance (s : State) (a : Action) : Decidable (Allowed s a) :=
  inferInstanceAs (Decidable (_ → _))

structure Tasks (s : State) : Prop where
  once : ∀ t, s.queue.count (.task t) + s.started.count t + s.pending.count t =
    if t < s.scheduled then 1 else 0
  drained : s.stage = .returned → ∀ t, .task t ∉ s.queue

structure Inv (s : State) : Prop where
  threads : Threads s
  exits : ∃ l, Exits s l
  tasks : Tasks s

theorem init_inv (n : ℕ) : Inv (State.init n) where
  threads :=
    { count := by
        have h : total n (fun i => if (State.init n).counts i then 1 else 0) = total n fun _ => 1 :=
          total_congr fun i hi => by simp [State.counts, State.init, hi, Thread.live]
        change (n : ℤ) = _
        rw [show (State.init n).created = n from rfl, h]
        simp [total]
      unborn := by
        intro i
        simp only [State.init]
        split_ifs with hi
        · exact iff_of_false (by simp) (Nat.not_le.mpr hi)
        · exact iff_of_true rfl (Nat.not_lt.mp hi)
      terminate := rfl
      destroyer := by rintro _ ⟨⟩
      passed := by rintro ⟨⟩
      freed := rfl }
  exits :=
    ⟨[],
      { nodup := nodup_nil
        mem := by
          intro i
          simp only [State.init]
          split <;> simp [Thread.left]
        tid := rfl
        chain := trivial
        last := by simp
        other := fun _ _ => rfl
        read := by rintro _ ⟨⟩ }⟩
  tasks := ⟨fun t => by simp [State.init], (by rintro ⟨⟩)⟩

theorem Tasks.schedule (h : Tasks s) (hs : s.stage.passed = false) : Tasks s.schedule := by
  refine ⟨?_, ?_⟩
  · intro t
    have hone := h.once t
    change (s.queue ++ [Entry.task s.scheduled]).count (Entry.task t) + s.started.count t +
      s.pending.count t = if t < s.scheduled + 1 then 1 else 0
    rw [count_append]
    by_cases ht : t = s.scheduled
    · subst ht
      rw [if_neg (Nat.lt_irrefl _)] at hone
      rw [if_pos (Nat.lt_succ_self _), count_singleton_self]
      omega
    · have hne : Entry.task t ∉ [Entry.task s.scheduled] := by simp [ht]
      have hlt : t < s.scheduled + 1 ↔ t < s.scheduled :=
        ⟨fun h => Nat.lt_of_le_of_ne (Nat.lt_succ_iff.mp h) ht, Nat.lt_succ_of_lt⟩
      rw [count_eq_zero_of_not_mem hne]
      simp only [hlt]
      exact hone
  · intro hret
    rw [show s.stage = .returned from hret] at hs
    cases hs

theorem Tasks.decrease (h : Tasks s) : Tasks s.decrease := by
  refine ⟨?_, ?_⟩
  · intro t
    have hone := h.once t
    rw [← count_cons_of_ne (a := Entry.task t) (b := .exit) (by simp)] at hone
    exact hone
  · intro hs t hmem
    rcases mem_cons.mp hmem with h' | h'
    · cases h'
    · exact h.drained hs t h'

theorem Tasks.pop (h : Tasks s) {e : Entry} {queue : List Entry} (hq : s.queue = e :: queue)
    (hqueue : s'.queue = queue) (hscheduled : s'.scheduled = s.scheduled)
    (hstage : s'.stage = s.stage)
    (htask : ∀ t, s'.started.count t + s'.pending.count t =
      s.started.count t + s.pending.count t + [e].count (.task t)) : Tasks s' := by
  refine ⟨?_, ?_⟩
  · intro t
    have hone := h.once t
    have ht := htask t
    rw [hq, ← singleton_append, count_append] at hone
    rw [hqueue, hscheduled]
    omega
  · intro hs t hmem
    rw [hstage] at hs
    rw [hqueue] at hmem
    exact h.drained hs t (by rw [hq]; exact mem_cons_of_mem _ hmem)

theorem count_task_singleton (l : List TaskId) (t u : TaskId) :
    (l ++ [t]).count u = l.count u + [Entry.task t].count (.task u) := by
  rw [count_append, count_singleton, count_singleton]
  congr 1
  by_cases h : t = u <;> simp [h]

theorem Inv.move (inv : Inv s) (hd : s.destroyer ≠ some i) (hi : (s.thread i).live = true)
    {x : Thread} (hx : x.live = true) (htasks : Tasks s')
    (hs : s' = { s.setThread i x with
      queue := s'.queue
      started := s'.started }) : Inv s' := by
  have hleft : ∀ {y : Thread}, y.live = true → y.left = false := by
    intro y hy
    cases y <;> first | rfl | cases hy
  obtain ⟨l, hl⟩ := inv.exits
  have hthreads := inv.threads.move hd hi hx
  have hexits := hl.move (hleft hi) (.inl (hleft hx))
  rw [hs] at htasks ⊢
  exact ⟨{ hthreads with }, ⟨l, hexits.frame rfl rfl rfl rfl rfl⟩, htasks⟩

theorem Inv.get (inv : Inv s) (hi : s.thread i = .getting) (h : s.get i = some s') : Inv s' := by
  have hd := inv.threads.not_destroyer hi (by simp)
  have hlive : (s.thread i).live = true := by rw [hi]; rfl
  unfold State.get at h
  split at h
  · next t queue hq =>
    cases h
    refine inv.move hd hlive (x := .running t) rfl ?_ rfl
    refine inv.tasks.pop hq rfl rfl rfl ?_
    intro u
    have hu := count_task_singleton s.started t u
    change (s.started ++ [t]).count u + s.pending.count u = _
    omega
  · next queue hq =>
    cases h
    exact inv.move hd hlive (x := .exiting) rfl (inv.tasks.pop hq rfl rfl rfl fun u => rfl) rfl
  · split_ifs at h
    cases h
    exact inv.move hd hlive (x := .exiting) rfl ({ inv.tasks with }) rfl

theorem Inv.drain (inv : Inv s) (hs : s.stage = .draining) : Inv s.drain := by
  obtain ⟨l, hl⟩ := inv.exits
  unfold State.drain
  split
  · next t queue hq =>
    refine ⟨{ inv.threads with }, ⟨l, hl.frame rfl rfl rfl rfl rfl⟩, ?_⟩
    refine inv.tasks.pop hq rfl rfl rfl ?_
    intro u
    have hu := count_task_singleton s.pending t u
    change s.started.count u + (s.pending ++ [t]).count u = _
    omega
  · next queue hq =>
    exact ⟨{ inv.threads with }, ⟨l, hl.frame rfl rfl rfl rfl rfl⟩,
      inv.tasks.pop hq rfl rfl rfl fun u => rfl⟩
  · next hq =>
    have hexits := hl.setStage .returned (by rw [hs]; rfl) (by simp)
    refine ⟨inv.threads.returned hs, ⟨l, hexits.frame rfl rfl rfl rfl rfl⟩, inv.tasks.once, ?_⟩
    intro _ t ht
    rw [show s.queue = [] from hq] at ht
    cases ht

theorem step_inv {a : Action} (inv : Inv s) (ha : Allowed s a) (h : step s a = some s') :
    Inv s' := by
  obtain ⟨l, hl⟩ := inv.exits
  cases a with
  | schedule =>
    cases h
    exact ⟨{ inv.threads with }, ⟨l, hl.frame rfl rfl rfl rfl rfl⟩,
      inv.tasks.schedule (ha (.inl rfl))⟩
  | increase =>
    cases h
    have hu := (inv.threads.unborn s.created).mpr (Nat.le_refl _)
    have hexits := hl.move (i := s.created) (x := .top) (by rw [hu]; rfl) (.inl rfl)
    exact ⟨inv.threads.increase (ha (.inr rfl)), ⟨l, hexits.frame rfl rfl rfl rfl rfl⟩,
      { inv.tasks with }⟩
  | decrease =>
    cases h
    exact ⟨{ inv.threads with }, ⟨l, hl.frame rfl rfl rfl rfl rfl⟩, inv.tasks.decrease⟩
  | exit i =>
    simp only [step] at h
    split at h
    · next t hi =>
      split_ifs at h with hd
      cases h
      exact inv.move hd (by rw [hi]; rfl) (x := .exiting) rfl
        ({ inv.tasks with }) rfl
    · cases h
  | destroy who =>
    simp only [step] at h
    split_ifs at h with hs
    have hd := (inv.threads.before hs).1
    have htasks : ∀ who, Tasks (s.terminateSection who) :=
      fun who => ⟨inv.tasks.once, by rintro ⟨⟩⟩
    cases who with
    | none =>
      cases h
      exact ⟨inv.threads.destroyOutside hs, ⟨l, hl.destroy hs hd none (by simp)⟩, htasks none⟩
    | some i =>
      simp only at h
      split at h
      · next t hi =>
        cases h
        refine ⟨inv.threads.destroyInside hs hi, ⟨l, hl.destroy hs hd (some i) ?_⟩,
          htasks (some i)⟩
        intro j hj
        cases hj
        rw [hi]
        rfl
      · cases h
  | loop i =>
    simp only [step] at h
    split at h
    · next hi =>
      cases h
      have hd := inv.threads.not_destroyer hi (by simp)
      refine inv.move hd (by rw [hi]; rfl) ?_ ({ inv.tasks with }) rfl
      split <;> rfl
    · cases h
  | get i =>
    simp only [step] at h
    split_ifs at h with hi
    exact inv.get hi h
  | finish i =>
    simp only [step] at h
    split at h
    · next t hi =>
      split_ifs at h with hd
      cases h
      exact ⟨inv.threads.finish hi hd, ⟨l, hl.move (by rw [hi]; rfl) (.inl rfl)⟩,
        { inv.tasks with }⟩
    · cases h
  | check i =>
    obtain ⟨hi, rfl⟩ := of_guard h
    refine ⟨inv.threads.check hi, ⟨l, ?_⟩, ?_⟩
    · unfold State.check
      split_ifs with hzero
      · have hd := inv.threads.nthreads_zero hzero (i := i) (by rw [hi]; rfl)
        have hexits := hl.move (i := i) (x := .ended) (by rw [hi]; rfl) (.inr hd)
        exact hexits.frame rfl rfl rfl rfl rfl
      · exact hl.move (by rw [hi]; rfl) (.inl rfl)
    · unfold State.check
      split_ifs <;> exact { inv.tasks with }
  | exitStep i =>
    obtain ⟨hi, rfl⟩ := of_guard h
    have hd := inv.threads.not_destroyer hi (by simp)
    have hs := inv.threads.not_passed (i := i) (by simp [State.counts, hi, hd, Thread.live])
    exact ⟨inv.threads.exitStep hi, ⟨i :: l, hl.exitStep hi hd hs⟩,
      { inv.tasks with }⟩
  | join i =>
    simp only [step] at h
    split at h
    · next tid hi =>
      obtain ⟨s₁, hjoin, rfl⟩ := Option.map_eq_some_iff.mp h
      obtain ⟨joined, rfl, hended, hother⟩ := join_spec hjoin
      have hd := inv.threads.not_destroyer hi (by simp)
      exact ⟨inv.threads.ended hi joined, ⟨l, hl.join hi hd hended hother⟩,
        { inv.tasks with }⟩
    · cases h
  | pass =>
    obtain ⟨hs, rfl⟩ := of_guard h
    have hzero : s.nthreads = 0 := by
      have hnonneg := inv.threads.nonneg
      omega
    refine ⟨inv.threads.setStage .unlocked s.joined (by simp [hs.1]) (by simp) (by simp [hs.1])
      (by simp) (fun _ => hzero), ⟨l, hl.setStage .unlocked (by rw [hs.1]; rfl) (by simp)⟩,
      ⟨inv.tasks.once, by simp⟩⟩
  | readTid =>
    obtain ⟨hs, rfl⟩ := of_guard h
    have hzero := inv.threads.passed (by rw [hs]; rfl)
    refine ⟨inv.threads.setStage (.joining s.tid) s.joined (by simp [hs]) (by simp) (by simp [hs])
      (by simp) (fun _ => hzero), ⟨l, hl.setStage (.joining s.tid) (by rw [hs]; rfl) ?_⟩,
      ⟨inv.tasks.once, by simp⟩⟩
    intro t ht
    cases ht
    rfl
  | destroyJoin =>
    simp only [step] at h
    split at h
    · next tid hs =>
      obtain ⟨s₁, hjoin, rfl⟩ := Option.map_eq_some_iff.mp h
      obtain ⟨joined, rfl, hended, hother⟩ := join_spec hjoin
      have hzero := inv.threads.passed (by rw [hs]; rfl)
      exact ⟨inv.threads.setStage .draining joined (by simp [hs]) (by simp) (by simp [hs]) (by simp)
        (fun _ => hzero), ⟨l, hl.destroyJoin hs hended hother⟩, ⟨inv.tasks.once, by simp⟩⟩
    · cases h
  | drain =>
    obtain ⟨hs, rfl⟩ := of_guard h
    exact inv.drain hs

theorem reaches_inv {n : ℕ} (h : Reaches step Allowed (State.init n) s) : Inv s :=
  h.invariant (P := Inv) (init_inv n) fun _ _ _ inv ha hstep => step_inv inv ha hstep

def Action.own : Action → Bool
  | .schedule | .increase | .decrease | .exit _ | .destroy _ => false
  | _ => true

def Thread.rank : Thread → ℕ
  | .unborn | .ended => 0
  | .joining _ => 1
  | .exiting => 2
  | .getting => 3
  | .top => 4
  | .ran => 5
  | .running _ => 6

def Stage.rank : Stage → ℕ
  | .none | .returned => 0
  | .draining => 1
  | .joining _ => 2
  | .unlocked => 3
  | .waiting => 4

def State.potential (s : State) : ℕ :=
  4 * s.queue.length + total s.created (fun i => (s.thread i).rank) + s.stage.rank

theorem rank_setThread (hi : i < s.created) (x : Thread) :
    total s.created (fun j => ((s.setThread i x).thread j).rank) + (s.thread i).rank =
      total s.created (fun j => (s.thread j).rank) + x.rank := by
  have hchange := total_change hi (f := fun j => (s.thread j).rank)
    (g := fun j => ((s.setThread i x).thread j).rank)
    (fun j hj => by rw [setThread_of_ne s x hj])
  simp only [setThread_self] at hchange
  exact hchange

theorem potential_setThread (h : Threads s) {x y : Thread} (hi : s.thread i = y)
    (hborn : y ≠ .unborn)
    (hless : 4 * s'.queue.length + x.rank < 4 * s.queue.length + y.rank)
    (hsame : s'.created = s.created ∧ s'.thread = (s.setThread i x).thread ∧
      s'.stage = s.stage) : s'.potential < s.potential := by
  subst hi
  have hrank := rank_setThread (h.lt_created hborn) x
  unfold State.potential
  rw [hsame.1, hsame.2.1, hsame.2.2]
  omega

theorem own_descends {a : Action} (inv : Threads s) (ha : a.own = true)
    (h : step s a = some s') : s'.potential < s.potential := by
  cases a with
  | loop i =>
    simp only [step] at h
    split at h
    · next hi =>
      cases h
      refine potential_setThread inv hi (by simp) ?_ ⟨rfl, rfl, rfl⟩
      split <;> simp [State.setThread, Thread.rank]
    · cases h
  | get i =>
    simp only [step] at h
    split_ifs at h with hi
    unfold State.get at h
    split at h
    · next t queue hq =>
      cases h
      refine potential_setThread inv (x := .running t) hi (by simp) ?_ ⟨rfl, rfl, rfl⟩
      rw [hq]
      simp only [Thread.rank, length_cons]
      omega
    · next queue hq =>
      cases h
      refine potential_setThread inv (x := .exiting) hi (by simp) ?_ ⟨rfl, rfl, rfl⟩
      rw [hq]
      simp only [Thread.rank, length_cons]
      omega
    · split_ifs at h
      cases h
      exact potential_setThread inv (x := .exiting) hi (by simp) (Nat.lt_succ_self _) ⟨rfl, rfl, rfl⟩
  | finish i =>
    simp only [step] at h
    split at h
    · next t hi =>
      split_ifs at h
      cases h
      exact potential_setThread inv (x := .ran) hi (by simp) (Nat.lt_succ_self _) ⟨rfl, rfl, rfl⟩
    · cases h
  | check i =>
    obtain ⟨hi, rfl⟩ := of_guard h
    unfold State.check
    split_ifs
    · refine potential_setThread inv (x := .ended) hi (by simp) ?_ ⟨rfl, rfl, rfl⟩
      simp [State.setThread, Thread.rank]
    · exact potential_setThread inv (x := .top) hi (by simp) (Nat.lt_succ_self _) ⟨rfl, rfl, rfl⟩
  | exitStep i =>
    obtain ⟨hi, rfl⟩ := of_guard h
    exact potential_setThread inv (x := .joining s.tid) hi (by simp) (Nat.lt_succ_self _)
      ⟨rfl, rfl, rfl⟩
  | join i =>
    simp only [step] at h
    split at h
    · next tid hi =>
      obtain ⟨s₁, hjoin, rfl⟩ := Option.map_eq_some_iff.mp h
      obtain ⟨joined, rfl, -⟩ := join_spec hjoin
      exact potential_setThread inv (x := .ended) hi (by simp) (Nat.lt_succ_self _) ⟨rfl, rfl, rfl⟩
    · cases h
  | pass =>
    obtain ⟨hs, rfl⟩ := of_guard h
    simp [State.potential, hs.1, Stage.rank]
  | readTid =>
    obtain ⟨hs, rfl⟩ := of_guard h
    simp [State.potential, hs, Stage.rank]
  | destroyJoin =>
    simp only [step] at h
    split at h
    · next tid hs =>
      obtain ⟨s₁, hjoin, rfl⟩ := Option.map_eq_some_iff.mp h
      obtain ⟨joined, rfl, -⟩ := join_spec hjoin
      simp [State.potential, hs, Stage.rank]
    · cases h
  | drain =>
    obtain ⟨hs, rfl⟩ := of_guard h
    unfold State.drain
    split
    · next t queue hq =>
      simp only [State.potential, hq, length_cons]
      omega
    · next queue hq =>
      simp only [State.potential, hq, length_cons]
      omega
    · simp [State.potential, hs, Stage.rank]
  | schedule | increase | decrease | exit | destroy => cases ha

theorem Chained.settled (h : Chained s l)
    (hno : ∀ i tid, s.thread i = .joining tid → s.join (some i) tid = none) :
    ∀ i ∈ l, s.thread i = .ended := by
  induction l with
  | nil => simp
  | cons a l ih =>
    cases l with
    | nil =>
      intro i hi
      rw [mem_singleton.mp hi]
      rcases h with h | h
      · have hnone := hno a none h
        cases hnone
      · exact h
    | cons b l =>
      obtain ⟨hab, hrest⟩ := h
      have hended := ih hrest
      refine forall_mem_cons.mpr ⟨?_, hended⟩
      rcases hab with ⟨hjoining, -⟩ | ⟨ha, -⟩
      · have hnone := hno a (some b) hjoining
        rw [State.join, if_pos (hended b mem_cons_self)] at hnone
        cases hnone
      · exact ha

section Settled

variable (inv : Inv s) (hs : s.stage ≠ .none)
  (hquiet : ∀ a : Action, a.own = true → step s a = none)
include inv hs hquiet

theorem not_live_of_quiet (hd : s.destroyer ≠ some i) : (s.thread i).live = false := by
  cases hi : s.thread i with
  | top => simpa [step, hi] using hquiet (.loop i) rfl
  | getting =>
    have hterm : s.terminate = true := by rw [inv.threads.terminate, decide_eq_true hs]
    have hnone := hquiet (.get i) rfl
    simp only [step, hi, if_true, State.get, hterm] at hnone
    split at hnone <;> cases hnone
  | running t => simpa [step, hi, hd] using hquiet (.finish i) rfl
  | ran => simpa [step, hi] using hquiet (.check i) rfl
  | exiting => simpa [step, hi] using hquiet (.exitStep i) rfl
  | unborn | joining | ended => rfl

theorem returned_of_quiet : s.stage = .returned := by
  have hzero : s.nthreads = 0 := by
    rw [inv.threads.count, total_eq_zero]
    · rfl
    · intro i _
      by_cases hd : s.destroyer = some i
      · simp [State.counts, hd]
      · simp [State.counts, not_live_of_quiet inv hs hquiet hd]
  obtain ⟨l, hl⟩ := inv.exits
  have hended := hl.chain.settled (by
    intro i tid hi
    simpa [step, hi] using hquiet (.join i) rfl)
  cases hst : s.stage with
  | none => exact absurd hst hs
  | waiting => simpa [step, hst, hzero] using hquiet .pass rfl
  | unlocked => simpa [step, hst] using hquiet .readTid rfl
  | joining tid =>
    have hnone := hquiet .destroyJoin rfl
    have htid := (hl.read tid hst).trans hl.tid
    simp only [step, hst, htid] at hnone
    cases l with
    | nil => simp [State.join] at hnone
    | cons b l => simp [State.join, hended b mem_cons_self] at hnone
  | draining => simpa [step, hst] using hquiet .drain rfl
  | returned => rfl

theorem freed_of_quiet : s.freed = 1 := by
  have hret := returned_of_quiet inv hs hquiet
  have hgone : s.gone = true := by
    unfold State.gone
    cases hd : s.destroyer with
    | none => exact decide_eq_true hret
    | some i =>
      obtain ⟨-, ⟨t, ht⟩ | ⟨-, hran | hended⟩⟩ := inv.threads.destroyer i hd
      · simpa [step, ht, hret] using hquiet (.finish i) rfl
      · simpa [step, hran] using hquiet (.check i) rfl
      · exact decide_eq_true hended
  rw [inv.threads.freed, hgone]
  rfl

end Settled

theorem Stage.passed_of_joined {stage : Stage} (h : stage.joined = true) :
    stage.passed = true := by
  cases stage <;> first | rfl | cases h

theorem Thread.live_or_left {x : Thread} (h : x ≠ .unborn) : x.live = true ∨ x.left = true := by
  cases x <;> first | exact absurd rfl h | exact .inl rfl | exact .inr rfl

theorem Inv.joined (inv : Inv s) (hs : s.stage.joined = true) (hi : i < s.created)
    (hd : s.destroyer ≠ some i) : s.thread i = .ended ∧ (s.joined i).length = 1 := by
  have hzero := inv.threads.passed (Stage.passed_of_joined hs)
  have hborn : s.thread i ≠ .unborn := by
    rw [Ne, inv.threads.unborn i]
    exact Nat.not_le.mpr hi
  have hleft : (s.thread i).left = true := by
    refine (Thread.live_or_left hborn).resolve_left ?_
    intro hlive
    exact hd (inv.threads.nthreads_zero hzero hlive)
  obtain ⟨l, hl⟩ := inv.exits
  have hil := (hl.mem i).mpr ⟨hleft, hd⟩
  cases l with
  | nil => cases hil
  | cons a l =>
    have hlast := hl.last a rfl
    rw [hs] at hlast
    obtain ⟨ha, hjoined⟩ := hlast
    rcases mem_cons.mp hil with rfl | hil
    · exact ⟨ha, by rw [hjoined]; rfl⟩
    · obtain ⟨hended, k, -, hk⟩ := hl.chain.ended ha i hil
      exact ⟨hended, by rw [hk]; rfl⟩

theorem Inv.joined_once (inv : Inv s) (i : ThreadId) :
    s.joined i = [] ∨ ∃ who, who ≠ some i ∧ s.joined i = [who] := by
  obtain ⟨l, hl⟩ := inv.exits
  by_cases hil : i ∈ l
  · cases l with
    | nil => cases hil
    | cons a l =>
      rcases mem_cons.mp hil with rfl | hmem
      · have hlast := hl.last i rfl
        split_ifs at hlast
        · exact .inr ⟨s.destroyer, ((hl.mem i).mp hil).2, hlast.2⟩
        · exact .inl hlast
      · refine (hl.chain.joined_once hl.nodup hmem).imp_right ?_
        rintro ⟨k, hk, hjoined⟩
        exact ⟨some k, fun h => hk (Option.some.inj h), hjoined⟩
  · exact .inl (hl.other i hil)

theorem Inv.freed_once (inv : Inv s) (hfreed : s.freed = 1) :
    s.stage = .returned ∧ ∀ i < s.created, s.thread i = .ended := by
  have hgone : s.gone = true := by
    by_contra hno
    rw [inv.threads.freed, if_neg hno] at hfreed
    cases hfreed
  unfold State.gone at hgone
  cases hd : s.destroyer with
  | none =>
    rw [hd] at hgone
    have hs : s.stage = .returned := of_decide_eq_true hgone
    refine ⟨hs, fun i hi => (inv.joined (by rw [hs]; rfl) hi ?_).1⟩
    rw [hd]
    exact (by simp)
  | some d =>
    rw [hd] at hgone
    have hended : s.thread d = .ended := of_decide_eq_true hgone
    have hs : s.stage = .returned := by
      obtain ⟨-, ⟨t, ht⟩ | ⟨hs, -⟩⟩ := inv.threads.destroyer d hd
      · rw [hended] at ht
        cases ht
      · exact hs
    refine ⟨hs, ?_⟩
    intro i hi
    by_cases hid : i = d
    · rw [hid]
      exact hended
    · refine (inv.joined (by rw [hs]; rfl) hi ?_).1
      rw [hd]
      exact fun h => hid (Option.some.inj h).symm

/-- In every run of the pool each thread is joined at most once and never by itself, the pool is freed
    once, behind its last thread, each task is started or handed to `pending`, and
    `thrdpool_destroy` comes to its end. -/
theorem thrdpool_lifecycle {n : ℕ} (h : Reaches step Allowed (State.init n) s) :
    (∀ i, s.joined i = [] ∨ ∃ who, who ≠ some i ∧ s.joined i = [who]) ∧
    (∀ i, s.destroyer = some i → s.joined i = []) ∧
    (s.stage = .returned → ∀ i < s.created, s.destroyer ≠ some i →
      s.thread i = .ended ∧ (s.joined i).length = 1) ∧
    s.freed ≤ 1 ∧
    (s.freed = 1 → s.stage = .returned ∧ ∀ i < s.created, s.thread i = .ended) ∧
    (∀ i, s.thread i = .ran → s.nthreads = 0 → s.destroyer = some i) ∧
    (∀ t < s.scheduled, s.started.count t + s.pending.count t ≤ 1) ∧
    (s.stage = .returned → ∀ t < s.scheduled, s.started.count t + s.pending.count t = 1) ∧
    (∀ a s', a.own = true → step s a = some s' → s'.potential < s.potential) ∧
    (s.stage ≠ .none → (∀ a : Action, a.own = true → step s a = none) →
      s.stage = .returned ∧ s.freed = 1) := by
  have inv := reaches_inv h
  refine ⟨inv.joined_once, ?_, ?_, ?_, inv.freed_once, ?_, ?_, ?_, ?_, ?_⟩
  · intro i hd
    obtain ⟨l, hl⟩ := inv.exits
    exact hl.other i (fun hil => ((hl.mem i).mp hil).2 hd)
  · intro hs i hi hd
    exact inv.joined (by rw [hs]; rfl) hi hd
  · rw [inv.threads.freed]
    split_ifs <;> decide
  · intro i hi hzero
    exact inv.threads.nthreads_zero hzero (by rw [hi]; rfl)
  · intro t ht
    have hone := inv.tasks.once t
    rw [if_pos ht] at hone
    omega
  · intro hs t ht
    have hone := inv.tasks.once t
    rw [if_pos ht, count_eq_zero_of_not_mem (inv.tasks.drained hs t)] at hone
    omega
  · intro a s' ha hstep
    exact own_descends inv.threads ha hstep
  · intro hs hquiet
    exact ⟨returned_of_quiet inv hs hquiet, freed_of_quiet inv hs hquiet⟩

def insideRun : List Action :=
  [.schedule, .schedule, .schedule, .loop 0, .get 0, .loop 1, .get 1, .destroy (some 0),
    .finish 1, .check 1, .loop 1, .exitStep 1, .pass, .readTid, .join 1, .destroyJoin, .drain,
    .drain, .finish 0, .check 0]

theorem insideRun_lifecycle : ∃ s, guardedRun step Allowed (State.init 2) insideRun = some s ∧
    s.freed = 1 ∧ (s.joined 1).length = 1 ∧ s.joined 0 = [] ∧
    s.started.count 2 + s.pending.count 2 = 1 := by
  obtain ⟨s, hrun, hfreed, hstage, hcreated, hdestroyer, hscheduled⟩ :
      ∃ s, guardedRun step Allowed (State.init 2) insideRun = some s ∧ s.freed = 1 ∧
        s.stage = .returned ∧ s.created = 2 ∧ s.destroyer = some 0 ∧ s.scheduled = 3 :=
    ⟨_, rfl, rfl, rfl, rfl, rfl, rfl⟩
  obtain ⟨-, hself, hjoined, -, -, -, -, htasks, -⟩ :=
    thrdpool_lifecycle (reaches_of_guardedRun insideRun .start hrun)
  refine ⟨s, hrun, hfreed, ?_, hself 0 hdestroyer, ?_⟩
  · exact (hjoined hstage 1 (by rw [hcreated]; decide) (by rw [hdestroyer]; decide)).2
  · exact htasks hstage 2 (by rw [hscheduled]; decide)

def NoLateSchedule (s : State) (a : Action) : Prop := a = .schedule → s.stage = .none

instance (s : State) (a : Action) : Decidable (NoLateSchedule s a) :=
  inferInstanceAs (Decidable (_ → _))

/-- Another thread is created behind the loop of `__thrdpool_terminate`, and the call returns while
    it has not left. -/
theorem late_increase_not_joined : ∃ s, guardedRun step NoLateSchedule (State.init 1)
      [.schedule, .loop 0, .get 0, .destroy (some 0), .pass, .increase, .readTid, .destroyJoin,
        .drain] = some s ∧
    s.stage = .returned ∧ 1 < s.created ∧ s.destroyer ≠ some 1 ∧ s.thread 1 = .top ∧
    s.joined 1 = [] := ⟨_, rfl, rfl, by decide, by decide, rfl, rfl⟩

end MyWorkflow.ThreadPool
