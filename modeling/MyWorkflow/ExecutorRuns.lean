import MyWorkflow.ExecutorInvariant

set_option autoImplicit false

namespace MyWorkflow.Executor
open List ThreadPool Runs Bags

variable {n : ℕ} {s s' : State} {i : ThreadId}

def ExecAction.own : ExecAction → Bool
  | .request _ _ => false
  | .pool a => a.own
  | _ => true

def Routine.rank : Routine → ℕ
  | .none => 0
  | .handling => 1
  | .executing _ => 2
  | .ready _ => 3
  | .rescheduling _ => 40
  | .read _ => 4
  | .entered => 5

def State.potential (s : State) : ℕ :=
  8 * s.pool.potential + 64 * s.list.length + s.sum Routine.rank + if s.canceling then 1 else 0

theorem potential_advance (hborn : i < s.pool.created) {old : Routine} (hi : s.routine i = old)
    (r : Routine)
    (hless : 8 * s'.pool.potential + 64 * s'.list.length + r.rank <
      8 * s.pool.potential + 64 * s.list.length + old.rank)
    (hroutine : s'.routine = (s.setRoutine i r).routine)
    (hcreated : s'.pool.created = s.pool.created) (hcanceling : s'.canceling = s.canceling) :
    s'.potential < s.potential := by
  subst hi
  have hsum := sum_setRoutine hborn r Routine.rank
  have hsame : s'.sum Routine.rank = (s.setRoutine i r).sum Routine.rank := by
    rw [State.sum, hcreated, hroutine]
    rfl
  rw [State.potential, State.potential, hsame, hcanceling]
  omega

theorem potential_schedule (p : ThreadPool.State) : p.schedule.potential = p.potential + 4 := by
  have hlength : p.schedule.queue.length = p.queue.length + 1 := by
    simp [ThreadPool.State.schedule]
  have hschedule : p.schedule.potential = 4 * p.schedule.queue.length +
      total p.created (fun i => (p.thread i).rank) + p.stage.rank := rfl
  rw [hschedule, hlength, ThreadPool.State.potential]
  omega

theorem potential_pool {p : ThreadPool.State} (hcreated : p.created = s.pool.created)
    (hless : p.potential < s.pool.potential) :
    State.potential { s with pool := p } < s.potential := by
  have hsum : State.sum { s with pool := p } Routine.rank = s.sum Routine.rank := by
    rw [State.sum, hcreated]
    rfl
  rw [State.potential, State.potential, hsum]
  change 8 * p.potential + 64 * s.list.length + _ + (if s.canceling then 1 else 0) < _
  omega

theorem get_created {p q : ThreadPool.State} (h : p.get i = some q) : q.created = p.created := by
  unfold ThreadPool.State.get at h
  split at h
  · cases h
    rfl
  · cases h
    rfl
  · split_ifs at h
    cases h
    rfl

theorem drain_created (p : ThreadPool.State) : p.drain.created = p.created := by
  unfold ThreadPool.State.drain
  split <;> rfl

theorem pool_descends {a : Action} (inv : Inv n s) (ha : a.own = true) (hp : s.permits a = true)
    {p : ThreadPool.State} (h : ThreadPool.step s.pool a = some p) :
    (s.poolStep a p).potential < s.potential := by
  have hless := ThreadPool.own_descends inv.threads.threads ha h
  cases a with
  | get i =>
    simp only [ThreadPool.step] at h
    split_ifs at h with hi
    have hlt := inv.threads.threads.lt_created (i := i) (by simp [hi])
    have hnone := inv.routine_none (i := i) (by simp [hi])
    refine potential_advance hlt hnone _ ?_ rfl (get_created h) rfl
    change 8 * p.potential + 64 * s.list.length + _ < _
    split <;> simp only [hnone, Routine.rank] <;> omega
  | finish i =>
    simp only [ThreadPool.step] at h
    split at h
    · next t hi =>
      split_ifs at h
      cases h
      have hlt := inv.threads.threads.lt_created (i := i) (by simp [hi])
      refine potential_advance hlt rfl .none ?_ rfl rfl rfl
      change 8 * (s.pool.setThread i .ran).potential + 64 * s.list.length + 0 < _
      omega
    · cases h
  | drain =>
    obtain ⟨hs, rfl⟩ := of_guard h
    have hc : s.canceling = false := by simpa [State.permits] using hp
    have hsum : (s.poolStep .drain s.pool.drain).sum Routine.rank = s.sum Routine.rank := by
      change total s.pool.drain.created _ = total s.pool.created _
      rw [drain_created]
      rfl
    rw [State.potential, State.potential, hsum, hc]
    change 8 * s.pool.drain.potential + 64 * s.list.length + _ + _ < _
    split_ifs <;> omega
  | loop | check | exitStep | join | pass | readTid | destroyJoin =>
    exact potential_pool (plain_alike rfl h).created hless
  | schedule | increase | decrease | exit | destroy => cases ha

theorem own_descends {a : ExecAction} (inv : Inv n s) (ha : a.own = true)
    (h : step s a = some s') : s'.potential < s.potential := by
  cases a with
  | request entryOk taskOk => cases ha
  | pool a =>
    simp only [step] at h
    split_ifs at h with hp
    obtain ⟨p, hstep, rfl⟩ := Option.map_eq_some_iff.mp h
    exact pool_descends inv ha hp hstep
  | readHead i =>
    simp only [step] at h
    split at h
    · next hi =>
      cases h
      exact potential_advance (inv.lt_created (by simp [hi])) hi _ (Nat.lt_succ_self _) rfl rfl rfl
    · cases h
  | takeSection i =>
    simp only [step] at h
    split at h
    · next x hi =>
      cases h
      have hmem : x ∈ s.list := mem_of_mem_head? (inv.reading i _ hi).symm
      have hlength := length_erase_of_mem hmem
      have hpos := length_pos_of_mem hmem
      refine potential_advance (inv.lt_created (by simp [hi])) hi _ ?_ rfl rfl rfl
      change 8 * s.pool.potential + 64 * (s.list.erase x).length + _ < _
      rw [hlength]
      split <;> simp only [Routine.rank] <;> omega
    · cases h
  | reschedule i =>
    simp only [step] at h
    split at h
    · next x hi =>
      cases h
      refine potential_advance (inv.lt_created (by simp [hi])) hi _ ?_ rfl rfl rfl
      change 8 * s.pool.schedule.potential + 64 * s.list.length + _ < _
      rw [potential_schedule]
      simp only [Routine.rank]
      omega
    · cases h
  | execute i =>
    simp only [step] at h
    split at h
    · next x hi =>
      cases h
      exact potential_advance (inv.lt_created (by simp [hi])) hi _ (Nat.lt_succ_self _) rfl rfl rfl
    · cases h
  | handle i =>
    simp only [step] at h
    split at h
    · next x hi =>
      split_ifs at h
      cases h
      exact potential_advance (inv.lt_created (by simp [hi])) hi _ (Nat.lt_succ_self _) rfl rfl rfl
    · cases h
  | cancel =>
    obtain ⟨hc, rfl⟩ := of_guard h
    unfold State.cancel
    split
    · simp [State.potential, hc, State.sum]
    · next x list hl =>
      rw [State.potential, State.potential, hl, length_cons]
      change 8 * s.pool.potential + 64 * list.length + s.sum Routine.rank + _ < _
      split_ifs <;> omega

section Settled

variable (inv : Inv n s) (hquiet : ∀ a : ExecAction, a.own = true → step s a = none)
include hquiet

include inv in

theorem routine_of_quiet (i : ThreadId) :
    s.routine i = .none ∨ s.routine i = .handling ∨
      (s.pool.destroyer = some i ∧ s.pool.stage ≠ .returned) := by
  cases hi : s.routine i with
  | none => exact .inl rfl
  | entered => simpa [step, hi] using hquiet (.readHead i) rfl
  | read e =>
    have hread := inv.reading i e hi
    cases e with
    | some x => simpa [step, hi] using hquiet (.takeSection i) rfl
    | none =>
      have hl : s.list = [] := List.head?_eq_none_iff.mp hread.symm
      exact absurd hl (inv.of_entering (i := i) (by rw [hi]; rfl)).1
  | rescheduling x => simpa [step, hi] using hquiet (.reschedule i) rfl
  | ready x => simpa [step, hi] using hquiet (.execute i) rfl
  | executing x =>
    right
    right
    by_contra h
    have hnone := hquiet (.handle i) rfl
    simp only [step, hi, if_neg h] at hnone
    cases hnone
  | handling => exact .inr (.inl rfl)

theorem not_canceling_of_quiet : s.canceling = false := by
  by_contra h
  have hnone := hquiet .cancel rfl
  rw [step, if_pos (Bool.eq_true_of_not_eq_false h)] at hnone
  cases hnone

include inv in
theorem pool_quiet (a : Action) (ha : a.own = true) : ThreadPool.step s.pool a = none := by
  have hpool : s.permits a = true → ThreadPool.step s.pool a = none := by
    intro hp
    have hnone := hquiet (.pool a) ha
    rw [step, if_pos hp] at hnone
    exact Option.map_eq_none_iff.mp hnone
  cases a with
  | finish i =>
    rcases routine_of_quiet inv hquiet i with hi | hi | hi
    · exact hpool (by simp [State.permits, hi])
    · exact hpool (by simp [State.permits, hi])
    · simp only [ThreadPool.step]
      split
      · exact if_pos hi
      · rfl
  | drain =>
    exact hpool (by simp [State.permits, not_canceling_of_quiet hquiet])
  | loop | get | check | exitStep | join | pass | readTid | destroyJoin => exact hpool rfl
  | schedule | increase | decrease | exit | destroy => cases ha

include inv in
theorem told_of_quiet (hs : s.pool.stage ≠ .none) :
    s.pool.stage = .returned ∧ ∀ x ∈ s.accepted, (s.told x).length = 1 := by
  have hret := returned_of_quiet inv.threads hs (pool_quiet inv hquiet)
  have hroutine : ∀ i, s.routine i = .none ∨ s.routine i = .handling := by
    intro i
    rcases routine_of_quiet inv hquiet i with hi | hi | hi
    · exact .inl hi
    · exact .inr hi
    · exact absurd hret hi.2
  have hzero : ∀ f : Routine → ℕ, f .none = 0 → f .handling = 0 → s.sum f = 0 := by
    intro f hnone hhandling
    apply sum_zero
    intro i
    rcases hroutine i with hi | hi
    · rw [hi, hnone]
    · rw [hi, hhandling]
  have hqueue : s.pool.queue.countP s.ours = 0 := by
    rw [countP_eq_zero]
    intro e he
    cases e with
    | exit => exact Bool.false_ne_true
    | task t => exact absurd he (inv.threads.tasks.drained hret t)
  have hlist : s.list = [] := by
    have htoken := inv.token
    rw [State.outstanding, State.scheduling, hqueue, hzero _ rfl rfl, hzero _ rfl rfl,
      not_canceling_of_quiet hquiet] at htoken
    by_contra hl
    simp [hl] at htoken
  refine ⟨hret, ?_⟩
  intro x hx
  have hone := inv.once x
  rw [hlist, hzero _ rfl rfl, count_eq_one_of_mem inv.nodup hx] at hone
  simpa using hone

end Settled

def Course (told : List EsState) (executed : ℕ) : Prop :=
  told = [] ∧ executed ≤ 1 ∨ told = [.finished] ∧ executed = 1 ∨ told = [.canceled] ∧ executed = 0

theorem Routine.runs_le_holds (x : SessionId) (r : Routine) : r.runs x ≤ r.holds x := by
  cases r <;> simp [Routine.runs, Routine.holds]

theorem Inv.course (inv : Inv n s) (x : SessionId) :
    Course (s.told x) (s.executed.count x) ∧
      (x ∉ s.accepted → s.told x = [] ∧ s.executed.count x = 0) := by
  have honce := inv.once x
  have hran := inv.ran x
  have hle : s.sum (Routine.runs x) ≤ s.sum (Routine.holds x) :=
    total_le fun i => Routine.runs_le_holds x (s.routine i)
  have hcount : s.accepted.count x ≤ 1 := nodup_iff_count_le_one.mp inv.nodup x
  constructor
  · cases ht : s.told x with
    | nil =>
      rw [ht] at honce hran
      simp only [length_nil, count_nil] at honce hran
      exact .inl ⟨rfl, by omega⟩
    | cons e l =>
      rw [ht] at honce hran
      simp only [length_cons] at honce
      have hl : l = [] := length_eq_zero_iff.mp (by omega)
      subst hl
      have hruns : s.sum (Routine.runs x) = 0 := by omega
      rw [hruns] at hran
      cases e with
      | finished => exact .inr (.inl ⟨rfl, hran⟩)
      | canceled => exact .inr (.inr ⟨rfl, hran⟩)
  · intro hx
    rw [count_eq_zero_of_not_mem hx] at honce
    have ht : s.told x = [] := length_eq_zero_iff.mp (by omega)
    rw [ht] at hran
    exact ⟨ht, by simp only [count_nil] at hran; omega⟩

theorem request_failed (entryOk taskOk : Bool) (h : (s.request entryOk taskOk).1 = false) :
    (s.request entryOk taskOk).2.list = s.list := by
  unfold State.request at h ⊢
  cases entryOk with
  | false => rfl
  | true =>
    cases taskOk with
    | true =>
      simp only [if_true] at h
      split at h <;> cases h
    | false =>
      simp only [if_true] at h ⊢
      split at h
      · next hfirst =>
        have hl : s.list = [] := isEmpty_iff.mp hfirst
        simp [hl]
      · cases h

/-- In every run the sessions are taken in the order in which they were accepted, one token stands for
    the work that is scheduled, and each session hears of its end at most once; a pool that is being
    destroyed comes to rest with all accepted ones told. -/
theorem executor_sessions (h : Reachable step (State.init n) s) :
    s.taken ++ s.list = s.accepted ∧ s.accepted.Nodup ∧
    s.outstanding + s.scheduling ≤ 1 ∧
    (s.list ≠ [] → s.outstanding + s.scheduling = 1) ∧
    (∀ x, Course (s.told x) (s.executed.count x) ∧
      (x ∉ s.accepted → s.told x = [] ∧ s.executed.count x = 0)) ∧
    (∀ entryOk taskOk, (s.request entryOk taskOk).1 = false →
      (s.request entryOk taskOk).2.list = s.list) ∧
    (∀ a s', a.own = true → step s a = some s' → s'.potential < s.potential) ∧
    (s.pool.stage ≠ .none → (∀ a : ExecAction, a.own = true → step s a = none) →
      s.pool.stage = .returned ∧ ∀ x ∈ s.accepted, (s.told x).length = 1) := by
  have inv := reachable_inv h
  have htoken := inv.token
  refine ⟨inv.order, inv.nodup, ?_, ?_, inv.course, request_failed, ?_, ?_⟩
  · rw [htoken]
    split_ifs <;> decide
  · intro hl
    rw [htoken, if_neg (fun h => hl h.1)]
  · intro a s' ha hstep
    exact own_descends inv ha hstep
  · intro hs hquiet
    exact told_of_quiet inv hquiet hs

def cancelRun : List ExecAction :=
  [.request true true, .request true true, .pool (.loop 0), .pool (.get 0), .readHead 0,
    .takeSection 0, .pool (.destroy none), .reschedule 0, .execute 0, .handle 0, .pool (.finish 0),
    .pool (.check 0), .pool (.loop 0), .pool (.exitStep 0), .pool (.join 0), .pool .pass,
    .pool .readTid, .pool .destroyJoin, .pool .drain, .cancel, .cancel, .pool .drain]

theorem cancelRun_sessions : ∃ s, run step (State.init 1) cancelRun = some s ∧
    s.accepted = [0, 1] ∧ s.taken ++ s.list = [0, 1] ∧ s.told 0 = [.finished] ∧
    s.told 1 = [.canceled] ∧ s.executed.count 1 = 0 := by
  obtain ⟨s, hrun, haccepted, hfirst, hsecond⟩ : ∃ s,
      run step (State.init 1) cancelRun = some s ∧ s.accepted = [0, 1] ∧
        s.told 0 = [.finished] ∧ s.told 1 = [.canceled] := ⟨_, rfl, rfl, rfl, rfl⟩
  obtain ⟨horder, -, -, -, hcourse, -⟩ :=
    executor_sessions (reachable_of_run cancelRun .start hrun)
  refine ⟨s, hrun, haccepted, horder.trans haccepted, hfirst, hsecond, ?_⟩
  have hone := (hcourse 1).1
  rw [hsecond] at hone
  rcases hone with h | h | h
  · cases h.1
  · cases h.1
  · exact h.2

end MyWorkflow.Executor
