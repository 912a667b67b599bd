import MyWorkflow.CommSchedRuns

set_option autoImplicit false

namespace MyWorkflow.Comm.Sched
open Runs

structure Line where
  maxLoad : ℕ
  curLoad : ℕ
  waitCnt : ℕ
  cond : Cond

def Target.line (x : Target) : Line := ⟨x.maxLoad, x.curLoad, x.waitCnt, x.cond⟩

/-- Nobody sleeps while a connection is free that no woken thread is going to take. -/
def Line.Covered (x : Line) : Prop :=
  x.waitCnt = x.cond.blocked + x.cond.woken ∧
    (0 < x.cond.blocked → x.maxLoad ≤ x.curLoad + x.cond.woken)

def Line.freed (x : Line) : Line :=
  { x with
    curLoad := x.curLoad - 1
    cond := if 0 < x.waitCnt then x.cond.signal else x.cond }

/-- All that a step does to a line. -/
inductive Line.Moves (x : Line) : Line → Prop
  | stays : Moves x x
  | takes : Moves x { x with curLoad := x.curLoad + 1 }
  | waits : x.maxLoad ≤ x.curLoad →
      Moves x { x with waitCnt := x.waitCnt + 1, cond := x.cond.wait }
  | waitsAgain : 0 < x.cond.woken → x.maxLoad ≤ x.curLoad →
      Moves x { x with waitCnt := x.waitCnt - 1 + 1, cond := x.cond.resume.wait }
  | wakes : Moves x { x with cond := x.cond.signal }
  | timesOut : 0 < x.cond.woken → x.maxLoad ≤ x.curLoad →
      Moves x { x with waitCnt := x.waitCnt - 1, cond := x.cond.resume }
  | resumes : 0 < x.cond.woken →
      Moves x { x with
        curLoad := x.curLoad + 1
        waitCnt := x.waitCnt - 1
        cond := x.cond.resume }
  | frees : Moves x x.freed

variable {x y : Line}

theorem Line.Covered.moves (h : x.Covered) (hm : x.Moves y) : y.Covered := by
  obtain ⟨hcnt, hfree⟩ := h
  cases hm with
  | stays => exact ⟨hcnt, hfree⟩
  | takes =>
    simp only [Covered]
    omega
  | waits hfull =>
    simp only [Covered, Cond.wait]
    omega
  | waitsAgain hwoken hfull =>
    simp only [Covered, Cond.wait, Cond.resume]
    omega
  | wakes =>
    simp only [Covered, Cond.signal]
    split_ifs
    · simp only
      omega
    · exact ⟨hcnt, hfree⟩
  | timesOut hwoken hfull =>
    simp only [Covered, Cond.resume]
    omega
  | resumes hwoken =>
    simp only [Covered, Cond.resume]
    omega
  | frees =>
    simp only [Covered, freed, Cond.signal]
    split_ifs
    · simp only
      omega
    · omega
    · omega

theorem Line.Moves.of_take {p : Prop} [Decidable p]
    (h : y = { x with curLoad := x.curLoad + if p then 1 else 0 }) : x.Moves y := by
  rw [h]
  split_ifs
  · exact .takes
  · exact .stays

variable {s s' : State} {op : Op}

theorem targetTake_line (s : State) (t u : TargetId) : ((s.targetTake t).targets u).line =
    { (s.targets u).line with
      curLoad := (s.targets u).curLoad + if u = t then 1 else 0 } := by
  by_cases hu : u = t
  · subst hu
    cases hgroup : (s.targets u).group <;>
      simp [State.targetTake, hgroup, State.heapify, Target.line]
  · cases hgroup : (s.targets t).group <;>
      simp [State.targetTake, hgroup, State.heapify, Target.line, hu, State.setTarget_of_ne hu]

theorem groupTake_line (s : State) (g : GroupId) (u : TargetId) :
    ((s.groupTake g).targets u).line = { (s.targets u).line with
      curLoad := (s.targets u).curLoad + if u = (s.groups g).tgHeap 0 then 1 else 0 } := by
  by_cases hu : u = (s.groups g).tgHeap 0
  · rw [hu]
    simp [State.groupTake, State.heapify, Target.line]
  · simp [State.groupTake, State.heapify, Target.line, hu, State.setTarget_of_ne hu]

theorem add_line (s : State) (memory : Bool) (g : GroupId) (t u : TargetId) :
    ((s.add memory g t).2.targets u).line = (s.targets u).line := by
  rcases add_cases s g t with heq | ⟨-, -, J⟩
  · rw [heq]
  · by_cases hu : u = t
    · rw [hu, J.target]
      rfl
    · rw [J.other u hu]
      rfl

theorem remove_line (s : State) (g : GroupId) (t u : TargetId) :
    ((s.remove g t).2.targets u).line = (s.targets u).line := by
  rcases remove_cases s g t with heq | ⟨-, -, L⟩
  · rw [heq]
  · by_cases hu : u = t
    · rw [hu, L.target]
      rfl
    · rw [L.other u hu]
      rfl

theorem release_line (s : State) (t : TargetId) (hasIdleConn : Bool) (u : TargetId) :
    ((s.release t hasIdleConn).targets u).line =
      if u = t then (s.targets t).line.freed else (s.targets u).line := by
  cases hgroup : (s.targets t).group with
  | none =>
    by_cases hw : 0 < (s.targets t).waitCnt
    all_goals
      by_cases hu : u = t
      · subst hu
        simp [State.release, hgroup, hw, State.signalTarget, Target.line, Line.freed]
      · simp [State.release, hgroup, hw, State.signalTarget, State.setTarget_of_ne hu, hu]
  | some g =>
    rw [release_grouped hgroup]
    by_cases hu : u = t
    · subst hu
      simp [State.heapAdjust, State.unload, Target.line, Line.freed]
      rfl
    · simp [State.heapAdjust, State.unload, Target.line, hu]

theorem targetResume_moves {t : TargetId} (hwoken : 0 < (s.targets t).cond.woken)
    (timedOut : Bool) (u : TargetId) :
    (s.targets u).line.Moves ((s.targetResume timedOut t).2.targets u).line := by
  simp only [State.targetResume]
  split
  next hfull =>
    by_cases hu : u = t
    · subst hu
      rw [State.setTarget_self] at hfull
      cases timedOut with
      | false =>
        simp only [Bool.false_eq_true, if_false, State.targetWait, State.setTarget_self]
        exact .waitsAgain hwoken hfull
      | true =>
        simp only [if_true, State.setTarget_self]
        exact .timesOut hwoken hfull
    · cases timedOut <;> simp only [State.targetWait, State.setTarget_of_ne hu, if_true,
        Bool.false_eq_true, if_false] <;> exact .stays
  next =>
    rw [targetTake_line]
    by_cases hu : u = t
    · subst hu
      simp only [State.setTarget_self, if_true]
      exact .resumes hwoken
    · simp only [State.setTarget_of_ne hu, if_neg hu]
      exact .stays

theorem step_target_moves (h : step s op = some s') (u : TargetId) :
    (s.targets u).line.Moves (s'.targets u).line := by
  cases op with
  | add memory g t =>
    cases h
    rw [add_line]
    exact .stays
  | remove g t =>
    cases h
    rw [remove_line]
    exact .stays
  | groupAcquire wait g =>
    cases h
    simp only [State.groupAcquire]
    split
    · cases wait <;> exact .stays
    · exact .of_take (groupTake_line s g u)
  | targetAcquire wait t =>
    cases h
    simp only [State.targetAcquire]
    split
    next hfull =>
      cases wait with
      | false => exact .stays
      | true =>
        by_cases hu : u = t
        · subst hu
          simp only [if_true, State.targetWait, State.setTarget_self]
          exact .waits hfull
        · simp only [if_true, State.targetWait, State.setTarget_of_ne hu]
          exact .stays
    next => exact .of_take (targetTake_line s t u)
  | release t hasIdleConn =>
    obtain ⟨-, rfl⟩ := of_guard h
    simp only [release_line]
    split_ifs with hu
    · rw [hu]
      exact .frees
    · exact .stays
  | groupWake g =>
    cases h
    exact .stays
  | targetWake t =>
    cases h
    by_cases hu : u = t
    · subst hu
      simp only [State.signalTarget, State.setTarget_self]
      exact .wakes
    · simp only [State.signalTarget, State.setTarget_of_ne hu]
      exact .stays
  | groupResume timedOut g =>
    obtain ⟨-, rfl⟩ := of_guard h
    simp only [State.groupResume]
    split
    · cases timedOut <;> exact .stays
    · exact .of_take (groupTake_line _ g u)
  | targetResume timedOut t =>
    obtain ⟨hwoken, rfl⟩ := of_guard h
    exact targetResume_moves hwoken timedOut u

/-- No wake-up is lost in front of a target, whatever else happens in its group and whichever waits
    run out of time: where a thread sleeps, every free connection has a woken thread on its way. -/
theorem target_waiters_covered {limit : TargetId → Limit} {s : State}
    (h : Reachable step (.init limit) s) (t : TargetId) : (s.targets t).line.Covered := by
  refine h.invariant (P := fun s => ∀ t, (s.targets t).line.Covered) ?_ ?_ t
  · intro t
    refine ⟨rfl, ?_⟩
    intro hb
    exact absurd hb (Nat.lt_irrefl 0)
  · intro s op s' ih _ hs t
    exact (ih t).moves (step_target_moves hs t)

def waitingRun : List Op :=
  [.add true 0 0, .targetAcquire true 0, .groupAcquire true 0, .targetAcquire true 0,
    .targetAcquire true 0, .targetAcquire true 0, .targetWake 0, .targetResume true 0,
    .release 0 true]

theorem waitingRun_covered : ∃ s, run step (.init fun _ => smallLimit) waitingRun = some s ∧
    ((s.targets 0).cond, (s.targets 0).curLoad) = (⟨1, 1⟩, 1) ∧ (s.targets 0).line.Covered := by
  have hrun : (run step (.init fun _ => smallLimit) waitingRun).map
      (fun s => ((s.targets 0).cond, (s.targets 0).curLoad)) = some (⟨1, 1⟩, 1) := by decide +kernel
  obtain ⟨s, hs, hline⟩ := Option.map_eq_some_iff.mp hrun
  exact ⟨s, hs, hline, target_waiters_covered (reachable_of_run waitingRun .start hs) 0⟩

end MyWorkflow.Comm.Sched
