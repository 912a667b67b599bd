import MyWorkflow.Executor

set_option autoImplicit false

/-!
# The token of an executor

One token stands for a list that is not empty: it is a task in the pool, a thread in the routine
or the call of `executor_cancel`.
-/
namespace MyWorkflow.Executor
open Function List ThreadPool Runs Bags

def Routine.entering : Routine → ℕ
  | .entered | .read _ => 1
  | _ => 0

def Routine.rescheduled : Routine → ℕ
  | .rescheduling _ => 1
  | _ => 0

def Routine.holds (x : SessionId) : Routine → ℕ
  | .rescheduling y | .ready y | .executing y => if y = x then 1 else 0
  | _ => 0

def Routine.runs (x : SessionId) : Routine → ℕ
  | .executing y => if y = x then 1 else 0
  | _ => 0

def Routine.inSession : Routine → Bool
  | .none | .executing _ | .handling => true
  | _ => false

def calls (handled : List (SessionId × EsState)) (x : SessionId) : List EsState :=
  (handled.filter fun h => h.1 = x).map Prod.snd

namespace State

def ours (s : State) : Entry → Bool
  | .task t => decide (t ∈ s.tasks)
  | .exit => false

def sum (s : State) (f : Routine → ℕ) : ℕ := total s.pool.created (fun i => f (s.routine i))

def outstanding (s : State) : ℕ :=
  s.pool.queue.countP s.ours + s.sum Routine.entering + if s.canceling then 1 else 0

def scheduling (s : State) : ℕ := s.sum Routine.rescheduled

def told (s : State) (x : SessionId) : List EsState := calls s.handled x

end State

structure Inv (n : ℕ) (s : State) : Prop where
  pool : Reaches ThreadPool.step Allowed (.init n) s.pool
  tasks : ∀ t ∈ s.tasks, t < s.pool.scheduled
  running : ∀ i, s.routine i ≠ .none → ∃ t, s.pool.thread i = .running t
  destroyer : ∀ i, s.pool.destroyer = some i → (s.routine i).inSession = true
  canceling : s.canceling = true → s.pool.stage = .draining
  token : s.outstanding + s.scheduling = if s.list = [] ∧ s.canceling = false then 0 else 1
  reading : ∀ i e, s.routine i = .read e → e = s.list.head?
  order : s.taken ++ s.list = s.accepted
  fresh : ∀ x ∈ s.accepted, x < s.requests
  nodup : s.accepted.Nodup
  once : ∀ x, s.list.count x + s.sum (Routine.holds x) + (s.told x).length = s.accepted.count x
  ran : ∀ x, s.executed.count x = s.sum (Routine.runs x) + (s.told x).count .finished

variable {n : ℕ} {s s' : State} {i : ThreadId}

theorem sum_zero {f : Routine → ℕ} (h : ∀ i, f (s.routine i) = 0) : s.sum f = 0 :=
  total_eq_zero fun i _ => h i

theorem init_inv (n : ℕ) : Inv n (State.init n) where
  pool := .start
  tasks := by rintro _ ⟨⟩
  running i h := absurd rfl h
  destroyer := by rintro _ ⟨⟩
  canceling := by rintro ⟨⟩
  token := by
    simp only [State.outstanding, State.scheduling]
    rw [sum_zero (fun i => rfl), sum_zero (fun i => rfl)]
    rfl
  reading := by rintro _ _ ⟨⟩
  order := rfl
  fresh := by rintro _ ⟨⟩
  nodup := nodup_nil
  once x := by
    rw [sum_zero (fun i => rfl)]
    rfl
  ran x := by
    rw [sum_zero (fun i => rfl)]
    rfl

theorem setRoutine_self (s : State) (i : ThreadId) (r : Routine) :
    (s.setRoutine i r).routine i = r := update_self _ _ _

theorem setRoutine_of_ne (s : State) (r : Routine) {j : ThreadId} (h : j ≠ i) :
    (s.setRoutine i r).routine j = s.routine j := update_of_ne h _ _

theorem sum_setRoutine (hi : i < s.pool.created) (r : Routine) (f : Routine → ℕ) :
    (s.setRoutine i r).sum f + f (s.routine i) = s.sum f + f r := by
  have h := total_change hi (f := fun j => f (s.routine j))
    (g := fun j => f ((s.setRoutine i r).routine j))
    (fun j hj => congrArg f (update_of_ne hj _ _))
  simp only [State.setRoutine, update_self] at h
  exact h

theorem reading_setRoutine {r : Routine} {list : List SessionId} (hr : ∀ e, r ≠ .read e)
    (hother : ∀ j e, j ≠ i → s.routine j = .read e → e = list.head?) (j : ThreadId)
    (e : Option SessionId) (hj : (s.setRoutine i r).routine j = .read e) : e = list.head? := by
  by_cases hji : j = i
  · subst hji
    rw [setRoutine_self] at hj
    exact absurd hj (hr e)
  · rw [setRoutine_of_ne s r hji] at hj
    exact hother j e hji hj

theorem calls_append (handled : List (SessionId × EsState)) (x y : SessionId) (e : EsState) :
    calls (handled ++ [(y, e)]) x = calls handled x ++ if y = x then [e] else [] := by
  simp only [calls, filter_append, map_append]
  congr 1
  by_cases h : y = x <;> simp [h]

namespace Inv

variable (inv : Inv n s)
include inv

theorem threads : ThreadPool.Inv s.pool := reaches_inv inv.pool

theorem lt_created (hi : s.routine i ≠ .none) : i < s.pool.created := by
  obtain ⟨t, ht⟩ := inv.running i hi
  exact inv.threads.threads.lt_of_live (by rw [ht]; rfl)

theorem unborn (hi : s.pool.created ≤ i) : s.routine i = .none := by
  by_contra h
  exact Nat.not_lt.mpr hi (inv.lt_created h)

theorem not_destroyer (hi : (s.routine i).inSession = false) : s.pool.destroyer ≠ some i := by
  intro h
  rw [inv.destroyer i h] at hi
  cases hi

theorem not_passed (hi : (s.routine i).inSession = false) : s.pool.stage.passed = false := by
  have hne : s.routine i ≠ .none := by
    intro h
    rw [h] at hi
    cases hi
  obtain ⟨t, ht⟩ := inv.running i hne
  have hd := inv.not_destroyer hi
  exact inv.threads.threads.not_passed (i := i) (by simp [State.counts, ht, hd, Thread.live])

theorem setPool {p : ThreadPool.State} (hpool : Reaches ThreadPool.step Allowed (.init n) p)
    (hscheduled : s.pool.scheduled ≤ p.scheduled)
    (hcreated : p.created = s.pool.created ∨ p.created = s.pool.created + 1)
    (hqueue : p.queue.countP s.ours = s.pool.queue.countP s.ours)
    (hrunning : ∀ i t, s.routine i ≠ .none → s.pool.thread i = .running t →
      p.thread i = .running t)
    (hdestroyer : ∀ i, p.destroyer = some i → (s.routine i).inSession = true)
    (hstage : s.canceling = true → p.stage = .draining) : Inv n { s with pool := p } := by
  have hsum : ∀ f : Routine → ℕ, f .none = 0 → State.sum { s with pool := p } f = s.sum f := by
    intro f hf
    change total p.created _ = total s.pool.created _
    rcases hcreated with h | h
    · rw [h]
    · rw [h, total_succ, inv.unborn (Nat.le_refl _), hf]
      rfl
  refine ⟨hpool, ?_, ?_, hdestroyer, hstage, ?_, inv.reading, inv.order, inv.fresh, inv.nodup, ?_,
    ?_⟩
  · intro t ht
    exact Nat.lt_of_lt_of_le (inv.tasks t ht) hscheduled
  · intro i hi
    obtain ⟨t, ht⟩ := inv.running i hi
    exact ⟨t, hrunning i t hi ht⟩
  · have htoken := inv.token
    unfold State.outstanding State.scheduling at htoken ⊢
    rw [hsum _ rfl, hsum _ rfl]
    change p.queue.countP s.ours + _ + _ + _ = _
    rw [hqueue]
    exact htoken
  · intro x
    rw [hsum _ rfl]
    exact inv.once x
  · intro x
    rw [hsum _ rfl]
    exact inv.ran x

theorem entering_unique (hi : (s.routine i).entering = 1) {j : ThreadId} (hj : j ≠ i) :
    (s.routine j).entering = 0 := by
  by_cases hborn : j < s.pool.created
  · have hne : s.routine i ≠ .none := by
      intro h
      rw [h] at hi
      cases hi
    have hsum := sum_setRoutine (inv.lt_created hne) .none Routine.entering
    have hle := le_total hborn fun k => ((s.setRoutine i .none).routine k).entering
    have htoken := inv.token
    simp only [setRoutine_of_ne s .none hj] at hle
    change (s.routine j).entering ≤ (s.setRoutine i .none).sum Routine.entering at hle
    have hzero : Routine.entering .none = 0 := rfl
    unfold State.outstanding at htoken
    split_ifs at htoken <;> omega
  · rw [inv.unborn (Nat.not_lt.mp hborn)]
    rfl

theorem no_reader (h : s.sum Routine.entering = 0) (e : Option SessionId) : s.routine i ≠ .read e := by
  intro hi
  have hne : s.routine i ≠ .none := by
    rw [hi]
    exact (by simp)
  have hle := le_total (inv.lt_created hne) fun k => (s.routine k).entering
  change (s.routine i).entering ≤ s.sum Routine.entering at hle
  rw [hi, h] at hle
  cases hle

/-- Thread `i` goes on from the routine `old` to `r`; of the pool only the queue and the thread
    itself change. -/
theorem goOn {old : Routine} (hi : s.routine i = old) (hborn : i < s.pool.created) (r : Routine)
    (hpool : Reaches ThreadPool.step Allowed (.init n) s'.pool)
    (htasks : ∀ t ∈ s'.tasks, t < s'.pool.scheduled)
    (hrunning : ∀ j, s'.routine j ≠ .none → ∃ t, s'.pool.thread j = .running t)
    (hd : s.pool.destroyer = some i → r.inSession = true)
    (htoken : s'.pool.queue.countP s'.ours + r.entering + r.rescheduled +
        (if s.list = [] ∧ s.canceling = false then 0 else 1) =
      s.pool.queue.countP s.ours + old.entering + old.rescheduled +
        if s'.list = [] ∧ s.canceling = false then 0 else 1)
    (hread : ∀ j e, (s.setRoutine i r).routine j = .read e → e = s'.list.head?)
    (horder : s'.taken ++ s'.list = s.accepted)
    (honce : ∀ x, s'.list.count x + r.holds x + (s'.told x).length =
      s.list.count x + old.holds x + (s.told x).length)
    (hran : ∀ x, s'.executed.count x + old.runs x + (s.told x).count .finished =
      s.executed.count x + r.runs x + (s'.told x).count .finished)
    (hsame : s'.routine = (s.setRoutine i r).routine ∧ s'.pool.created = s.pool.created ∧
      s'.pool.destroyer = s.pool.destroyer ∧ s'.pool.stage = s.pool.stage ∧
      s'.canceling = s.canceling ∧ s'.accepted = s.accepted ∧ s'.requests = s.requests) :
    Inv n s' := by
  obtain ⟨hroutine, hcreated, hdestroyer, hstage, hcanceling, haccepted, hrequests⟩ := hsame
  have hsum : ∀ f : Routine → ℕ, s'.sum f + f old = s.sum f + f r := by
    intro f
    rw [← hi, ← sum_setRoutine hborn r f, State.sum, hroutine, hcreated]
    rfl
  refine ⟨hpool, htasks, hrunning, ?_, ?_, ?_, ?_, ?_, ?_, ?_, ?_, ?_⟩
  · intro j hj
    rw [hroutine]
    rw [hdestroyer] at hj
    by_cases hji : j = i
    · subst hji
      rw [setRoutine_self]
      exact hd hj
    · rw [setRoutine_of_ne s r hji]
      exact inv.destroyer j hj
  · rw [hcanceling, hstage]
    exact inv.canceling
  · have hold := inv.token
    have hent := hsum Routine.entering
    have hres := hsum Routine.rescheduled
    unfold State.outstanding State.scheduling at hold ⊢
    rw [hcanceling]
    omega
  · rw [hroutine]
    exact hread
  · rw [haccepted]
    exact horder
  · rw [haccepted, hrequests]
    exact inv.fresh
  · rw [haccepted]
    exact inv.nodup
  · intro x
    have hold := inv.once x
    have hx := honce x
    have hholds := hsum (Routine.holds x)
    rw [haccepted]
    omega
  · intro x
    have hold := inv.ran x
    have hx := hran x
    have hruns := hsum (Routine.runs x)
    omega

theorem running_setRoutine (hi : s.routine i ≠ .none) (r : Routine) (j : ThreadId)
    (hj : (s.setRoutine i r).routine j ≠ .none) : ∃ t, s.pool.thread j = .running t := by
  by_cases hji : j = i
  · rw [hji]
    exact inv.running i hi
  · rw [setRoutine_of_ne s r hji] at hj
    exact inv.running j hj

theorem advance {old : Routine} (hi : s.routine i = old) (hne : old ≠ .none) (r : Routine)
    (list taken executed : List SessionId) (handled : List (SessionId × EsState))
    (hd : s.pool.destroyer = some i → r.inSession = true)
    (htoken : r.entering + r.rescheduled + (if s.list = [] ∧ s.canceling = false then 0 else 1) =
      old.entering + old.rescheduled + if list = [] ∧ s.canceling = false then 0 else 1)
    (hread : ∀ j e, (s.setRoutine i r).routine j = .read e → e = list.head?)
    (horder : taken ++ list = s.accepted)
    (honce : ∀ x, list.count x + r.holds x + (calls handled x).length =
      s.list.count x + old.holds x + (s.told x).length)
    (hran : ∀ x, executed.count x + old.runs x + (s.told x).count .finished =
      s.executed.count x + r.runs x + (calls handled x).count .finished) :
    Inv n { s.setRoutine i r with
      list := list
      taken := taken
      executed := executed
      handled := handled } := by
  have hborn : s.routine i ≠ .none := by rwa [hi]
  refine inv.goOn hi (inv.lt_created hborn) r inv.pool inv.tasks (inv.running_setRoutine hborn r) hd
    ?_ hread horder honce hran ⟨rfl, rfl, rfl, rfl, rfl, rfl, rfl⟩
  change s.pool.queue.countP s.ours + _ + _ + _ = _ + _ + _ + if list = [] ∧ _ then 0 else 1
  omega

theorem readHead (hi : s.routine i = .entered) : Inv n (s.setRoutine i (.read s.list.head?)) := by
  refine inv.advance hi (by simp) (.read s.list.head?) s.list s.taken s.executed s.handled ?_ rfl ?_
    inv.order (fun _ => rfl) (fun _ => rfl)
  · exact fun hd => absurd hd (inv.not_destroyer (by rw [hi]; rfl))
  · intro j e hj
    by_cases hji : j = i
    · subst hji
      rw [setRoutine_self] at hj
      cases hj
      rfl
    · rw [setRoutine_of_ne s _ hji] at hj
      exact inv.reading j e hj

theorem execute {x : SessionId} (hi : s.routine i = .ready x) :
    Inv n { s.setRoutine i (.executing x) with executed := s.executed ++ [x] } := by
  refine inv.advance hi (by simp) (.executing x) s.list s.taken (s.executed ++ [x]) s.handled
    (fun _ => rfl) rfl (reading_setRoutine (by simp) fun j e _ hj => inv.reading j e hj) inv.order
    (fun _ => rfl) ?_
  intro y
  rw [count_append, count_singleton]
  simp only [Routine.runs, beq_iff_eq]
  change _ = s.executed.count y + _ + (s.told y).count .finished
  omega

theorem handle {x : SessionId} (hi : s.routine i = .executing x) :
    Inv n { s.setRoutine i .handling with handled := s.handled ++ [(x, .finished)] } := by
  refine inv.advance hi (by simp) .handling s.list s.taken s.executed
    (s.handled ++ [(x, .finished)]) (fun _ => rfl) rfl
    (reading_setRoutine (by simp) fun j e _ hj => inv.reading j e hj) inv.order ?_ ?_
  · intro y
    rw [calls_append, length_append]
    simp only [Routine.holds]
    split_ifs
    · exact Nat.add_right_comm _ _ 1
    · rfl
  · intro y
    rw [calls_append, count_append]
    simp only [Routine.runs]
    split_ifs
    · exact Nat.add_right_comm _ 1 _
    · rfl

theorem of_entering (hi : (s.routine i).entering = 1) : s.list ≠ [] ∧ s.canceling = false := by
  have hne : s.routine i ≠ .none := by
    intro h
    rw [h] at hi
    cases hi
  have hle := le_total (inv.lt_created hne) fun k => (s.routine k).entering
  change (s.routine i).entering ≤ s.sum Routine.entering at hle
  have htoken := inv.token
  unfold State.outstanding at htoken
  have hc : s.canceling = false := by
    by_contra h
    simp only [Bool.eq_true_of_not_eq_false h, if_true] at htoken
    split_ifs at htoken <;> omega
  refine ⟨?_, hc⟩
  intro hl
  have hzero : (if s.list = [] ∧ s.canceling = false then 0 else 1) = 0 := if_pos ⟨hl, hc⟩
  omega

theorem takeSection {x : SessionId} (hi : s.routine i = .read (some x)) :
    Inv n (s.takeSection i x) := by
  have hhead := inv.reading i _ hi
  obtain ⟨list, hlist⟩ : ∃ list, s.list = x :: list := by
    cases hl : s.list with
    | nil =>
      rw [hl] at hhead
      cases hhead
    | cons y list =>
      rw [hl] at hhead
      cases hhead
      exact ⟨list, rfl⟩
  have hcanceling := (inv.of_entering (i := i) (by rw [hi]; rfl)).2
  have herase : s.list.erase x = list := by rw [hlist, erase_cons_head]
  have hself : s.takeSection i x = { s.setRoutine i
        (if list.isEmpty then .ready x else .rescheduling x) with
      list := list
      taken := s.taken ++ [x]
      executed := s.executed
      handled := s.handled } := by
    unfold State.takeSection
    simp only [herase]
    rfl
  rw [hself]
  refine inv.advance hi (by simp) _ list (s.taken ++ [x]) s.executed s.handled ?_ ?_ ?_ ?_ ?_ ?_
  · exact fun hd => absurd hd (inv.not_destroyer (by rw [hi]; rfl))
  · rw [hcanceling, hlist]
    cases list <;> rfl
  · refine reading_setRoutine ?_ ?_
    · intro e
      split <;> exact (by simp)
    · intro j e hj hread
      have hzero := inv.entering_unique (i := i) (by rw [hi]; rfl) hj
      rw [hread] at hzero
      cases hzero
  · rw [append_assoc, singleton_append, ← hlist]
    exact inv.order
  · intro y
    have hholds : (if list.isEmpty then Routine.ready x else .rescheduling x).holds y =
        if x = y then 1 else 0 := by
      split <;> rfl
    rw [hholds, hlist, count_cons]
    simp only [Routine.holds, beq_iff_eq]
    change _ + _ + (s.told y).length = _
    omega
  · intro y
    have hruns : (if list.isEmpty then Routine.ready x else .rescheduling x).runs y = 0 := by
      split <;> rfl
    rw [hruns]
    rfl

theorem of_canceling (hc : s.canceling = true) :
    s.pool.queue.countP s.ours = 0 ∧ s.sum Routine.entering = 0 ∧ s.scheduling = 0 := by
  have htoken := inv.token
  have hone : (if s.list = [] ∧ s.canceling = false then 0 else 1) = 1 := by simp [hc]
  rw [hone, State.outstanding, hc] at htoken
  simp only [if_true] at htoken
  omega

theorem cancelEnd (hc : s.canceling = true) (hl : s.list = []) :
    Inv n { s with canceling := false } := by
  obtain ⟨hqueue, hentering, hscheduling⟩ := inv.of_canceling hc
  refine { inv with canceling := by simp, token := ?_ }
  change s.pool.queue.countP s.ours + s.sum Routine.entering + 0 + s.scheduling = _
  rw [hqueue, hentering, hscheduling, if_pos ⟨hl, rfl⟩]

theorem cancelOne (hc : s.canceling = true) {x : SessionId} {list : List SessionId}
    (hl : s.list = x :: list) :
    Inv n { s with
      list := list
      taken := s.taken ++ [x]
      handled := s.handled ++ [(x, .canceled)] } := by
  obtain ⟨hqueue, hentering, hscheduling⟩ := inv.of_canceling hc
  refine { inv with token := ?_, reading := ?_, order := ?_, once := ?_, ran := ?_ }
  · change s.pool.queue.countP s.ours + s.sum Routine.entering + (if s.canceling then 1 else 0) +
      s.scheduling = if list = [] ∧ s.canceling = false then 0 else 1
    rw [hqueue, hentering, hscheduling, hc]
    simp
  · intro j e hj
    exact absurd hj (inv.no_reader hentering e)
  · rw [append_assoc, singleton_append, ← hl]
    exact inv.order
  · intro y
    have hold := inv.once y
    rw [hl, count_cons] at hold
    change list.count y + s.sum (Routine.holds y) +
      (calls (s.handled ++ [(x, .canceled)]) y).length = s.accepted.count y
    rw [calls_append, length_append]
    simp only [beq_iff_eq] at hold
    change list.count y + _ + s.sum (Routine.holds y) + (calls s.handled y).length = _ at hold
    split_ifs at hold ⊢
    · simp only [length_singleton]
      omega
    · simp only [length_nil]
      omega
  · intro y
    change s.executed.count y = s.sum (Routine.runs y) +
      (calls (s.handled ++ [(x, .canceled)]) y).count .finished
    rw [calls_append, count_append, inv.ran y]
    split_ifs <;> rfl

theorem task_lt {t : TaskId} (ht : .task t ∈ s.pool.queue) : t < s.pool.scheduled := by
  by_contra hlt
  have hone := inv.threads.tasks.once t
  rw [if_neg hlt] at hone
  have hpos := count_pos_iff.mpr ht
  omega

theorem ours_schedule : s.schedule.pool.queue.countP s.schedule.ours =
    s.pool.queue.countP s.ours + 1 := by
  have hold : s.pool.queue.countP s.schedule.ours = s.pool.queue.countP s.ours := by
    apply countP_congr
    intro e he
    cases e with
    | exit => rfl
    | task t =>
      have hne : t ≠ s.pool.scheduled := Nat.ne_of_lt (inv.task_lt he)
      simp [State.ours, State.schedule, hne]
  have hnew : s.schedule.ours (.task s.pool.scheduled) = true := by
    simp [State.ours, State.schedule]
  change (s.pool.queue ++ [Entry.task s.pool.scheduled]).countP s.schedule.ours = _
  rw [countP_append, hold, countP_singleton, if_pos hnew]

theorem scheduled (hs : s.pool.stage.passed = false) :
    Reaches ThreadPool.step Allowed (.init n) s.schedule.pool ∧
      ∀ t ∈ s.schedule.tasks, t < s.schedule.pool.scheduled := by
  refine ⟨inv.pool.next (a := .schedule) (fun _ => hs) rfl, ?_⟩
  intro t ht
  rcases mem_cons.mp ht with rfl | ht
  · exact Nat.lt_succ_self _
  · exact Nat.lt_succ_of_lt (inv.tasks t ht)

theorem reschedule {x : SessionId} (hi : s.routine i = .rescheduling x) :
    Inv n (s.schedule.setRoutine i (.ready x)) := by
  have hne : s.routine i ≠ .none := by simp [hi]
  obtain ⟨hpool, htasks⟩ := inv.scheduled (inv.not_passed (i := i) (by rw [hi]; rfl))
  refine inv.goOn hi (inv.lt_created hne) (.ready x) hpool htasks (inv.running_setRoutine hne _) ?_ ?_
    (reading_setRoutine (by simp) fun j e _ hj => inv.reading j e hj) inv.order (fun _ => rfl)
    (fun _ => rfl) ⟨rfl, rfl, rfl, rfl, rfl, rfl, rfl⟩
  · exact fun hd => absurd hd (inv.not_destroyer (by rw [hi]; rfl))
  · change s.schedule.pool.queue.countP s.schedule.ours + 0 + 0 + _ = _ + 0 + 1 + _
    rw [inv.ours_schedule]
    rfl

theorem new_not_accepted : s.requests ∉ s.accepted :=
  fun h => Nat.lt_irrefl _ (inv.fresh _ h)

theorem fresh_succ : ∀ x ∈ s.accepted, x < s.requests + 1 :=
  fun x hx => Nat.lt_succ_of_lt (inv.fresh x hx)

theorem append (hpool : Reaches ThreadPool.step Allowed (.init n) s'.pool)
    (htasks : ∀ t ∈ s'.tasks, t < s'.pool.scheduled)
    (hthread : s'.pool.thread = s.pool.thread) (hcreated : s'.pool.created = s.pool.created)
    (hdestroyer : s'.pool.destroyer = s.pool.destroyer) (hcanceling : s'.canceling = false)
    (hs : s' = { s with
      pool := s'.pool
      tasks := s'.tasks
      requests := s.requests + 1
      list := s.list ++ [s.requests]
      accepted := s.accepted ++ [s.requests] })
    (htoken : s'.pool.queue.countP s'.ours + s.sum Routine.entering + s.scheduling = 1)
    (hread : ∀ i e, s.routine i = .read e → s.list ≠ []) : Inv n s' := by
  have hsum : ∀ f, s'.sum f = s.sum f := by
    intro f
    unfold State.sum
    rw [hcreated, hs]
  have hroutine : s'.routine = s.routine := by rw [hs]
  have hlist : s'.list = s.list ++ [s.requests] := by rw [hs]
  have haccepted : s'.accepted = s.accepted ++ [s.requests] := by rw [hs]
  have htold : s'.told = s.told := by rw [hs]; rfl
  refine ⟨hpool, htasks, ?_, ?_, ?_, ?_, ?_, ?_, ?_, ?_, ?_, ?_⟩
  · rw [hroutine, hthread]
    exact inv.running
  · rw [hroutine, hdestroyer]
    exact inv.destroyer
  · intro h
    rw [hcanceling] at h
    cases h
  · rw [State.outstanding, State.scheduling, hsum, hsum, hcanceling, hlist]
    simp
    exact htoken
  · intro i e hi
    rw [hroutine] at hi
    have hne := hread i e hi
    rw [hlist, inv.reading i e hi]
    cases hl : s.list with
    | nil => exact absurd hl hne
    | cons y list => rfl
  · rw [hlist, haccepted, ← append_assoc, ← inv.order]
    rw [hs]
  · intro x hx
    rw [haccepted] at hx
    rw [show s'.requests = s.requests + 1 by rw [hs]]
    rcases mem_append.mp hx with hx | hx
    · exact inv.fresh_succ x hx
    · rw [mem_singleton.mp hx]
      exact Nat.lt_succ_self _
  · rw [haccepted]
    refine nodup_append.mpr ⟨inv.nodup, nodup_singleton _, ?_⟩
    intro x hx y hy hxy
    rw [mem_singleton.mp hy] at hxy
    exact inv.new_not_accepted (hxy ▸ hx)
  · intro x
    rw [hlist, haccepted, hsum, htold, count_append, count_append, ← inv.once x]
    omega
  · intro x
    rw [hsum, htold, ← inv.ran x, hs]

theorem request (hs : s.pool.stage = .none) (entryOk taskOk : Bool) :
    Inv n (s.request entryOk taskOk).2 := by
  have hcanceling : s.canceling = false := by
    by_contra h
    have hdrain := inv.canceling (Bool.eq_true_of_not_eq_false h)
    rw [hs] at hdrain
    cases hdrain
  have htoken := inv.token
  simp only [State.outstanding, hcanceling, and_true, Bool.false_eq_true, if_false, add_zero]
    at htoken
  cases entryOk with
  | false => exact { inv with fresh := inv.fresh_succ }
  | true =>
    by_cases hl : s.list = []
    · rw [if_pos hl] at htoken
      cases taskOk with
      | false =>
        have hsame : (s.request true false).2 = { s with requests := s.requests + 1 } := by
          simp [State.request, hl]
        rw [hsame]
        exact { inv with fresh := inv.fresh_succ }
      | true =>
        obtain ⟨hpool, htasks⟩ := inv.scheduled (by rw [hs]; rfl)
        have hsame : (s.request true true).2 = { s.schedule with
            requests := s.requests + 1
            list := s.list ++ [s.requests]
            accepted := s.accepted ++ [s.requests] } := by
          simp [State.request, hl, State.schedule]
        rw [hsame]
        refine inv.append hpool htasks rfl rfl rfl hcanceling rfl ?_ ?_
        · change s.schedule.pool.queue.countP s.schedule.ours + _ + _ = 1
          rw [inv.ours_schedule]
          omega
        · intro i e hi
          exact absurd hi (inv.no_reader (by omega) e)
    · have hfirst : s.list.isEmpty = false := by simpa using hl
      rw [if_neg hl] at htoken
      have hsame : (s.request true taskOk).2 = { s with
          requests := s.requests + 1
          list := s.list ++ [s.requests]
          accepted := s.accepted ++ [s.requests] } := by
        simp [State.request, hfirst]
      rw [hsame]
      exact inv.append inv.pool inv.tasks rfl rfl rfl hcanceling rfl htoken fun _ _ _ => hl

end Inv

def plain : Action → Bool
  | .loop _ | .check _ | .exitStep _ | .join _ | .pass | .readTid | .destroyJoin => true
  | _ => false

theorem running_setThread {p : ThreadPool.State} {j : ThreadId} (hj : ∀ t, p.thread j ≠ .running t)
    (x : Thread) (i : ThreadId) (t : TaskId) (hi : p.thread i = .running t) :
    (p.setThread j x).thread i = .running t := by
  rw [setThread_of_ne p x]
  · exact hi
  · rintro rfl
    exact hj t hi

structure Alike (p q : ThreadPool.State) : Prop where
  queue : q.queue = p.queue
  scheduled : q.scheduled = p.scheduled
  created : q.created = p.created
  destroyer : q.destroyer = p.destroyer
  running : ∀ i t, p.thread i = .running t → q.thread i = .running t
  draining : p.stage = .draining → q.stage = .draining

theorem plain_alike {p q : ThreadPool.State} {a : Action} (ha : plain a = true)
    (h : ThreadPool.step p a = some q) : Alike p q := by
  cases a with
  | loop i =>
    simp only [ThreadPool.step] at h
    split at h
    · next hi =>
      cases h
      exact ⟨rfl, rfl, rfl, rfl, running_setThread (by simp [hi]) _, id⟩
    · cases h
  | check i =>
    obtain ⟨hi, rfl⟩ := of_guard h
    unfold ThreadPool.State.check
    split_ifs
    · exact ⟨rfl, rfl, rfl, rfl, running_setThread (by simp [hi]) _, id⟩
    · exact ⟨rfl, rfl, rfl, rfl, running_setThread (by simp [hi]) _, id⟩
  | exitStep i =>
    obtain ⟨hi, rfl⟩ := of_guard h
    exact ⟨rfl, rfl, rfl, rfl, running_setThread (by simp [hi]) _, id⟩
  | join i =>
    simp only [ThreadPool.step] at h
    split at h
    · next tid hi =>
      obtain ⟨r, hjoin, rfl⟩ := Option.map_eq_some_iff.mp h
      obtain ⟨joined, rfl, -⟩ := join_spec hjoin
      exact ⟨rfl, rfl, rfl, rfl, running_setThread (by simp [hi]) _, id⟩
    · cases h
  | pass =>
    obtain ⟨hs, rfl⟩ := of_guard h
    exact ⟨rfl, rfl, rfl, rfl, fun _ _ => id, fun hd => by rw [hs.1] at hd; cases hd⟩
  | readTid =>
    obtain ⟨hs, rfl⟩ := of_guard h
    exact ⟨rfl, rfl, rfl, rfl, fun _ _ => id, fun hd => by rw [hs] at hd; cases hd⟩
  | destroyJoin =>
    simp only [ThreadPool.step] at h
    split at h
    · next tid hs =>
      obtain ⟨r, hjoin, rfl⟩ := Option.map_eq_some_iff.mp h
      obtain ⟨joined, rfl, -⟩ := join_spec hjoin
      exact ⟨rfl, rfl, rfl, rfl, fun _ _ => id, fun _ => rfl⟩
    · cases h
  | schedule | increase | decrease | exit | destroy | get | finish | drain => cases ha

namespace Inv

variable (inv : Inv n s)
include inv

theorem plainStep {a : Action} {p : ThreadPool.State} (ha : plain a = true)
    (h : ThreadPool.step s.pool a = some p) : Inv n { s with pool := p } := by
  have alike := plain_alike ha h
  have hallowed : Allowed s.pool a := by
    rintro (rfl | rfl) <;> cases ha
  refine inv.setPool (inv.pool.next hallowed h) (Nat.le_of_eq alike.scheduled.symm)
    (.inl alike.created) (by rw [alike.queue]) (fun i t _ => alike.running i t) ?_ ?_
  · rw [alike.destroyer]
    exact inv.destroyer
  · exact fun hc => alike.draining (inv.canceling hc)

theorem not_ours : s.ours (.task s.pool.scheduled) = false := by
  rw [State.ours, decide_eq_false]
  exact fun h => Nat.lt_irrefl _ (inv.tasks _ h)

theorem otherSchedule (hs : s.pool.stage.passed = false) :
    Inv n { s with pool := s.pool.schedule } := by
  refine inv.setPool (inv.scheduled hs).1 (Nat.le_succ _) (.inl rfl) ?_ (fun _ _ _ => id)
    inv.destroyer inv.canceling
  change (s.pool.queue ++ [Entry.task s.pool.scheduled]).countP s.ours = _
  rw [countP_append, countP_singleton, inv.not_ours]
  rfl

theorem increase (hs : s.pool.stage.passed = false) :
    Inv n { s with pool := s.pool.increase } := by
  refine inv.setPool (inv.pool.next (a := .increase) (fun _ => hs) rfl) (Nat.le_refl _) (.inr rfl)
    rfl ?_ inv.destroyer inv.canceling
  intro i t hi ht
  exact (setThread_of_ne s.pool .top (Nat.ne_of_lt (inv.lt_created hi))).trans ht

theorem decrease : Inv n { s with pool := s.pool.decrease } := by
  refine inv.setPool (inv.pool.next (a := .decrease) (by rintro (h | h) <;> cases h) rfl)
    (Nat.le_refl _) (.inl rfl) ?_ (fun _ _ _ => id) inv.destroyer inv.canceling
  exact countP_cons_of_neg (by rintro ⟨⟩)

theorem destroy {who : Option ThreadId} {p : ThreadPool.State}
    (hwho : ∀ i, who = some i → (s.routine i).inSession = true)
    (hstep : ThreadPool.step s.pool (.destroy who) = some p) : Inv n { s with pool := p } := by
  have hp : s.pool.stage = .none ∧ p = s.pool.terminateSection who := by
    simp only [ThreadPool.step] at hstep
    split_ifs at hstep with hs
    cases who with
    | none =>
      cases hstep
      exact ⟨hs, rfl⟩
    | some i =>
      simp only at hstep
      split at hstep
      · cases hstep
        exact ⟨hs, rfl⟩
      · cases hstep
  obtain ⟨hs, rfl⟩ := hp
  refine inv.setPool (inv.pool.next (by rintro (h | h) <;> cases h) hstep) (Nat.le_refl _)
    (.inl rfl) rfl (fun _ _ _ => id) hwho ?_
  intro hc
  have hdrain := inv.canceling hc
  rw [hs] at hdrain
  cases hdrain

theorem routine_none (hi : ∀ t, s.pool.thread i ≠ .running t) : s.routine i = .none := by
  by_contra h
  obtain ⟨t, ht⟩ := inv.running i h
  exact hi t ht

theorem getOther (hi : s.pool.thread i = .getting) {p : ThreadPool.State}
    (hget : s.pool.get i = some p) (hours : s.firstOurs = false) : Inv n { s with pool := p } := by
  have hstep : ThreadPool.step s.pool (.get i) = some p := by
    rw [ThreadPool.step, if_pos hi]
    exact hget
  have hpool := inv.pool.next (by rintro (h | h) <;> cases h) hstep
  have hrun := running_setThread (p := s.pool) (j := i) (by simp [hi])
  unfold ThreadPool.State.get at hget
  unfold State.firstOurs at hours
  split at hget
  · next t queue hq =>
    cases hget
    rw [hq] at hours
    refine inv.setPool hpool (Nat.le_refl _) (.inl rfl) ?_ (fun j u _ => hrun _ j u)
      inv.destroyer inv.canceling
    rw [hq]
    exact (countP_cons_of_neg (by simpa [State.ours] using hours)).symm
  · next queue hq =>
    cases hget
    refine inv.setPool hpool (Nat.le_refl _) (.inl rfl) ?_ (fun j u _ => hrun _ j u)
      inv.destroyer inv.canceling
    rw [hq]
    exact (countP_cons_of_neg (by simp [State.ours])).symm
  · split_ifs at hget
    cases hget
    exact inv.setPool hpool (Nat.le_refl _) (.inl rfl) rfl (fun j u _ => hrun _ j u)
      inv.destroyer inv.canceling

omit inv in
theorem first_task (hours : s.firstOurs = true) :
    ∃ t queue, s.pool.queue = .task t :: queue ∧ t ∈ s.tasks ∧
      s.pool.queue.countP s.ours = queue.countP s.ours + 1 := by
  unfold State.firstOurs at hours
  split at hours
  · next t queue hq =>
    have ht : t ∈ s.tasks := of_decide_eq_true hours
    refine ⟨t, queue, hq, ht, ?_⟩
    rw [hq]
    exact countP_cons_of_pos (by simp [State.ours, ht])
  · cases hours

theorem getOurs (hi : s.pool.thread i = .getting) {p : ThreadPool.State}
    (hget : s.pool.get i = some p) (hours : s.firstOurs = true) :
    Inv n { s.setRoutine i .entered with pool := p } := by
  have hstep : ThreadPool.step s.pool (.get i) = some p := by
    rw [ThreadPool.step, if_pos hi]
    exact hget
  have hpool := inv.pool.next (by rintro (h | h) <;> cases h) hstep
  have hnone := inv.routine_none (i := i) (by simp [hi])
  obtain ⟨t, queue, hq, -, hcount⟩ := first_task hours
  rw [ThreadPool.State.get, hq] at hget
  cases hget
  have hlt := inv.threads.threads.lt_created (i := i) (by simp [hi])
  refine inv.goOn hnone hlt .entered hpool inv.tasks ?_ ?_ ?_
    (reading_setRoutine (by simp) fun j e _ hj => inv.reading j e hj) inv.order (fun _ => rfl)
    (fun _ => rfl) ⟨rfl, rfl, rfl, rfl, rfl, rfl, rfl⟩
  · intro j hj
    by_cases hji : j = i
    · subst hji
      exact ⟨t, setThread_self s.pool j _⟩
    · obtain ⟨u, hu⟩ := inv.running j (by rwa [← setRoutine_of_ne s .entered hji])
      exact ⟨u, (setThread_of_ne s.pool _ hji).trans hu⟩
  · exact fun hd => absurd hd (inv.threads.threads.not_destroyer hi (by simp))
  · rw [hcount]
    rfl

theorem leave (hr : s.routine i = .none ∨ s.routine i = .handling) :
    Inv n (s.setRoutine i .none) := by
  rcases hr with hr | hr
  · have hsame : s.setRoutine i .none = s := by
      rw [← hr]
      simp [State.setRoutine]
    rw [hsame]
    exact inv
  · exact inv.advance hr (by simp) .none s.list s.taken s.executed s.handled (fun _ => rfl) rfl
      (reading_setRoutine (by simp) fun j e _ hj => inv.reading j e hj) inv.order (fun _ => rfl)
      (fun _ => rfl)

theorem finish {p : ThreadPool.State}
    (hr : s.routine i = .none ∨ s.routine i = .handling)
    (hstep : ThreadPool.step s.pool (.finish i) = some p) :
    Inv n { s.setRoutine i .none with pool := p } := by
  have hpool := inv.pool.next (by rintro (h | h) <;> cases h) hstep
  have hleft := inv.leave hr
  simp only [ThreadPool.step] at hstep
  split at hstep
  · next t hi =>
    split_ifs at hstep
    cases hstep
    refine hleft.setPool hpool (Nat.le_refl _) (.inl rfl) rfl ?_ hleft.destroyer hleft.canceling
    intro j u hj hu
    rw [setThread_of_ne s.pool .ran]
    · exact hu
    · rintro rfl
      exact hj (setRoutine_self s j .none)
  · cases hstep

theorem drain (hc : s.canceling = false) (hs : s.pool.stage = .draining) :
    Inv n { s with pool := s.pool.drain, canceling := s.firstOurs } := by
  have hstep : ThreadPool.step s.pool .drain = some s.pool.drain := by
    rw [ThreadPool.step, if_pos hs]
  have hpool := inv.pool.next (by rintro (h | h) <;> cases h) hstep
  cases hours : s.firstOurs with
  | true =>
    obtain ⟨t, queue, hq, -, hcount⟩ := first_task hours
    have hdrain : s.pool.drain = { s.pool with
        queue := queue
        pending := s.pool.pending ++ [t] } := by
      rw [ThreadPool.State.drain, hq]
    rw [hdrain] at hpool ⊢
    refine { inv with pool := hpool, canceling := fun _ => hs, token := ?_ }
    have hold := inv.token
    change queue.countP s.ours + s.sum Routine.entering + 1 + s.scheduling =
      if s.list = [] ∧ true = false then 0 else 1
    simp only [State.outstanding, hc, Bool.false_eq_true, if_false] at hold
    have hone : (if s.list = [] ∧ true = false then 0 else 1) = 1 := by simp
    split_ifs at hold <;> omega
  | false =>
    have hcount : s.pool.drain.queue.countP s.ours = s.pool.queue.countP s.ours := by
      unfold State.firstOurs at hours
      unfold ThreadPool.State.drain
      split
      · next t queue hq =>
        rw [hq] at hours ⊢
        exact (countP_cons_of_neg (by simpa [State.ours] using hours)).symm
      · next queue hq =>
        rw [hq]
        exact (countP_cons_of_neg (by simp [State.ours])).symm
      · next hq => rfl
    have hfields : s.pool.drain.scheduled = s.pool.scheduled ∧
        s.pool.drain.created = s.pool.created ∧ s.pool.drain.thread = s.pool.thread ∧
        s.pool.drain.destroyer = s.pool.destroyer := by
      unfold ThreadPool.State.drain
      split <;> exact ⟨rfl, rfl, rfl, rfl⟩
    obtain ⟨hscheduled, hcreated, hthread, hdestroyer⟩ := hfields
    have hset := inv.setPool hpool (Nat.le_of_eq hscheduled.symm) (.inl hcreated) hcount
      (fun i t _ => by rw [hthread]; exact id) (by rw [hdestroyer]; exact inv.destroyer)
      (fun h => by rw [hc] at h; cases h)
    rw [← hc]
    exact hset

theorem poolStep {a : Action} (hp : s.permits a = true) {p : ThreadPool.State}
    (h : ThreadPool.step s.pool a = some p) : Inv n (s.poolStep a p) := by
  cases a with
  | schedule =>
    cases h
    exact inv.otherSchedule (by simpa [State.permits] using hp)
  | increase =>
    cases h
    exact inv.increase (by simpa [State.permits] using hp)
  | decrease =>
    cases h
    exact inv.decrease
  | exit i => cases hp
  | destroy who =>
    refine inv.destroy ?_ h
    rintro i rfl
    simp only [State.permits] at hp
    split at hp
    · next hr => rw [hr]; rfl
    · next hr => rw [hr]; rfl
    · next hr => rw [hr]; rfl
    · cases hp
  | get i =>
    simp only [ThreadPool.step] at h
    split_ifs at h with hi
    simp only [State.poolStep]
    cases hours : s.firstOurs with
    | true => exact inv.getOurs hi h hours
    | false =>
      have hsame : s.setRoutine i (s.routine i) = s := by
        simp [State.setRoutine]
      simp only [Bool.false_eq_true, if_false, hsame]
      exact inv.getOther hi h hours
  | finish i =>
    refine inv.finish ?_ h
    simp only [State.permits] at hp
    split at hp
    · next hr => exact .inl hr
    · next hr => exact .inr hr
    · cases hp
  | drain =>
    obtain ⟨hs, rfl⟩ := of_guard h
    exact inv.drain (by simpa [State.permits] using hp) hs
  | loop | check | exitStep | join | pass | readTid | destroyJoin => exact inv.plainStep rfl h

theorem step {a : ExecAction} (h : step s a = some s') : Inv n s' := by
  cases a with
  | request entryOk taskOk =>
    obtain ⟨hs, rfl⟩ := of_guard h
    exact inv.request hs entryOk taskOk
  | pool a =>
    simp only [Executor.step] at h
    split_ifs at h with hp
    obtain ⟨p, hstep, rfl⟩ := Option.map_eq_some_iff.mp h
    exact inv.poolStep hp hstep
  | readHead i =>
    simp only [Executor.step] at h
    split at h
    · next hi =>
      cases h
      exact inv.readHead hi
    · cases h
  | takeSection i =>
    simp only [Executor.step] at h
    split at h
    · next entry hi =>
      cases h
      exact inv.takeSection hi
    · cases h
  | reschedule i =>
    simp only [Executor.step] at h
    split at h
    · next session hi =>
      cases h
      exact inv.reschedule hi
    · cases h
  | execute i =>
    simp only [Executor.step] at h
    split at h
    · next session hi =>
      cases h
      exact inv.execute hi
    · cases h
  | handle i =>
    simp only [Executor.step] at h
    split at h
    · next session hi =>
      split_ifs at h
      cases h
      exact inv.handle hi
    · cases h
  | cancel =>
    obtain ⟨hc, rfl⟩ := of_guard h
    unfold State.cancel
    split
    · next hl => exact inv.cancelEnd hc hl
    · next session list hl => exact inv.cancelOne hc hl

end Inv

theorem reachable_inv (h : Reachable step (State.init n) s) : Inv n s :=
  h.invariant (P := Inv n) (init_inv n) fun _ _ _ inv _ hstep => inv.step hstep

end MyWorkflow.Executor
