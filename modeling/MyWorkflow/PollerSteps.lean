import Mathlib.Data.List.ReduceOption
import MyWorkflow.Poller

set_option autoImplicit false

/-!
# What a step of a poller can do

One case for each way in which a step can go, with what was so before it. The proofs about runs split
a step by these cases.
-/
namespace MyWorkflow.Poller
open Runs

inductive Called (s : State) : Action → State → Prop
  | add {op : Operation} {fd timeout : ℤ} {now : Timespec} (hfd : 0 ≤ fd)
      (hfree : s.registry.nodes fd = none) :
      Called s (.add op fd timeout now true) (s.register op fd (nodeSetTimeout timeout now))
  | del {fd : ℤ} {n : NodeId} (hn : s.registry.nodes fd = some n) :
      Called s (.del fd) (s.dismiss n .deleted)
  | mod {op : Operation} {fd timeout : ℤ} {now : Timespec} {n : NodeId}
      (hn : s.registry.nodes fd = some n) :
      Called s (.mod op fd timeout now true)
        ((s.dismiss n .modified).register op fd (nodeSetTimeout timeout now))
  | setTimeout {fd timeout : ℤ} {now : Timespec} {n : NodeId}
      (hn : s.registry.nodes fd = some n) : Called s (.setTimeout fd timeout now)
        { s with registry := s.registry.setTimeout n (nodeSetTimeout timeout now) }
  | addTimer {value now : Timespec} : Called s (.addTimer value now) (pollerAddTimer value now s)
  | delTimer {n : NodeId} (hn : n ∈ s.handles) (hr : s.registry.removed n = false) :
      Called s (.delTimer n)
        { { s with registry := s.registry.removeTimer n }.setResult n .deleted 0 with
          calls := n :: s.calls }

inductive Moves (s : State) : Action → State → Prop
  | setTimer (ht : s.thread = .ready) : Moves s .setTimer { s with
      registry := { s.registry with queues := s.registry.queues.setTimer }, thread := .waiting }
  | wake {events : List Event} {now : Timespec} (ht : s.thread = .waiting)
      (hok : wakeOk events s = true) :
      Moves s (.wake events now) { s with thread := .handling events false now }
  | timerfd {events : List Event} {p : Bool} {now : Timespec}
      (ht : s.thread = .handling (.timerfd :: events) p now) :
      Moves s .skipEvent { s with thread := .handling events p now }
  | pipeEvent {events : List Event} {p : Bool} {now : Timespec}
      (ht : s.thread = .handling (.pipe :: events) p now) :
      Moves s .skipEvent { s with thread := .handling events true now }
  | noPipe {now : Timespec} (ht : s.thread = .handling [] false now) :
      Moves s .skipEvent { s with thread := .timing now }
  | handle {n : NodeId} {events : List Event} {p : Bool} {now : Timespec} {rest : ℕ}
      (ht : s.thread = .handling (.node n :: events) p now) :
      Moves s (.handle rest) { s with rest := Function.update s.rest n rest }
  | handlerReturn {n : NodeId} {events : List Event} {p : Bool} {now : Timespec}
      (ht : s.thread = .handling (.node n :: events) p now) :
      Moves s .handlerReturn { s with thread := .handling events p now }
  | wasRemoved {n : NodeId} {events : List Event} {p : Bool} {now : Timespec}
      {state : ResultState} {error : ℕ} (ht : s.thread = .handling (.node n :: events) p now)
      (hend : canEnd (s.registry.operation n) state = true) (hr : s.registry.removed n = true) :
      Moves s (.removeNode state error) { s with thread := .handling events p now }
  | remove {n : NodeId} {events : List Event} {p : Bool} {now : Timespec}
      {state : ResultState} {error : ℕ} (ht : s.thread = .handling (.node n :: events) p now)
      (hend : canEnd (s.registry.operation n) state = true) (hr : s.registry.removed n = false) :
      Moves s (.removeNode state error)
        { { s with registry := s.registry.remove n }.setResult n state error with
          thread := .finishing n events p now }
  | finishCallback {n : NodeId} {events : List Event} {p : Bool} {now : Timespec}
      (ht : s.thread = .finishing n events p now) :
      Moves s .finishCallback ({ s with thread := .handling events p now }.callback n)
  | handlePipe {now : Timespec} (ht : s.thread = .handling [] true now) (hne : s.pipe ≠ []) :
      Moves s .handlePipe { s with
        pipe := s.pipe.drop pipeRead, thread := .piping (s.pipe.take pipeRead) false now }
  | pipeEntry {n : NodeId} {entries : List (Option NodeId)} {stop : Bool} {now : Timespec}
      (ht : s.thread = .piping (some n :: entries) stop now) :
      Moves s .pipeEntry ({ s with thread := .piping entries stop now }.callback n)
  | pipeNull {entries : List (Option NodeId)} {stop : Bool} {now : Timespec}
      (ht : s.thread = .piping (none :: entries) stop now) :
      Moves s .pipeEntry { s with thread := .piping entries true now }
  | pipeEnd {stop : Bool} {now : Timespec} (ht : s.thread = .piping [] stop now) :
      Moves s .pipeEnd { s with thread := if stop then .exited else .timing now }
  | handleTimeout {now : Timespec} (ht : s.thread = .timing now) :
      Moves s .handleTimeout { s with
        registry := (s.registry.expire now).2, thread := .expiring (s.registry.expire now).1 }
  | expireCallback {n : NodeId} {due : List NodeId} (ht : s.thread = .expiring (n :: due)) :
      Moves s .expireCallback ({ s.setResult n (expiryResult s.registry n).state
        (expiryResult s.registry n).error with thread := .expiring due }.callback n)
  | expireEnd (ht : s.thread = .expiring []) : Moves s .expireEnd { s with thread := .ready }

inductive Stops (capacity : ℕ) (s : State) : Action → State → Prop
  | callCallback {n : NodeId} (hn : n ∈ s.calls) :
      Stops capacity s (.callCallback n) ({ s with calls := s.calls.erase n }.callback n)
  | write (hstop : s.stop = .notCalled) (hroom : s.pipe.length < capacity) :
      Stops capacity s .stopWrite { s with pipe := s.pipe ++ [none], stop := .joining }
  | join (hstop : s.stop = .joining) (ht : s.thread = .exited) :
      Stops capacity s .stopJoin { s with stopped := true, stop := .joined }
  | critical (hstop : s.stop = .joined) : Stops capacity s .stopCritical { s with
      pipe := []
      registry := s.registry.drain.2
      stop := .stopping s.registry.drain.1
      acceptedAtStop := s.accepted
      reported := s.reported ++
        (s.pipe.take pipeRead).reduceOption.map fun n => ⟨n, s.state n, s.error n⟩ }
  | callback {n : NodeId} {nodes : List NodeId} (hstop : s.stop = .stopping (n :: nodes)) :
      Stops capacity s .stopCallback
        ({ s.setResult n .stopped 0 with stop := .stopping nodes }.callback n)
  | done (hstop : s.stop = .stopping []) :
      Stops capacity s .stopReturn { s with stop := .returned }

inductive Steps (maxOpenFiles capacity : ℕ) (s : State) (a : Action) : State → Prop
  | refused {e : Errno} (h : s.call maxOpenFiles a = some (.error e)) :
      Steps maxOpenFiles capacity s a s
  | called {s' : State} (hcall : s.call maxOpenFiles a = some (.ok s')) (h : Called s a s')
      (hroom : s'.pipe.length ≤ capacity) : Steps maxOpenFiles capacity s a s'
  | moves {s' : State} (h : Moves s a s') : Steps maxOpenFiles capacity s a s'
  | stops {s' : State} (h : Stops capacity s a s') : Steps maxOpenFiles capacity s a s'

variable {maxOpenFiles capacity : ℕ} {s s' : State} {a : Action}

theorem checkFd_ok {fd : ℤ} {u : Unit} (h : checkFd maxOpenFiles fd = .ok u) : 0 ≤ fd := by
  unfold checkFd at h
  split_ifs at h
  omega

theorem checkData_ok {op : Operation} {fd : ℤ} {u : Unit}
    (h : checkData maxOpenFiles op fd = .ok u) : 0 ≤ fd := by
  unfold checkData at h
  cases hc : checkFd maxOpenFiles fd with
  | error e =>
    rw [hc] at h
    cases h
  | ok u => exact checkFd_ok hc

theorem of_bind {ε α β : Type} {x : Except ε α} {f : α → Except ε β} {b : β}
    (h : x.bind f = .ok b) : ∃ a, x = .ok a ∧ f a = .ok b := by
  cases x with
  | error e => cases h
  | ok a => exact ⟨a, rfl, h⟩

theorem called_of_call (h : s.call maxOpenFiles a = some (.ok s')) : Called s a s' := by
  cases a with
  | add op fd timeout now ok =>
    obtain ⟨u, hc, h⟩ := of_bind (Option.some.inj h)
    split at h
    next => cases h
    next hn =>
      cases ok with
      | false => cases h
      | true =>
        cases h
        exact .add (checkData_ok hc) hn
  | del fd =>
    obtain ⟨u, -, h⟩ := of_bind (Option.some.inj h)
    split at h
    next hn => cases h; exact .del hn
    next => cases h
  | mod op fd timeout now ok =>
    obtain ⟨u, -, h⟩ := of_bind (Option.some.inj h)
    split at h
    next hn =>
      cases ok with
      | false => cases h
      | true => cases h; exact .mod hn
    next => cases h
  | setTimeout fd timeout now =>
    obtain ⟨u, -, h⟩ := of_bind (Option.some.inj h)
    split at h
    next hn => cases h; exact .setTimeout hn
    next => cases h
  | addTimer value now =>
    cases h
    exact .addTimer
  | delTimer n =>
    obtain ⟨hn, hcall⟩ := of_guard h
    unfold pollerDelTimer at hcall
    split_ifs at hcall with hr
    cases hcall
    exact .delTimer hn (by simpa using hr)
  | _ => cases h

theorem threadStep_iff : s.threadStep a = some s' ↔ Moves s a s' := by
  constructor
  · intro h
    unfold State.threadStep at h
    split at h
    next ht => cases h; exact .setTimer ht
    next ht =>
      split_ifs at h with hok
      cases h
      exact .wake ht hok
    next ht => cases h; exact .timerfd ht
    next ht => cases h; exact .pipeEvent ht
    next ht => cases h; exact .noPipe ht
    next ht => cases h; exact .handle ht
    next ht => cases h; exact .handlerReturn ht
    next ht =>
      split_ifs at h with hend hr
      · cases h
        exact .wasRemoved ht hend hr
      · cases h
        exact .remove ht hend (by simpa using hr)
    next ht => cases h; exact .finishCallback ht
    next ht =>
      split_ifs at h with hne
      cases h
      exact .handlePipe ht hne
    next ht => cases h; exact .pipeEntry ht
    next ht => cases h; exact .pipeNull ht
    next ht => cases h; exact .pipeEnd ht
    next ht => cases h; exact .handleTimeout ht
    next ht => cases h; exact .expireCallback ht
    next ht => cases h; exact .expireEnd ht
    next => cases h
  · intro h
    cases h <;> simp [State.threadStep, *]

theorem foldl_callback (l : List NodeId) (s : State) :
    l.foldl (fun s n => s.callback n) s =
      { s with reported := s.reported ++ l.map (fun n => ⟨n, s.state n, s.error n⟩) } := by
  induction l generalizing s with
  | nil => simp
  | cons n l ih =>
    rw [List.foldl_cons, ih]
    simp [State.callback]

theorem stopStep_iff : s.stopStep capacity a = some s' ↔ Stops capacity s a s' := by
  constructor
  · intro h
    unfold State.stopStep at h
    split at h
    next =>
      obtain ⟨hn, rfl⟩ := of_guard h
      exact .callCallback hn
    next =>
      obtain ⟨hs, rfl⟩ := of_guard h
      exact .write hs.1 hs.2
    next =>
      obtain ⟨hs, rfl⟩ := of_guard h
      exact .join hs.1 hs.2
    next =>
      obtain ⟨hs, rfl⟩ := of_guard h
      rw [foldl_callback]
      exact .critical hs
    next =>
      split at h
      next hs => cases h; exact .callback hs
      next => cases h
    next =>
      split at h
      next hs => cases h; exact .done hs
      next => cases h
    next => cases h
  · intro h
    cases h <;> simp [State.stopStep, foldl_callback, *]

theorem steps_of_step (h : step maxOpenFiles capacity s a = some s') :
    Steps maxOpenFiles capacity s a s' := by
  unfold step at h
  split_ifs at h
  split at h
  next s₁ hcall =>
    obtain ⟨hroom, rfl⟩ := of_guard h
    exact .called hcall (called_of_call hcall) hroom
  next hcall => cases h; exact .refused hcall
  next =>
    rcases Option.or_eq_some_iff.mp h with h | ⟨-, h⟩
    · exact .moves (threadStep_iff.mp h)
    · exact .stops (stopStep_iff.mp h)

theorem inRange_of_step (h : step maxOpenFiles capacity s a = some s') : a.inRange = true := by
  unfold step at h
  split_ifs at h with hr
  exact hr

theorem step_of_call (hr : a.inRange = true) (hcall : s.call maxOpenFiles a = some (.ok s'))
    (hroom : s'.pipe.length ≤ capacity) : step maxOpenFiles capacity s a = some s' := by
  rw [step, if_pos hr, hcall]
  exact if_pos hroom

theorem step_of_moves (hr : a.inRange = true) (hcall : s.call maxOpenFiles a = none)
    (h : Moves s a s') : step maxOpenFiles capacity s a = some s' := by
  rw [step, if_pos hr, hcall]
  simp only
  rw [threadStep_iff.mpr h, Option.some_or]

end MyWorkflow.Poller
