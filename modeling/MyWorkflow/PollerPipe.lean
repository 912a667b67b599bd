import MyWorkflow.PollerSteps

set_option autoImplicit false

/-!
# The pipe and the mutex of a poller

`poller_del` and `poller_mod` write to the pipe while they hold `poller->mutex`: such a call is two
steps here, and nobody else takes the mutex in between. The other critical sections never wait
inside and stay one step each. `poller_stop` is not called.
-/
namespace MyWorkflow.Poller
open List Runs

structure Locked where
  poller : State
  writer : Option Action

def Locked.init : Locked := ⟨.init, none⟩

inductive LockAction where
  | enter (call : Action)
  | write
  | other (a : Action)
deriving DecidableEq, Repr

def Action.needsMutex : Action → Bool
  | .add _ _ _ _ _ | .del _ | .mod _ _ _ _ _ | .setTimeout _ _ _ | .addTimer _ _ | .delTimer _
  | .setTimer | .removeNode _ _ | .handleTimeout => true
  | _ => false

def Action.ofStop : Action → Bool
  | .stopWrite | .stopJoin | .stopCritical | .stopCallback | .stopReturn => true
  | _ => false

def Action.ofThread : Action → Bool
  | .setTimer | .wake _ _ | .skipEvent | .handle _ | .handlerReturn | .removeNode _ _
  | .finishCallback | .handlePipe | .pipeEntry | .pipeEnd | .handleTimeout | .expireCallback
  | .expireEnd => true
  | _ => false

def Action.writesPipe : Action → Bool
  | .del _ | .mod _ _ _ _ _ => true
  | _ => false

section Locking

variable (maxOpenFiles capacity : ℕ)

def writes (s : State) (a : Action) : Bool :=
  a.writesPipe && (s.call maxOpenFiles a).any Except.isOk

def lockStep (s : Locked) : LockAction → Option Locked
  | .enter call =>
    if s.writer = none ∧ call.inRange = true ∧ writes maxOpenFiles s.poller call = true then
      some { s with writer := some call }
    else none
  | .write =>
    match s.writer with
    | some call => (step maxOpenFiles capacity s.poller call).map fun p => ⟨p, none⟩
    | none => none
  | .other a =>
    if a.ofStop = false ∧ (a.needsMutex = true → s.writer = none) ∧
        writes maxOpenFiles s.poller a = false then
      (step maxOpenFiles capacity s.poller a).map fun p => { s with poller := p }
    else none

def Thread.WantsMutex : Thread → Prop
  | .ready | .timing _ | .handling (.node _ :: _) _ _ => True
  | _ => False

/-- A call waits for room in the pipe with the mutex in its hands, and the only reader waits for
    the mutex. -/
def Deadlock (s : Locked) : Prop :=
  s.writer.isSome = true ∧ capacity ≤ s.poller.pipe.length ∧ s.poller.thread.WantsMutex

def Event.isNode : Event → Bool
  | .node _ => true
  | _ => false

def Thread.Draining : Thread → Prop
  | .handling events p _ | .finishing _ events p _ =>
    (p = true ∨ .pipe ∈ events) ∧ ∀ e ∈ events, e.isNode = false
  | _ => False

instance (thread : Thread) : Decidable thread.Draining :=
  match thread with
  | .handling _ _ _ | .finishing _ _ _ _ => inferInstanceAs (Decidable (_ ∧ _))
  | .ready | .waiting | .piping _ _ _ | .timing _ | .expiring _ | .exited => isFalse id

/-- A call that writes finds room in the pipe, or a thread that is about to read it. -/
def RoomToWrite (s : Locked) : LockAction → Prop
  | .enter _ => s.poller.pipe.length < capacity ∨ s.poller.thread.Draining
  | _ => True

instance (s : Locked) (b : LockAction) : Decidable (RoomToWrite capacity s b) :=
  match b with
  | .enter _ => inferInstanceAs (Decidable (_ ∨ _))
  | .write | .other _ => isTrue trivial

end Locking

variable {maxOpenFiles capacity : ℕ} {s s' : State} {a : Action}

/-! ## Runs without `poller_stop` -/

structure Running (capacity : ℕ) (s : State) : Prop where
  stopped : s.stopped = false
  noNull : none ∉ s.pipe
  room : s.pipe.length ≤ capacity
  exited : s.thread ≠ .exited
  piping : ∀ entries stop now, s.thread = .piping entries stop now → none ∉ entries ∧ stop = false

theorem dismiss_running (hs : s.stopped = false) (n : NodeId) (state : ResultState) :
    (s.dismiss n state).thread = s.thread ∧ (s.dismiss n state).stopped = false ∧
      (s.dismiss n state).pipe = s.pipe ++ [some n] := by
  rw [State.dismiss, State.passOn, if_neg]
  · exact ⟨rfl, hs, rfl⟩
  · change ¬s.stopped = true
    rw [hs]
    exact Bool.false_ne_true

theorem called_running (hs : s.stopped = false) (h : Called s a s') :
    s'.thread = s.thread ∧ s'.stopped = false ∧
      if a.writesPipe then ∃ n, s'.pipe = s.pipe ++ [some n] else s'.pipe = s.pipe := by
  cases h with
  | @del fd n =>
    obtain ⟨hthread, hstopped, hpipe⟩ := dismiss_running hs n .deleted
    exact ⟨hthread, hstopped, n, hpipe⟩
  | @mod op fd timeout now n =>
    obtain ⟨hthread, hstopped, hpipe⟩ := dismiss_running hs n .modified
    exact ⟨hthread, hstopped, n, hpipe⟩
  | _ => exact ⟨rfl, hs, rfl⟩

theorem Running.called (r : Running capacity s) (h : Called s a s')
    (hroom : s'.pipe.length ≤ capacity) : Running capacity s' := by
  obtain ⟨hthread, hstopped, hpipe⟩ := called_running r.stopped h
  refine ⟨hstopped, ?_, hroom, hthread ▸ r.exited, hthread ▸ r.piping⟩
  split_ifs at hpipe
  · obtain ⟨n, hn⟩ := hpipe
    rw [hn]
    simpa using r.noNull
  · rw [hpipe]
    exact r.noNull

theorem Moves.length_le (h : Moves s a s') : s'.pipe.length ≤ s.pipe.length := by
  cases h with
  | handlePipe =>
    rw [length_drop]
    omega
  | _ => exact Nat.le_refl _

theorem Running.moves (r : Running capacity s) (h : Moves s a s') : Running capacity s' := by
  have hlen := h.length_le
  obtain ⟨hstopped, hpipe, hroom, hexited, hpiping⟩ := r
  cases h with
  | handle => exact ⟨hstopped, hpipe, hroom, hexited, hpiping⟩
  | handlePipe ht hne =>
    refine ⟨hstopped, fun hmem => hpipe (mem_of_mem_drop hmem), hlen.trans hroom, by simp, ?_⟩
    intro entries stop now heq
    cases heq
    exact ⟨fun hmem => hpipe (mem_of_mem_take hmem), rfl⟩
  | pipeEntry ht =>
    obtain ⟨hnone, hstop⟩ := hpiping _ _ _ ht
    refine ⟨hstopped, hpipe, hroom, by simp [State.callback], ?_⟩
    intro entries stop now heq
    cases heq
    exact ⟨fun hmem => hnone (mem_cons_of_mem _ hmem), hstop⟩
  | pipeNull ht => exact absurd mem_cons_self (hpiping _ _ _ ht).1
  | pipeEnd ht =>
    obtain rfl := (hpiping _ _ _ ht).2
    exact ⟨hstopped, hpipe, hroom, by simp, by simp⟩
  | _ =>
    exact ⟨hstopped, hpipe, hroom, by simp [State.callback], by simp [State.callback]⟩

theorem draining_moves (hdrain : s.thread.Draining) (hroom : s.pipe.length ≤ capacity)
    (hmutex : a.needsMutex = false) (h : Moves s a s') :
    s'.pipe.length < capacity ∨ s'.thread.Draining := by
  cases h with
  | timerfd ht =>
    rw [ht] at hdrain
    obtain ⟨hp, hnode⟩ := hdrain
    exact .inr ⟨by simpa using hp, fun e he => hnode e (mem_cons_of_mem _ he)⟩
  | pipeEvent ht =>
    rw [ht] at hdrain
    exact .inr ⟨.inl rfl, fun e he => hdrain.2 e (mem_cons_of_mem _ he)⟩
  | noPipe ht =>
    rw [ht] at hdrain
    obtain ⟨hp | hp, -⟩ := hdrain <;> cases hp
  | handle ht | handlerReturn ht =>
    rw [ht] at hdrain
    cases hdrain.2 _ mem_cons_self
  | finishCallback ht =>
    rw [ht] at hdrain
    exact .inr hdrain
  | handlePipe ht hne =>
    have hpos := length_pos_of_ne_nil hne
    have hread : 0 < pipeRead := by decide
    rw [length_drop]
    omega
  | setTimer | wasRemoved | remove | handleTimeout => cases hmutex
  | wake ht | pipeEntry ht | pipeNull ht | pipeEnd ht | expireCallback ht | expireEnd ht =>
    rw [ht] at hdrain
    exact hdrain.elim

structure LockInv (capacity : ℕ) (s : Locked) : Prop where
  running : Running capacity s.poller
  call : ∀ call, s.writer = some call → call.writesPipe = true
  room : s.writer.isSome = true →
    s.poller.pipe.length < capacity ∨ s.poller.thread.Draining

theorem lockStep_inv {s s' : Locked} {b : LockAction} (inv : LockInv capacity s)
    (hb : RoomToWrite capacity s b) (h : lockStep maxOpenFiles capacity s b = some s') :
    LockInv capacity s' := by
  cases b with
  | enter call =>
    obtain ⟨hguard, rfl⟩ := of_guard h
    refine ⟨inv.running, ?_, fun _ => hb⟩
    rintro call' ⟨⟩
    exact (Bool.and_eq_true_iff.mp hguard.2.2).1
  | write =>
    simp only [lockStep] at h
    split at h
    next call hcall =>
      obtain ⟨p, hp, rfl⟩ := Option.map_eq_some_iff.mp h
      have hwrites := inv.call call hcall
      refine ⟨?_, by simp, by simp⟩
      cases steps_of_step hp with
      | refused => exact inv.running
      | called _ hc hroom => exact inv.running.called hc hroom
      | moves hm => cases hm <;> cases hwrites
      | stops hs => cases hs <;> cases hwrites
    next => cases h
  | other a =>
    simp only [lockStep] at h
    split_ifs at h with hguard
    obtain ⟨hstop, hmutex, hwrites⟩ := hguard
    obtain ⟨p, hp, rfl⟩ := Option.map_eq_some_iff.mp h
    cases steps_of_step hp with
    | refused => exact inv
    | called hcall hc hroom =>
      obtain ⟨hthread, -, hpipe⟩ := called_running inv.running.stopped hc
      have hpipe' : p.pipe = s.poller.pipe := by
        rwa [if_neg] at hpipe
        intro hw
        rw [writes, hw, hcall] at hwrites
        cases hwrites
      refine ⟨inv.running.called hc hroom, inv.call, ?_⟩
      rw [hpipe', hthread]
      exact inv.room
    | moves hm =>
      refine ⟨inv.running.moves hm, inv.call, fun hwriter => ?_⟩
      have hfree : a.needsMutex = false := by
        by_contra hm
        rw [hmutex (by simpa using hm)] at hwriter
        cases hwriter
      rcases inv.room hwriter with hlt | hdrain
      · exact .inl (Nat.lt_of_le_of_lt hm.length_le hlt)
      · exact draining_moves hdrain inv.running.room hfree hm
    | stops hs =>
      cases hs with
      | callCallback =>
        obtain ⟨r, hcall, hroom⟩ := inv
        exact ⟨{ r with }, hcall, hroom⟩
      | _ => cases hstop

theorem LockInv.init : LockInv capacity .init :=
  ⟨⟨rfl, not_mem_nil, Nat.zero_le _, by simp [Locked.init, State.init],
    by simp [Locked.init, State.init]⟩, by simp [Locked.init], by simp [Locked.init]⟩

theorem LockInv.no_deadlock {s : Locked} (inv : LockInv capacity s) : ¬Deadlock capacity s := by
  rintro ⟨hwriter, hfull, hwants⟩
  rcases inv.room hwriter with hlt | hdrain
  · omega
  · generalize s.poller.thread = thread at hwants hdrain
    cases thread with
    | handling events p now =>
      cases events with
      | nil => exact hwants
      | cons e events =>
        cases e with
        | node n => cases hdrain.2 _ mem_cons_self
        | timerfd | pipe => exact hwants
    | finishing n events p now => exact hwants
    | _ => exact hdrain

/-! ## Calls that find no room -/

def Leads (maxOpenFiles capacity : ℕ) (s : Locked) : Prop :=
  ∃ (as : List Action) (s' : Locked), (∀ a ∈ as, a.ofThread = true) ∧
    run (lockStep maxOpenFiles capacity) s (as.map .other) = some s' ∧ Deadlock capacity s'

theorem Leads.of_deadlock {s : Locked} (h : Deadlock capacity s) :
    Leads maxOpenFiles capacity s := ⟨[], s, by simp, rfl, h⟩

theorem Leads.step {s : Locked} {p : State} (hmoves : Moves s.poller a p)
    (ha : a.ofThread = true ∧ a.needsMutex = false ∧ a.ofStop = false ∧ a.writesPipe = false ∧
      a.inRange = true ∧ s.poller.call maxOpenFiles a = none)
    (h : Leads maxOpenFiles capacity { s with poller := p }) : Leads maxOpenFiles capacity s := by
  obtain ⟨hthread, hmutex, hstop, hwrites, hrange, hcall⟩ := ha
  obtain ⟨as, s', has, hrun, hdead⟩ := h
  refine ⟨a :: as, s', forall_mem_cons.mpr ⟨hthread, has⟩, ?_, hdead⟩
  have hlock : lockStep maxOpenFiles capacity s (.other a) = some { s with poller := p } := by
    simp [lockStep, hstop, hmutex, writes, hwrites, step_of_moves hrange hcall hmoves]
  rw [map_cons, run, hlock]
  exact hrun

structure Stuck (capacity : ℕ) (s : Locked) : Prop where
  writer : s.writer.isSome = true
  full : capacity ≤ s.poller.pipe.length

theorem Stuck.handling (events : List Event) (p : Bool) (now : Timespec) {s : Locked}
    (k : Stuck capacity s) (hthread : s.poller.thread = .handling events p now)
    (hdrain : ¬(Thread.handling events p now).Draining) : Leads maxOpenFiles capacity s := by
  induction events generalizing p s with
  | nil =>
    have hp : p = false := by
      rw [Bool.eq_false_iff]
      intro hp
      exact hdrain ⟨.inl hp, by simp⟩
    subst hp
    refine Leads.step (.noPipe hthread) ⟨rfl, rfl, rfl, rfl, rfl, rfl⟩ ?_
    exact .of_deadlock ⟨k.writer, k.full, trivial⟩
  | cons e events ih =>
    cases e with
    | timerfd =>
      refine Leads.step (.timerfd hthread) ⟨rfl, rfl, rfl, rfl, rfl, rfl⟩ ?_
      refine ih p ⟨k.writer, k.full⟩ rfl ?_
      rintro ⟨hp, hnode⟩
      exact hdrain ⟨by simpa using hp, forall_mem_cons.mpr ⟨rfl, hnode⟩⟩
    | pipe =>
      refine Leads.step (.pipeEvent hthread) ⟨rfl, rfl, rfl, rfl, rfl, rfl⟩ ?_
      refine ih true ⟨k.writer, k.full⟩ rfl ?_
      rintro ⟨-, hnode⟩
      exact hdrain ⟨by simp, forall_mem_cons.mpr ⟨rfl, hnode⟩⟩
    | node n =>
      refine .of_deadlock ⟨k.writer, k.full, ?_⟩
      rw [hthread]
      trivial

theorem Stuck.expiring (due : List NodeId) {s : Locked} (k : Stuck capacity s)
    (hthread : s.poller.thread = .expiring due) : Leads maxOpenFiles capacity s := by
  induction due generalizing s with
  | nil =>
    refine Leads.step (.expireEnd hthread) ⟨rfl, rfl, rfl, rfl, rfl, rfl⟩ ?_
    exact .of_deadlock ⟨k.writer, k.full, trivial⟩
  | cons n due ih =>
    refine Leads.step (.expireCallback hthread) ⟨rfl, rfl, rfl, rfl, rfl, rfl⟩ ?_
    exact ih ⟨k.writer, k.full⟩ rfl

theorem Stuck.piping (entries : List (Option NodeId)) (now : Timespec) {s : Locked}
    (k : Stuck capacity s) (hthread : s.poller.thread = .piping entries false now)
    (hnone : none ∉ entries) : Leads maxOpenFiles capacity s := by
  induction entries generalizing s with
  | nil =>
    refine Leads.step (.pipeEnd hthread) ⟨rfl, rfl, rfl, rfl, rfl, rfl⟩ ?_
    exact .of_deadlock ⟨k.writer, k.full, trivial⟩
  | cons e entries ih =>
    obtain ⟨he, hrest⟩ := not_or.mp (mt mem_cons.mpr hnone)
    cases e with
    | none => exact absurd rfl he
    | some n =>
      refine Leads.step (.pipeEntry hthread) ⟨rfl, rfl, rfl, rfl, rfl, rfl⟩ ?_
      exact ih ⟨k.writer, k.full⟩ rfl hrest

theorem Stuck.leads {s : Locked} (k : Stuck capacity s)
    (r : Running capacity s.poller) (hdrain : ¬s.poller.thread.Draining) :
    Leads maxOpenFiles capacity s := by
  cases hthread : s.poller.thread with
  | ready | timing => exact .of_deadlock ⟨k.writer, k.full, hthread ▸ trivial⟩
  | waiting =>
    refine Leads.step (@Moves.wake _ [] .zero hthread rfl) ⟨rfl, rfl, rfl, rfl, rfl, rfl⟩ ?_
    exact Stuck.handling [] false .zero ⟨k.writer, k.full⟩ rfl (by simp [Thread.Draining])
  | handling events p now =>
    rw [hthread] at hdrain
    exact k.handling events p now hthread hdrain
  | finishing n events p now =>
    rw [hthread] at hdrain
    refine Leads.step (.finishCallback hthread) ⟨rfl, rfl, rfl, rfl, rfl, rfl⟩ ?_
    exact Stuck.handling events p now ⟨k.writer, k.full⟩ rfl hdrain
  | piping entries stop now =>
    obtain ⟨hnone, rfl⟩ := r.piping _ _ _ hthread
    exact k.piping entries now hthread hnone
  | expiring due => exact k.expiring due hthread
  | exited => exact absurd hthread r.exited

/-! ## The deadlock -/

theorem LockInv.not_leads {s : Locked} (inv : LockInv capacity s) :
    ¬Leads maxOpenFiles capacity s := by
  rintro ⟨as, s', -, hrun, hdead⟩
  induction as generalizing s with
  | nil =>
    cases hrun
    exact inv.no_deadlock hdead
  | cons a as ih =>
    obtain ⟨s₁, hstep, hrun⟩ := Option.bind_eq_some_iff.mp hrun
    exact ih (lockStep_inv (b := .other a) inv trivial hstep) hrun

/-- There is no deadlock in a run in which a call that writes finds room in the pipe or a thread
    that reads it next. From any other call the thread alone can come to it. -/
theorem pipe_deadlock_iff {s : Locked}
    (hs : Reaches (lockStep maxOpenFiles capacity) (RoomToWrite capacity) .init s) :
    ¬Deadlock capacity s ∧ ∀ b s', lockStep maxOpenFiles capacity s b = some s' →
      (RoomToWrite capacity s b ↔ ¬Leads maxOpenFiles capacity s') := by
  have inv : LockInv capacity s := hs.invariant (P := LockInv capacity) .init
    (fun _ _ _ inv hb h => lockStep_inv inv hb h)
  refine ⟨inv.no_deadlock, ?_⟩
  intro b s' h
  refine ⟨fun hb => (lockStep_inv inv hb h).not_leads, ?_⟩
  intro hleads
  by_contra hb
  cases b with
  | enter call =>
    obtain ⟨hfull, hdrain⟩ := not_or.mp hb
    obtain ⟨-, rfl⟩ := of_guard h
    exact hleads (Stuck.leads ⟨rfl, Nat.not_lt.mp hfull⟩ inv.running hdrain)
  | write | other => exact hb trivial

def delRun : List LockAction :=
  [.other (.add .read 0 (-1) .zero true), .enter (.del 0), .write, .other .setTimer,
    .other (.wake [.pipe] .zero), .other .skipEvent, .other .handlePipe, .other .pipeEntry]

theorem delRun_no_deadlock :
    ∃ s, guardedRun (lockStep 1 1) (RoomToWrite 1) .init delRun = some s ∧
      s.poller.reported = [⟨0, .deleted, 0⟩] ∧ ¬Deadlock 1 s := by
  obtain ⟨s, hrun, hreported⟩ : ∃ s,
      guardedRun (lockStep 1 1) (RoomToWrite 1) .init delRun = some s ∧
      s.poller.reported = [⟨0, .deleted, 0⟩] := ⟨_, rfl, rfl⟩
  exact ⟨s, hrun, hreported, (pipe_deadlock_iff (reaches_of_guardedRun delRun .start hrun)).1⟩

theorem pollerMod_ok {n : NodeId} (hs : s.stopped = false) (hn : s.registry.nodes 0 = some n) :
    ∃ s', pollerMod 1 .read 0 (-1) .zero true s = .ok s' ∧ s'.thread = s.thread ∧
      s'.stopped = false ∧ s'.pipe.length = s.pipe.length + 1 ∧
      ∃ m, s'.registry.nodes 0 = some m := by
  obtain ⟨hthread, hstopped, hpipe⟩ := dismiss_running hs n .modified
  have hmod : pollerMod 1 .read 0 (-1) .zero true s =
      .ok ((s.dismiss n .modified).register .read 0 none) := by
    unfold pollerMod
    rw [hn]
    rfl
  refine ⟨_, hmod, hthread, hstopped, ?_, (s.dismiss n .modified).accepted, ?_⟩
  · rw [State.register, hpipe, length_append, length_singleton]
  · simp [State.register, Registry.register]

theorem enter_mod (C : ℕ) {s : Locked} {p : State} (hwriter : s.writer = none)
    (hmod : pollerMod 1 .read 0 (-1) .zero true s.poller = .ok p) :
    lockStep 1 C s (.enter (.mod .read 0 (-1) .zero true)) =
      some { s with writer := some (.mod .read 0 (-1) .zero true) } := by
  rw [lockStep, if_pos]
  refine ⟨hwriter, rfl, ?_⟩
  rw [writes, State.call, hmod]
  rfl

theorem fill_pipe (C k : ℕ) (hk : k ≤ C) :
    ∃ s, Reachable (lockStep 1 C) .init s ∧ s.writer = none ∧
      s.poller.pipe.length = k ∧ s.poller.thread = .ready ∧ s.poller.stopped = false ∧
      ∃ n, s.poller.registry.nodes 0 = some n := by
  induction k with
  | zero =>
    refine ⟨_, Reaches.start.next (a := .other (.add .read 0 (-1) .zero true)) trivial rfl, rfl,
      rfl, rfl, rfl, 0, rfl⟩
  | succ k ih =>
    obtain ⟨s, hs, hwriter, hlength, hthread, hstopped, n, hnodes⟩ := ih (by omega)
    obtain ⟨p, hmod, hthread', hstopped', hlength', hnodes'⟩ :=
      pollerMod_ok hstopped hnodes
    have henter := enter_mod C hwriter hmod
    have hwrite : lockStep 1 C
        { s with writer := some (.mod .read 0 (-1) .zero true) } .write = some ⟨p, none⟩ := by
      have hstep : step 1 C s.poller (.mod .read 0 (-1) .zero true) = some p :=
        step_of_call rfl (by rw [State.call, hmod]) (by omega)
      simp [lockStep, hstep]
    refine ⟨⟨p, none⟩, (hs.next trivial henter).next trivial hwrite, rfl, ?_,
      hthread'.trans hthread, hstopped', hnodes'⟩
    rw [hlength', hlength]

theorem pipe_deadlock : ∀ C, 1 ≤ C →
    ∃ s, Reachable (lockStep 1 C) .init s ∧ Deadlock C s ∧
      s.poller.thread = .ready := by
  intro C _
  obtain ⟨s, hs, hwriter, hlength, hthread, hstopped, n, hnodes⟩ := fill_pipe C C (Nat.le_refl _)
  obtain ⟨p, hmod, -⟩ := pollerMod_ok hstopped hnodes
  refine ⟨_, hs.next trivial (enter_mod C hwriter hmod), ⟨rfl, Nat.le_of_eq hlength.symm, ?_⟩, hthread⟩
  rw [hthread]
  trivial

/-- A pipe of 64 KiB, in which each entry is a pointer. -/
theorem full_pipe_deadlock :
    ∃ s, Reachable (lockStep 1 8192) .init s ∧ Deadlock 8192 s ∧
      s.poller.thread = .ready :=
  pipe_deadlock 8192 (by decide)

end MyWorkflow.Poller
