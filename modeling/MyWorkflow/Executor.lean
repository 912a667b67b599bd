import MyWorkflow.ThreadPoolRuns

set_option autoImplicit false

/-!
# The executor

One `ExecQueue` and the thread pool that serves it, together with the queues of others. A
section under `queue->mutex` is one step. `executor_thread_routine` reads the first entry before
it locks the mutex, and schedules the next task behind it.
-/
namespace MyWorkflow.Executor
open ThreadPool Runs

abbrev SessionId := ℕ

inductive EsState where
  | finished
  | canceled
deriving DecidableEq, Repr

inductive Routine where
  | none
  | entered
  /-- `queue->session_list.next` is read; an empty list has no entry there. -/
  | read (entry : Option SessionId)
  | rescheduling (session : SessionId)
  | ready (session : SessionId)
  | executing (session : SessionId)
  | handling
deriving DecidableEq, Repr

structure State where
  pool : ThreadPool.State
  list : List SessionId
  tasks : List TaskId
  routine : ThreadId → Routine
  canceling : Bool
  requests : ℕ
  accepted : List SessionId
  taken : List SessionId
  executed : List SessionId
  handled : List (SessionId × EsState)

def State.init (nthreads : ℕ) : State where
  pool := .init nthreads
  list := []
  tasks := []
  routine := fun _ => .none
  canceling := false
  requests := 0
  accepted := []
  taken := []
  executed := []
  handled := []

namespace State

def setRoutine (s : State) (i : ThreadId) (r : Routine) : State :=
  { s with routine := Function.update s.routine i r }

def schedule (s : State) : State :=
  { s with pool := s.pool.schedule, tasks := s.pool.scheduled :: s.tasks }

/-- `Executor::request`, and whether it returned 0; `entryOk` and `taskOk` say whether memory was
    there. -/
def request (s : State) (entryOk taskOk : Bool) : Bool × State :=
  let session := s.requests
  let s := { s with requests := s.requests + 1 }
  if entryOk then
    let first := s.list.isEmpty
    let s := { s with list := s.list ++ [session] }
    if first then
      if taskOk then (true, { s.schedule with accepted := s.accepted ++ [session] })
      else (false, { s with list := s.list.erase session })
    else (true, { s with accepted := s.accepted ++ [session] })
  else (false, s)

def takeSection (s : State) (i : ThreadId) (entry : SessionId) : State :=
  let s := { s with list := s.list.erase entry, taken := s.taken ++ [entry] }
  s.setRoutine i (if s.list.isEmpty then .ready entry else .rescheduling entry)

def cancel (s : State) : State :=
  match s.list with
  | [] => { s with canceling := false }
  | session :: list =>
    { s with
      list := list
      taken := s.taken ++ [session]
      handled := s.handled ++ [(session, .canceled)] }

/-- Which steps of the pool are possible here: others schedule tasks as long as the pool does not
    end, and the code of a session may call `Executor::deinit`. -/
def permits (s : State) : Action → Bool
  | .schedule | .increase => !s.pool.stage.passed
  | .exit _ => false
  | .finish i =>
    match s.routine i with
    | .none | .handling => true
    | _ => false
  | .destroy (some i) =>
    match s.routine i with
    | .none | .executing _ | .handling => true
    | _ => false
  | .drain => !s.canceling
  | _ => true

def firstOurs (s : State) : Bool :=
  match s.pool.queue with
  | .task t :: _ => decide (t ∈ s.tasks)
  | _ => false

def poolStep (s : State) (a : Action) (pool : ThreadPool.State) : State :=
  match a with
  | .get i => { s.setRoutine i (if s.firstOurs then .entered else s.routine i) with pool := pool }
  | .finish i => { s.setRoutine i .none with pool := pool }
  | .drain => { s with pool := pool, canceling := s.firstOurs }
  | _ => { s with pool := pool }

end State

inductive ExecAction where
  | request (entryOk taskOk : Bool)
  | pool (a : Action)
  | readHead (i : ThreadId)
  | takeSection (i : ThreadId)
  | reschedule (i : ThreadId)
  | execute (i : ThreadId)
  | handle (i : ThreadId)
  | cancel
deriving DecidableEq, Repr

def step (s : State) : ExecAction → Option State
  | .request entryOk taskOk =>
    -- no request after the end of the executor has begun
    if s.pool.stage = .none then some (s.request entryOk taskOk).2 else none
  | .pool a => if s.permits a then (ThreadPool.step s.pool a).map (s.poolStep a) else none
  | .readHead i =>
    match s.routine i with
    | .entered => some (s.setRoutine i (.read s.list.head?))
    | _ => none
  | .takeSection i =>
    match s.routine i with
    | .read (some entry) => some (s.takeSection i entry)
    | _ => none
  | .reschedule i =>
    match s.routine i with
    | .rescheduling session => some (s.schedule.setRoutine i (.ready session))
    | _ => none
  | .execute i =>
    match s.routine i with
    | .ready session =>
      some { s.setRoutine i (.executing session) with executed := s.executed ++ [session] }
    | _ => none
  | .handle i =>
    match s.routine i with
    | .executing session =>
      -- a session that has called `Executor::deinit` is in that call
      if s.pool.destroyer = some i ∧ s.pool.stage ≠ .returned then none
      else some { s.setRoutine i .handling with handled := s.handled ++ [(session, .finished)] }
    | _ => none
  | .cancel => if s.canceling then some s.cancel else none

end MyWorkflow.Executor
