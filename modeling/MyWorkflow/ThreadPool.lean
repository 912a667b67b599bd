import MyWorkflow.Bags
import MyWorkflow.Runs

set_option autoImplicit false

/-!
# The thread pool

A section under `pool->mutex` is one step. The messages of the pool stand in one list: `put`
appends, `put_head` goes before the others, and `get` takes the first one or, when the queue is
empty, waits until the queue does not block any more.
-/
namespace MyWorkflow.ThreadPool
open Runs

abbrev ThreadId := ℕ
abbrev TaskId := ℕ

inductive Entry where
  | task (t : TaskId)
  | exit
deriving DecidableEq, Repr

inductive Thread where
  | unborn
  | top
  | getting
  | running (t : TaskId)
  | ran
  | exiting
  | joining (tid : Option ThreadId)
  | ended
deriving DecidableEq, Repr

inductive Stage where
  | none
  | waiting
  | unlocked
  | joining (tid : Option ThreadId)
  | draining
  | returned
deriving DecidableEq, Repr

structure State where
  queue : List Entry
  created : ℕ
  thread : ThreadId → Thread
  nthreads : ℤ
  tid : Option ThreadId
  terminate : Bool
  stage : Stage
  destroyer : Option ThreadId
  /-- Who has joined a thread; `none` is a thread outside of the pool. -/
  joined : ThreadId → List (Option ThreadId)
  freed : ℕ
  scheduled : ℕ
  started : List TaskId
  pending : List TaskId

def State.init (nthreads : ℕ) : State where
  queue := []
  created := nthreads
  thread i := if i < nthreads then .top else .unborn
  nthreads := nthreads
  tid := none
  terminate := false
  stage := .none
  destroyer := none
  joined := fun _ => []
  freed := 0
  scheduled := 0
  started := []
  pending := []

namespace State

def setThread (s : State) (i : ThreadId) (x : Thread) : State :=
  { s with thread := Function.update s.thread i x }

def schedule (s : State) : State :=
  { s with queue := s.queue ++ [.task s.scheduled], scheduled := s.scheduled + 1 }

def increase (s : State) : State :=
  { s.setThread s.created .top with created := s.created + 1, nthreads := s.nthreads + 1 }

def decrease (s : State) : State := { s with queue := .exit :: s.queue }

def get (s : State) (i : ThreadId) : Option State :=
  match s.queue with
  | .task t :: queue =>
    some { s.setThread i (.running t) with queue := queue, started := s.started ++ [t] }
  | .exit :: queue => some { s.setThread i .exiting with queue := queue }
  | [] => if s.terminate then some (s.setThread i .exiting) else none

def check (s : State) (i : ThreadId) : State :=
  if s.nthreads = 0 then { s.setThread i .ended with freed := s.freed + 1 }
  else s.setThread i .top

def exitStep (s : State) (i : ThreadId) : State :=
  { s.setThread i (.joining s.tid) with tid := some i, nthreads := s.nthreads - 1 }

def join (s : State) (who : Option ThreadId) : Option ThreadId → Option State
  | none => some s
  | some j =>
    if s.thread j = .ended then
      some { s with joined := Function.update s.joined j (who :: s.joined j) }
    else none

def terminateSection (s : State) (who : Option ThreadId) : State :=
  { s with
    terminate := true
    stage := .waiting
    destroyer := who
    nthreads := if who.isSome then s.nthreads - 1 else s.nthreads }

/-- One round of the loop in `thrdpool_destroy`, and the end of the call. -/
def drain (s : State) : State :=
  match s.queue with
  | .task t :: queue => { s with queue := queue, pending := s.pending ++ [t] }
  | .exit :: queue => { s with queue := queue }
  | [] =>
    { s with
      stage := .returned
      freed := if s.destroyer.isSome then s.freed else s.freed + 1 }

end State

inductive Action where
  | schedule
  | increase
  | decrease
  | exit (i : ThreadId)
  /-- `thrdpool_destroy` is called, outside of the pool or in the task of a thread. -/
  | destroy (who : Option ThreadId)
  | loop (i : ThreadId)
  | get (i : ThreadId)
  | finish (i : ThreadId)
  | check (i : ThreadId)
  | exitStep (i : ThreadId)
  | join (i : ThreadId)
  | pass
  | readTid
  | destroyJoin
  | drain
deriving DecidableEq, Repr

def step (s : State) : Action → Option State
  | .schedule => some s.schedule
  | .increase => some s.increase
  | .decrease => some s.decrease
  | .exit i =>
    match s.thread i with
    | .running _ => if s.destroyer = some i then none else some (s.setThread i .exiting)
    | _ => none
  | .destroy who =>
    if s.stage = .none then
      match who with
      | none => some (s.terminateSection none)
      | some i =>
        match s.thread i with
        | .running _ => some (s.terminateSection (some i))
        | _ => none
    else none
  | .loop i =>
    if s.thread i = .top then some (s.setThread i (if s.terminate then .exiting else .getting))
    else none
  | .get i => if s.thread i = .getting then s.get i else none
  | .finish i =>
    match s.thread i with
    | .running _ =>
      if s.destroyer = some i ∧ s.stage ≠ .returned then none else some (s.setThread i .ran)
    | _ => none
  | .check i => if s.thread i = .ran then some (s.check i) else none
  | .exitStep i => if s.thread i = .exiting then some (s.exitStep i) else none
  | .join i =>
    match s.thread i with
    | .joining tid => (s.join (some i) tid).map fun s => s.setThread i .ended
    | _ => none
  | .pass =>
    if s.stage = .waiting ∧ ¬0 < s.nthreads then some { s with stage := .unlocked } else none
  | .readTid => if s.stage = .unlocked then some { s with stage := .joining s.tid } else none
  | .destroyJoin =>
    match s.stage with
    | .joining tid => (s.join s.destroyer tid).map fun s => { s with stage := .draining }
    | _ => none
  | .drain => if s.stage = .draining then some s.drain else none

end MyWorkflow.ThreadPool
