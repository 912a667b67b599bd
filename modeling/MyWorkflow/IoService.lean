import Mathlib.Data.List.Basic
import MyWorkflow.Bags
import MyWorkflow.Runs

set_option autoImplicit false

/-!
# Asynchronous file I/O: the IOService

The kernel, the poller thread in `__poller_handle_event`, the handler threads in
`handle_aio_result` and the threads that call `request` and `io_unbind`. Accepted requests are
numbered; `outcome` is the result the kernel has for each.
-/
namespace MyWorkflow.IoService
open Bags Runs

abbrev SessionId := ℕ

inductive IosState where
  | success
  | error
deriving DecidableEq, Repr

def handleArgs (res : ℤ) : IosState × ℤ := if res ≥ 0 then (.success, 0) else (.error, -res)

inductive Result where
  | success (session : SessionId)
  | deleted
  | error
  | stopped
deriving DecidableEq, Repr

inductive Worker where
  | unlinking (session : SessionId)
  | handling (session : SessionId)
  | closing
  | releasing
  | draining
  | drained (session : SessionId)
deriving DecidableEq, Repr

/-- The poller thread; `cnt` is the local variable of `__poller_handle_event`. -/
inductive PollerThread where
  | idle
  | event (cnt : ℕ)
  | reaped (session : SessionId) (cnt : ℕ)
  | counted (session : SessionId) (cnt : ℕ)
  | leaving (cnt : ℕ)
deriving DecidableEq, Repr

inductive Node where
  | registered
  | deleted
  | gone
deriving DecidableEq, Repr

structure State where
  eventFd : Bool
  ref : ℤ
  /-- The session a thread in `request` has submitted and not yet linked; it holds the mutex. -/
  adding : Option SessionId
  accepted : ℕ
  sessionList : List SessionId
  inflight : List SessionId
  ring : List SessionId
  unsignalled : ℕ
  eventCount : ℕ
  node : Node
  poller : PollerThread
  results : List Result
  workers : List Worker
  unbinding : Bool
  res : SessionId → ℤ
  handled : List (SessionId × IosState × ℤ)
  unbound : ℕ

def State.init : State where
  eventFd := true
  ref := 1
  adding := none
  accepted := 0
  sessionList := []
  inflight := []
  ring := []
  unsignalled := 0
  eventCount := 0
  node := .registered
  poller := .idle
  results := []
  workers := []
  unbinding := false
  res := fun _ => 0
  handled := []
  unbound := 0

inductive Op where
  | request (ok : Bool)
  | link
  | complete (session : SessionId)
  | signal
  /-- `__poller_handle_event` reads the descriptor; `ok` if the last error is `EAGAIN`. -/
  | pollRead (ok : Bool)
  | aioFinish (session : Option SessionId)
  | incref
  | callback (ok : Bool)
  | pollReturn
  | pollLeave
  | pollPipe
  | pollStop
  | ioUnbind
  | take (result : Result)
  | work (worker : Worker)
  | drain (session : SessionId)
deriving DecidableEq, Repr

section Step

variable (outcome : SessionId → ℤ)

def State.request (s : State) (ok : Bool) : State :=
  if s.eventFd = true ∧ ok = true then
    { s with
      accepted := s.accepted + 1
      inflight := s.inflight ++ [s.accepted]
      adding := some s.accepted }
  else s

/-- `__poller_remove_node` behind the loop of `__poller_handle_event`, and the error result. -/
def State.pollLeave (s : State) (cnt : ℕ) : State :=
  let s := { s with eventCount := s.eventCount + cnt, poller := .idle }
  match s.node with
  | .registered => { s with node := .gone, results := s.results ++ [.error] }
  | _ => s

def State.ioUnbind (s : State) : State :=
  let s := { s with unbinding := true }
  match s.node with
  | .registered => { s with node := .deleted }
  -- `mpoller_del` fails
  | _ => { s with workers := .closing :: s.workers }

def Result.workers : Result → List Worker
  | .success session => [.unlinking session]
  | .deleted => [.closing]
  -- `handle_stop`
  | .error => []
  | .stopped => []

/-- The next step of a thread in `handle_aio_result`, `shutdown_io_service` or `decref`. -/
def State.work (s : State) (w : Worker) : Option State :=
  match w with
  | .unlinking session =>
    if s.adding = none then
      some { s with
        sessionList := s.sessionList.erase session
        workers := replace w [.handling session] s.workers }
    else none
  | .handling session =>
    some { s with
      handled := s.handled ++ [(session, handleArgs (s.res session))]
      workers := replace w [.releasing] s.workers }
  | .closing =>
    if s.adding = none then
      some { s with eventFd := false, workers := replace w [.releasing] s.workers }
    else none
  | .releasing =>
    some { s with
      ref := s.ref - 1
      workers := replace w (if s.ref - 1 = 0 then [.draining] else []) s.workers }
  | .draining =>
    if s.sessionList = [] then
      some { s with unbound := s.unbound + 1, workers := replace w [] s.workers }
    else none
  | .drained session =>
    some { s with
      sessionList := s.sessionList.erase session
      res := Function.update s.res session (outcome session)
      handled := s.handled ++ [(session, handleArgs (outcome session))]
      workers := replace w [.draining] s.workers }

def step (s : State) (op : Op) : Option State :=
  match op with
  | .request ok => if s.adding = none then some (s.request ok) else none
  | .link =>
    match s.adding with
    | some session => some { s with sessionList := s.sessionList ++ [session], adding := none }
    | none => none
  | .complete session =>
    if session ∈ s.inflight then
      some { s with
        inflight := s.inflight.erase session
        ring := s.ring ++ [session]
        unsignalled := s.unsignalled + 1 }
    else none
  | .signal =>
    if 0 < s.unsignalled then
      some { s with unsignalled := s.unsignalled - 1, eventCount := s.eventCount + 1 }
    else none
  | .pollRead ok =>
    if s.poller = .idle ∧ s.node ≠ .gone ∧ 0 < s.eventCount then
      some { s with
        eventCount := 0
        poller := if ok then .event s.eventCount else .leaving s.eventCount }
    else none
  | .aioFinish (some session) =>
    match s.poller with
    | .event (cnt + 1) =>
      if session ∈ s.ring then
        some { s with ring := s.ring.erase session, poller := .reaped session cnt }
      else none
    | _ => none
  | .aioFinish none =>
    match s.poller with
    | .event (cnt + 1) => some { s with poller := .leaving cnt }
    | _ => none
  | .incref =>
    match s.poller with
    | .reaped session cnt =>
      some { s with
        ref := s.ref + 1
        res := Function.update s.res session (outcome session)
        poller := .counted session cnt }
    | _ => none
  | .callback ok =>
    match s.poller with
    | .counted session cnt =>
      some { s with
        results := s.results ++ [.success session]
        poller := if ok then .event cnt else .leaving cnt }
    | _ => none
  | .pollReturn => if s.poller = .event 0 then some { s with poller := .idle } else none
  | .pollLeave =>
    match s.poller with
    | .leaving cnt => some (s.pollLeave cnt)
    | _ => none
  | .pollPipe =>
    if s.poller = .idle ∧ s.node = .deleted then
      some { s with node := .gone, results := s.results ++ [.deleted] }
    else none
  | .pollStop =>
    if s.poller = .idle ∧ s.node = .registered then
      some { s with node := .gone, results := s.results ++ [.stopped] }
    else none
  | .ioUnbind => if s.unbinding = false then some s.ioUnbind else none
  | .take result =>
    if result ∈ s.results then
      some { s with
        results := s.results.erase result
        workers := result.workers ++ s.workers }
    else none
  | .work worker => if worker ∈ s.workers then s.work outcome worker else none
  | .drain session =>
    if .draining ∈ s.workers ∧ s.sessionList ≠ [] ∧ session ∈ s.ring then
      some { s with
        ring := s.ring.erase session
        workers := replace .draining [.drained session] s.workers }
    else none

end Step

/-! ## Where a session is -/

section Counts

variable (x : SessionId)

def isSession (y : SessionId) : ℕ := if y = x then 1 else 0

def Result.has : Result → ℕ
  | .success y => isSession x y
  | _ => 0

def Worker.has : Worker → ℕ
  | .unlinking y => isSession x y
  | .handling y => isSession x y
  | .drained y => isSession x y
  | _ => 0

def Worker.linked : Worker → ℕ
  | .unlinking y => isSession x y
  | .drained y => isSession x y
  | _ => 0

def PollerThread.has : PollerThread → ℕ
  | .reaped y _ => isSession x y
  | .counted y _ => isSession x y
  | _ => 0

def Option.hasSession : Option SessionId → ℕ
  | some y => isSession x y
  | none => 0

end Counts

/-- The reference of `io_bind` travels to the call of `shutdown_io_service`. -/
def Result.base : Result → ℕ
  | .deleted => 1
  | _ => 0

def Worker.base : Worker → ℕ
  | .closing => 1
  | _ => 0

def State.userBase (s : State) : ℕ :=
  if s.node = .gone ∧ s.unbinding = true then 0 else 1

/-- The references that `aio_finish` took, and the one of `shutdown_io_service` behind its critical
    section. -/
def Result.counts : Result → ℕ
  | .success _ => 1
  | _ => 0

def Worker.counts : Worker → ℕ
  | .unlinking _ => 1
  | .handling _ => 1
  | .releasing => 1
  | _ => 0

def PollerThread.counts : PollerThread → ℕ
  | .counted _ _ => 1
  | _ => 0

def Worker.drains : Worker → ℕ
  | .draining => 1
  | .drained _ => 1
  | _ => 0

def PollerThread.carries (x : SessionId) : PollerThread → ℕ
  | .counted y _ => isSession x y
  | _ => 0

def Worker.carries (x : SessionId) : Worker → ℕ
  | .unlinking y => isSession x y
  | .handling y => isSession x y
  | _ => 0

/-- What can have a session or a reference. -/
inductive Item where
  | kernel (session : SessionId)
  | ring (session : SessionId)
  | poller (thread : PollerThread)
  | result (r : Result)
  | worker (w : Worker)

def Item.has (x : SessionId) : Item → ℕ
  | .kernel y | .ring y => isSession x y
  | .poller p => p.has x
  | .result r => r.has x
  | .worker w => w.has x

def Item.linked (x : SessionId) : Item → ℕ
  | .worker w => w.linked x
  | item => item.has x

def Item.carries (x : SessionId) : Item → ℕ
  | .kernel _ | .ring _ => 0
  | .poller p => p.carries x
  | .result r => r.has x
  | .worker w => w.carries x

def Item.base : Item → ℕ
  | .result r => r.base
  | .worker w => w.base
  | _ => 0

def Item.counts : Item → ℕ
  | .kernel _ | .ring _ => 0
  | .poller p => p.counts
  | .result r => r.counts
  | .worker w => w.counts

def Item.drains : Item → ℕ
  | .worker w => w.drains
  | _ => 0

def State.tally (f : Item → ℕ) (s : State) : ℕ :=
  load (fun y => f (.kernel y)) s.inflight + load (fun y => f (.ring y)) s.ring +
    f (.poller s.poller) + load (fun r => f (.result r)) s.results +
    load (fun w => f (.worker w)) s.workers

def PollerThread.cnt : PollerThread → ℕ
  | .idle => 0
  | .event cnt => cnt
  | .reaped _ cnt => cnt
  | .counted _ cnt => cnt
  | .leaving cnt => cnt

def PollerThread.isLeaving : PollerThread → Bool
  | .leaving _ => true
  | _ => false

structure Books (outcome : SessionId → ℤ) (s : State) : Prop where
  once : ∀ x, s.tally (Item.has x) + (s.handled.map Prod.fst).count x =
    if x < s.accepted then 1 else 0
  linked : ∀ x, s.sessionList.count x + Option.hasSession x s.adding = s.tally (Item.linked x)
  base : s.userBase + s.tally Item.base = if s.eventFd then 1 else 0
  ref : s.ref = (if s.eventFd then 1 else 0 : ℕ) + s.tally Item.counts
  drains : s.tally Item.drains + s.unbound = if s.ref = 0 then 1 else 0
  res : ∀ x, 0 < s.tally (Item.carries x) → s.res x = outcome x

structure Inv (outcome : SessionId → ℤ) (s : State) : Prop extends Books outcome s where
  ended : 0 < s.unbound → s.sessionList = []
  unlocked : s.eventFd = false → s.adding = none
  polling : s.poller ≠ .idle → s.node ≠ .gone
  registered : s.node = .registered → s.unbinding = false
  deleted : s.node = .deleted → s.unbinding = true
  signals : s.node ≠ .gone → s.unsignalled + s.eventCount + s.poller.cnt ≤ s.ring.length
  awake : s.node = .registered → s.poller.isLeaving = false →
    s.ring.length ≤ s.unsignalled + s.eventCount + s.poller.cnt
  args : ∀ call ∈ s.handled, call.2 = handleArgs (outcome call.1)

end MyWorkflow.IoService
