import MyWorkflow.PollerQueues
import MyWorkflow.Runs

set_option autoImplicit false

/-!
# The poller as a state machine

A section under `poller->mutex` is one step, and so is each callback outside of it; between
two steps of one thread any other thread may run. Nodes are numbered in the order in which
`poller_add`, `poller_mod` and `poller_add_timer` accept them. `reported` lists the terminal
callbacks made so far; results of state `PR_ST_SUCCESS` go out on nodes of their own.

What the environment decides is part of an action: the clock, the result of `epoll_ctl`, the
events of `epoll_wait`, what an I/O handler makes of its node and how it ends. Clocks and durations
stay below 2⁶⁰ seconds.
-/
namespace MyWorkflow.Poller
open RedBlack SearchTree

inductive Operation where
  | timer
  | read
  | write
  | listen
  | connect
  | recvfrom
  | event
  | notify
deriving DecidableEq, Repr

inductive ResultState where
  | finished
  | error
  | deleted
  | modified
  | stopped
deriving DecidableEq, Repr

inductive Errno where
  | EBADF
  | EMFILE
  | EINVAL
  | EEXIST
  | ENOENT
  | epollCtl
deriving DecidableEq, Repr

def ETIMEDOUT : ℕ := 110

def POLLER_BUFSIZE : ℕ := 256 * 1024
def POLLER_EVENTS_MAX : ℕ := 256

def pipeRead : ℕ := POLLER_BUFSIZE / 8

/-! ## What the mutex protects -/

structure Registry where
  queues : Queues
  nodes : ℤ → Option NodeId
  fd : NodeId → ℤ
  operation : NodeId → Operation
  removed : NodeId → Bool

def Registry.members (r : Registry) : List NodeId := r.queues.members

/-- A deadline in milliseconds from now, or none for a negative `timeout`. -/
def nodeSetTimeout (timeout : ℤ) (now : Timespec) : Option Timespec :=
  if timeout < 0 then none
  else
    let sec := now.sec + timeout / 1000
    let nsec := now.nsec + timeout % 1000 * 1000000
    some (if 1000000000 ≤ nsec then ⟨sec + 1, nsec - 1000000000⟩ else ⟨sec, nsec⟩)

def timerDeadline (value now : Timespec) : Timespec :=
  let sec := now.sec + value.sec
  let nsec := now.nsec + value.nsec
  if 1000000000 ≤ nsec then ⟨sec + 1, nsec - 1000000000⟩ else ⟨sec, nsec⟩

def enqueue (n : NodeId) (deadline : Option Timespec) (q : Queues) : Queues :=
  match deadline with
  | some t => { q with timeout := Function.update q.timeout n t }.insertNode n
  | none => q.addNoTimeout n

def Registry.newNode (n : NodeId) (op : Operation) (fd : ℤ) (r : Registry) : Registry :=
  { r with
    queues := { r.queues with inRbtree := Function.update r.queues.inRbtree n false }
    fd := Function.update r.fd n fd
    operation := Function.update r.operation n op
    removed := Function.update r.removed n false }

def Registry.register (n : NodeId) (op : Operation) (fd : ℤ) (deadline : Option Timespec)
    (r : Registry) : Registry :=
  let r := r.newNode n op fd
  { r with
    queues := enqueue n deadline r.queues
    nodes := Function.update r.nodes fd (some n) }

def Registry.addTimer (n : NodeId) (deadline : Timespec) (r : Registry) : Registry :=
  let r := r.newNode n .timer (-1)
  { r with queues := enqueue n (some deadline) r.queues }

def Registry.remove (n : NodeId) (r : Registry) : Registry :=
  { r with
    nodes := Function.update r.nodes (r.fd n) none
    queues := r.queues.unlink n }

def Registry.removeTimer (n : NodeId) (r : Registry) : Registry :=
  { r with
    removed := Function.update r.removed n true
    queues := r.queues.unlink n }

def Registry.setTimeout (n : NodeId) (deadline : Option Timespec) (r : Registry) : Registry :=
  { r with queues := enqueue n deadline (r.queues.unlink n) }

/-- What expiry and stopping do to each node they take: its descriptor is freed, or, for a
    timer, it is marked. -/
def Registry.release (r : Registry) (n : NodeId) : Registry :=
  if 0 ≤ r.fd n then { r with nodes := Function.update r.nodes (r.fd n) none }
  else { r with removed := Function.update r.removed n true }

def Registry.expire (now : Timespec) (r : Registry) : List NodeId × Registry :=
  let (due, queues) := r.queues.expire now
  (due, due.foldl Registry.release { r with queues := queues })

def Registry.drain (r : Registry) : List NodeId × Registry :=
  let (nodes, queues) := r.queues.drain
  (nodes, nodes.foldl Registry.release { r with queues := queues })

/-- What `epoll_wait` reports: the timerfd, the pipe or the node of a descriptor. -/
inductive Event where
  | timerfd
  | pipe
  | node (n : NodeId)
deriving DecidableEq, Repr

inductive Thread where
  | ready
  | waiting
  | handling (events : List Event) (hasPipeEvent : Bool) (now : Timespec)
  | finishing (n : NodeId) (events : List Event) (hasPipeEvent : Bool) (now : Timespec)
  | piping (entries : List (Option NodeId)) (stop : Bool) (now : Timespec)
  | timing (now : Timespec)
  | expiring (due : List NodeId)
  | exited
deriving DecidableEq, Repr

inductive Stop where
  | notCalled
  | joining
  | joined
  | stopping (nodes : List NodeId)
  | returned
deriving DecidableEq, Repr

structure Result where
  node : NodeId
  state : ResultState
  error : ℕ
deriving DecidableEq, Repr

def expiryResult (r : Registry) (n : NodeId) : Result :=
  if 0 ≤ r.fd n then ⟨n, .error, ETIMEDOUT⟩ else ⟨n, .finished, 0⟩

structure State where
  registry : Registry
  state : NodeId → ResultState
  error : NodeId → ℕ
  /-- What else a node holds, such as `res` and the message in `data`. -/
  rest : NodeId → ℕ
  accepted : ℕ
  /-- What `poller_add_timer` gave out. -/
  handles : List NodeId
  pipe : List (Option NodeId)
  stopped : Bool
  thread : Thread
  calls : List NodeId
  stop : Stop
  reported : List Result
  /-- How many nodes were accepted before the critical section of `poller_stop`. -/
  acceptedAtStop : ℕ

def State.init : State where
  registry := ⟨.empty, fun _ => none, fun _ => -1, fun _ => .timer, fun _ => false⟩
  state := fun _ => .finished
  error := fun _ => 0
  rest := fun _ => 0
  accepted := 0
  handles := []
  pipe := []
  stopped := false
  thread := .ready
  calls := []
  stop := .notCalled
  reported := []
  acceptedAtStop := 0

def State.members (s : State) : List NodeId := s.registry.members

def State.callback (n : NodeId) (s : State) : State :=
  { s with reported := s.reported ++ [⟨n, s.state n, s.error n⟩] }

def State.setResult (n : NodeId) (state : ResultState) (error : ℕ) (s : State) : State :=
  { s with state := Function.update s.state n state, error := Function.update s.error n error }

/-! ## The interface -/

section Interface

variable (maxOpenFiles : ℕ)

def checkFd (fd : ℤ) : Except Errno Unit :=
  if fd < 0 then .error .EBADF else if (maxOpenFiles : ℤ) ≤ fd then .error .EMFILE else .ok ()

/-- `__poller_new_node`, as far as it can fail: timers are not made here. -/
def checkData (op : Operation) (fd : ℤ) : Except Errno Unit := do
  checkFd maxOpenFiles fd
  if op = .timer then throw .EINVAL

def State.register (op : Operation) (fd : ℤ) (deadline : Option Timespec) (s : State) : State :=
  { s with
    registry := s.registry.register s.accepted op fd deadline
    accepted := s.accepted + 1 }

def pollerAdd (op : Operation) (fd timeout : ℤ) (now : Timespec) (epollOk : Bool) (s : State) :
    Except Errno State := do
  checkData maxOpenFiles op fd
  match s.registry.nodes fd with
  | some _ => throw .EEXIST
  | none =>
    if epollOk then return s.register op fd (nodeSetTimeout timeout now)
    else throw .epollCtl

/-- How `poller_del` and `poller_mod` pass a node on: through the pipe, or, once the poller is
    stopped, by a callback of their own. -/
def State.passOn (n : NodeId) (s : State) : State :=
  if s.stopped then { s with calls := n :: s.calls }
  else
    { s with
      registry := { s.registry with removed := Function.update s.registry.removed n true }
      pipe := s.pipe ++ [some n] }

/-- What they do to the node of a descriptor. -/
def State.dismiss (n : NodeId) (state : ResultState) (s : State) : State :=
  ({ s with registry := s.registry.remove n }.setResult n state 0).passOn n

def pollerDel (fd : ℤ) (s : State) : Except Errno State := do
  checkFd maxOpenFiles fd
  match s.registry.nodes fd with
  | some n => return s.dismiss n .deleted
  | none => throw .ENOENT

def pollerMod (op : Operation) (fd timeout : ℤ) (now : Timespec) (epollOk : Bool) (s : State) :
    Except Errno State := do
  checkData maxOpenFiles op fd
  match s.registry.nodes fd with
  | some orig =>
    if epollOk then return (s.dismiss orig .modified).register op fd (nodeSetTimeout timeout now)
    else throw .epollCtl
  | none => throw .ENOENT

def pollerSetTimeout (fd timeout : ℤ) (now : Timespec) (s : State) : Except Errno State := do
  checkFd maxOpenFiles fd
  match s.registry.nodes fd with
  | some n =>
    return { s with registry := s.registry.setTimeout n (nodeSetTimeout timeout now) }
  | none => throw .ENOENT

def pollerAddTimer (value now : Timespec) (s : State) : State :=
  { s with
    registry := s.registry.addTimer s.accepted (timerDeadline value now)
    accepted := s.accepted + 1
    handles := s.accepted :: s.handles }

def pollerDelTimer (n : NodeId) (s : State) : Except Errno State :=
  if s.registry.removed n then .error .ENOENT
  else
    .ok { { s with registry := s.registry.removeTimer n }.setResult n .deleted 0 with
      calls := n :: s.calls }

end Interface

inductive Action where
  | add (op : Operation) (fd timeout : ℤ) (now : Timespec) (epollOk : Bool)
  | del (fd : ℤ)
  | mod (op : Operation) (fd timeout : ℤ) (now : Timespec) (epollOk : Bool)
  | setTimeout (fd timeout : ℤ) (now : Timespec)
  | addTimer (value now : Timespec)
  | delTimer (n : NodeId)
  | callCallback (n : NodeId)
  | setTimer
  | wake (events : List Event) (now : Timespec)
  | skipEvent
  /-- A handler works on its node without ending it: it reads, writes, makes results of state
      `PR_ST_SUCCESS`. -/
  | handle (rest : ℕ)
  | handlerReturn
  | removeNode (state : ResultState) (error : ℕ)
  | finishCallback
  | handlePipe
  | pipeEntry
  | pipeEnd
  | handleTimeout
  | expireCallback
  | expireEnd
  | stopWrite
  | stopJoin
  | stopCritical
  | stopCallback
  | stopReturn
deriving DecidableEq, Repr

def canEnd : Operation → ResultState → Bool
  | .read, st | .write, st | .connect, st | .notify, st => st = .finished ∨ st = .error
  | .listen, st | .recvfrom, st | .event, st => st = .error
  | .timer, _ => false

/-- Each descriptor occurs once, and only while its node is registered; the pipe only while
    it can be read. -/
def wakeOk (events : List Event) (s : State) : Bool :=
  events.Nodup && decide (events.length ≤ POLLER_EVENTS_MAX) && events.all fun
    | .timerfd => true
    | .pipe => s.pipe != []
    | .node n => 0 ≤ s.registry.fd n && s.registry.nodes (s.registry.fd n) == some n

/-- The calls. `poller_del_timer` takes what `poller_add_timer` gave out. -/
def State.call (maxOpenFiles : ℕ) (s : State) : Action → Option (Except Errno State)
  | .add op fd timeout now ok => some (pollerAdd maxOpenFiles op fd timeout now ok s)
  | .del fd => some (pollerDel maxOpenFiles fd s)
  | .mod op fd timeout now ok => some (pollerMod maxOpenFiles op fd timeout now ok s)
  | .setTimeout fd timeout now => some (pollerSetTimeout maxOpenFiles fd timeout now s)
  | .addTimer value now => some (.ok (pollerAddTimer value now s))
  | .delTimer n => if n ∈ s.handles then some (pollerDelTimer n s) else none
  | _ => none

def State.threadStep (s : State) (a : Action) : Option State :=
  match s.thread, a with
  | .ready, .setTimer => some { s with
      registry := { s.registry with queues := s.registry.queues.setTimer }
      thread := .waiting }
  | .waiting, .wake events now =>
    if wakeOk events s then some { s with thread := .handling events false now } else none
  | .handling (.timerfd :: events) p now, .skipEvent =>
    some { s with thread := .handling events p now }
  | .handling (.pipe :: events) _ now, .skipEvent =>
    some { s with thread := .handling events true now }
  | .handling [] false now, .skipEvent => some { s with thread := .timing now }
  | .handling (.node n :: _) _ _, .handle rest =>
    some { s with rest := Function.update s.rest n rest }
  | .handling (.node _ :: events) p now, .handlerReturn =>
    some { s with thread := .handling events p now }
  | .handling (.node n :: events) p now, .removeNode state error =>
    if canEnd (s.registry.operation n) state then
      if s.registry.removed n then some { s with thread := .handling events p now }
      else
        some { { s with registry := s.registry.remove n }.setResult n state error with
          thread := .finishing n events p now }
    else none
  | .finishing n events p now, .finishCallback =>
    some ({ s with thread := .handling events p now }.callback n)
  | .handling [] true now, .handlePipe =>
    if s.pipe = [] then none
    else some { s with
      pipe := s.pipe.drop pipeRead, thread := .piping (s.pipe.take pipeRead) false now }
  | .piping (some n :: entries) stop now, .pipeEntry =>
    some ({ s with thread := .piping entries stop now }.callback n)
  | .piping (none :: entries) _ now, .pipeEntry => some { s with thread := .piping entries true now }
  | .piping [] stop now, .pipeEnd => some { s with thread := if stop then .exited else .timing now }
  | .timing now, .handleTimeout =>
    some { s with
      registry := (s.registry.expire now).2, thread := .expiring (s.registry.expire now).1 }
  | .expiring (n :: due), .expireCallback =>
    let r := expiryResult s.registry n
    some ({ s.setResult n r.state r.error with thread := .expiring due }.callback n)
  | .expiring [], .expireEnd => some { s with thread := .ready }
  | _, _ => none

/-- The callbacks of calls, and `poller_stop`. `capacity` is how many entries the pipe holds; a
    write to a full pipe waits. -/
def State.stopStep (capacity : ℕ) (s : State) : Action → Option State
  | .callCallback n =>
    if n ∈ s.calls then some ({ s with calls := s.calls.erase n }.callback n) else none
  | .stopWrite =>
    if s.stop = .notCalled ∧ s.pipe.length < capacity then
      some { s with pipe := s.pipe ++ [none], stop := .joining }
    else none
  | .stopJoin =>
    if s.stop = .joining ∧ s.thread = .exited then
      some { s with stopped := true, stop := .joined }
    else none
  | .stopCritical =>
    if s.stop = .joined then
      -- the callbacks of `__poller_handle_pipe`; what it does not read is lost with the pipe
      let s := (s.pipe.take pipeRead).reduceOption.foldl (fun s n => s.callback n) s
      some { s with
        pipe := []
        registry := s.registry.drain.2
        stop := .stopping s.registry.drain.1
        acceptedAtStop := s.accepted }
    else none
  | .stopCallback =>
    match s.stop with
    | .stopping (n :: nodes) =>
      some ({ s.setResult n .stopped 0 with stop := .stopping nodes }.callback n)
    | _ => none
  | .stopReturn =>
    match s.stop with
    | .stopping [] => some { s with stop := .returned }
    | _ => none
  | _ => none

def Timespec.inRange (t : Timespec) : Bool := t.sec.natAbs < 2 ^ 60 && t.nsec.natAbs < 2 ^ 60

def Action.inRange : Action → Bool
  | .add _ _ timeout now _ | .mod _ _ timeout now _ | .setTimeout _ timeout now =>
    timeout < 2 ^ 31 && now.inRange
  | .addTimer value now => value.inRange && now.inRange
  | .wake _ now => now.inRange
  | _ => true

/-- A call that fails changes nothing, and one that writes to the pipe waits until there is room. -/
def step (maxOpenFiles capacity : ℕ) (s : State) (a : Action) : Option State :=
  if a.inRange then
    match s.call maxOpenFiles a with
    | some (.ok s') => if s'.pipe.length ≤ capacity then some s' else none
    | some (.error _) => some s
    | none => (s.threadStep a).or (s.stopStep capacity a)
  else none

end MyWorkflow.Poller
