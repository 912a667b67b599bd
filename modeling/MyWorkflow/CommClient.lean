import MyWorkflow.Bags
import MyWorkflow.CommConn
import MyWorkflow.Runs

set_option autoImplicit false

/-!
# Client connections

All requests on one target, its connections and the poller results on them. A section under
`target->mutex` or `entry->mutex` is one step where it does not call the poller, and so is each
call of the poller, each update of `ref`, `target->release` and `session->handle`.
-/
namespace MyWorkflow.Comm.Client
open Bags

/-- A request of `CommScheduler::request` that has acquired the target, and its session. -/
abbrev SessionId := ℕ
abbrev EntryId := ℕ

/-- What a handler does with the connection after `session->handle`. -/
inductive After where
  | releaseConn
  | lock
  | decref
deriving DecidableEq, Repr

inductive Slot where
  | none
  | launched (session : SessionId)
  | registered (op : Operation) (live : Bool)
  | result (op : Operation) (state : Terminal)
  /-- The request is sent, on a new connection or not; `mpoller_add` for its reply is next. -/
  | addRead (session : SessionId) (new : Bool)
  | release (session : SessionId) (state : CsState) (after : After)
  | handle (session : SessionId) (state : CsState) (after : After)
  | lock
  | decref
  | releaseConn
deriving DecidableEq, Repr

def After.slot : After → Slot
  | .releaseConn => .releaseConn
  | .lock => .lock
  | .decref => .decref

/-- A result of state `PR_ST_SUCCESS` and its handler. `keepAlive` is whether `append_message`
    left a timeout in the session. -/
inductive Reply where
  | queued (keepAlive : Bool)
  | loaded (session : SessionId) (keepAlive : Bool)
  | release (session : SessionId)
  | handle (session : SessionId)
  | decref
  | releaseConn
deriving DecidableEq, Repr

inductive Holding where
  | taken
  | lost
  | sending
  | failing
  | failed
  | leaving
deriving DecidableEq, Repr

inductive Stage where
  | looking
  | fresh
  | failed
deriving DecidableEq, Repr

structure Request where
  session : SessionId
  stage : Stage
deriving DecidableEq, Repr

structure Conn where
  state : ConnState
  ref : ℤ
  session : SessionId
  slot : Slot
  replies : List Reply
  mutex : Option (SessionId × Holding)
  released : ℕ
deriving DecidableEq, Repr

inductive IdleList where
  | same
  | add
  | del
deriving DecidableEq, Repr

structure Effect where
  idle : IdleList := .same
  requests : List Request := []
  released : List SessionId := []
  handled : List (SessionId × CsState) := []
  returned : List SessionId := []
deriving DecidableEq, Repr

namespace Conn

def launch (s : SessionId) : Conn := ⟨.connecting, 1, s, .launched s, [], none, 0⟩

def take (s : SessionId) (c : Conn) : Conn := { c with mutex := some (s, .taken) }

/-- On an idle connection `send_message_async` modifies the registration, otherwise it makes one. -/
def sendMessage (w : Writing) (c : Conn) : Sent × Conn :=
  match w with
  | .failed => (.failed, c)
  | .complete => (.sent, { c with state := .receiving })
  | .partly ok =>
    if c.state = .idle then
      match c.slot with
      | .registered _ true =>
        if ok then (.pending, { c with slot := .registered .write true }) else (.failed, c)
      | _ => (.pending, { c with state := .receiving })
    else if ok then (.pending, { c with slot := .registered .write true })
    else (.failed, c)

def handleConnectResult (t : Terminal) (w : Writing) (c : Conn) : Conn :=
  match t with
  | .finished =>
    match c.sendMessage w with
    | (.sent, c) => { c with slot := .addRead c.session true }
    | (.pending, c) => c
    | (.failed, c) => { c with slot := .release c.session t.csState .releaseConn }
  | _ => { c with slot := .release c.session t.csState .releaseConn }

def handleRequestResult (t : Terminal) (c : Conn) : Conn :=
  match t with
  | .finished => { c with state := .receiving, slot := .addRead c.session false }
  | _ => { c with slot := .release c.session t.csState .lock }

def addRead (s : SessionId) (new ok : Bool) (c : Conn) : Conn :=
  { c with slot :=
      if ok then .registered .read true
      else .release s .error (if new then .releaseConn else .lock) }

def handleIncomingReply (t : Terminal) (c : Conn) : Conn × Effect :=
  match c.state with
  | .idle => ({ c with slot := .decref }, { idle := .del })
  | .error => ({ c with slot := .release c.session .error .decref }, {})
  | .receiving => ({ c with slot := .release c.session t.csState .decref }, {})
  | .success => ({ c with state := .closing, slot := .none }, {})
  | _ => ({ c with slot := .decref }, {})

def finish (c : Conn) : Option (Conn × Effect) :=
  match c.slot with
  | .release s cs after => some ({ c with slot := .handle s cs after }, { released := [s] })
  | .handle s cs after => some ({ c with slot := after.slot }, { handled := [(s, cs)] })
  | .lock => if c.mutex = none then some ({ c with slot := .decref }, {}) else none
  | .decref =>
    some ({ c with ref := c.ref - 1, slot := if c.ref - 1 = 0 then .releaseConn else .none }, {})
  | .releaseConn => some ({ c with slot := .none, released := c.released + 1 }, {})
  | _ => none

def reply (r : Reply) (c : Conn) : Conn × Effect :=
  match r with
  | .queued k => ({ c with replies := replace r [.loaded c.session k] c.replies }, {})
  | .loaded s k =>
    if c.state = .success then
      ({ c with
          ref := c.ref + 1
          state := if k then .idle else .closing
          replies := replace r [.release s] c.replies },
        { idle := if k then .add else .same })
    else ({ c with replies := replace r [.release s] c.replies }, {})
  | .release s => ({ c with replies := replace r [.handle s] c.replies }, { released := [s] })
  | .handle s =>
    ({ c with replies := replace r [.decref] c.replies }, { handled := [(s, .success)] })
  | .decref =>
    ({ c with
        ref := c.ref - 1
        replies := replace r (if c.ref - 1 = 0 then [.releaseConn] else []) c.replies }, {})
  | .releaseConn =>
    ({ c with replies := replace r [] c.replies, released := c.released + 1 }, {})

end Conn

inductive ConnAction where
  | register (ok : Bool)
  /-- The poller takes the node off its table, on its own or for `mpoller_del`. -/
  | unregister
  | terminate (state : Terminal)
  | message (keepAlive : Bool)
  | handleResult (w : Writing)
  | addRead (ok : Bool)
  | finish
  | reply (r : Reply)
  | setTimeout
  | giveUp
  | send (w : Writing)
  | delete
  | setError
  | unlock
deriving DecidableEq, Repr

def Conn.step (c : Conn) : ConnAction → Option (Conn × Effect)
  | .register ok =>
    match c.slot with
    | .launched s =>
      some (if ok then ({ c with slot := .registered .connect true }, { returned := [s] })
        else ({ c with slot := .none, released := c.released + 1 },
          { requests := [⟨s, .failed⟩] }))
    | _ => none
  | .unregister =>
    match c.slot with
    | .registered op true => some ({ c with slot := .registered op false }, {})
    | _ => none
  | .terminate t =>
    match c.slot with
    | .registered op false => some ({ c with slot := .result op t }, {})
    | _ => none
  | .message keepAlive =>
    match c.slot with
    | .registered .read live =>
      -- `create_reply` makes a message in no other state
      if c.state = .receiving then
        some ({ c with
            state := .success
            slot := .registered .read (live && keepAlive)
            replies := .queued keepAlive :: c.replies }, {})
      else none
    | _ => none
  | .handleResult w =>
    match c.slot with
    | .result .connect t => some (c.handleConnectResult t w, {})
    | .result .write t => some (c.handleRequestResult t, {})
    | .result .read t => if c.mutex = none then some (c.handleIncomingReply t) else none
    | _ => none
  | .addRead ok =>
    match c.slot with
    | .addRead s new => some (c.addRead s new ok, {})
    | _ => none
  | .finish => c.finish
  | .reply r => if r ∈ c.replies then some (c.reply r) else none
  | .setTimeout =>
    match c.mutex with
    | some (s, .taken) =>
      match c.slot with
      | .registered _ true =>
        some ({ c with session := s, mutex := some (s, .sending) }, {})
      | _ => some ({ c with mutex := some (s, .lost) }, {})
    | _ => none
  | .giveUp =>
    match c.mutex with
    | some (s, .lost) =>
      some ({ c with state := .closing, mutex := none }, { requests := [⟨s, .looking⟩] })
    | _ => none
  | .send w =>
    match c.mutex with
    | some (s, .sending) =>
      match c.sendMessage w with
      | (.failed, c) => some ({ c with mutex := some (s, .failing) }, {})
      | (_, c) => some ({ c with mutex := some (s, .leaving) }, {})
    | _ => none
  | .delete =>
    match c.mutex with
    | some (s, .failing) =>
      match c.slot with
      | .registered op _ =>
        some ({ c with slot := .registered op false, mutex := some (s, .failed) }, {})
      | _ => some ({ c with mutex := some (s, .failed) }, {})
    | _ => none
  | .setError =>
    match c.mutex with
    | some (s, .failed) => some ({ c with state := .error, mutex := some (s, .leaving) }, {})
    | _ => none
  | .unlock =>
    match c.mutex with
    | some (s, .leaving) => some ({ c with mutex := none }, { returned := [s] })
    | _ => none

structure State where
  conns : EntryId → Conn
  entries : ℕ
  idle : List EntryId
  requests : List Request
  sessions : ℕ
  released : List SessionId
  handled : List (SessionId × CsState)
  returned : List SessionId
  refused : List SessionId

def State.init : State := ⟨fun _ => .launch 0, 0, [], [], 0, [], [], [], []⟩

inductive Action where
  /-- `CommScheduler::request` acquires the target; a passive session is refused. -/
  | acquire (passive : Bool)
  /-- `request_idle_conn` takes the first idle connection and its mutex. -/
  | take (s : SessionId)
  | launch (s : SessionId) (ok : Bool)
  | refuse (s : SessionId)
  | conn (e : EntryId) (a : ConnAction)
deriving DecidableEq, Repr

def IdleList.apply (e : EntryId) (idle : List EntryId) : IdleList → List EntryId
  | .same => idle
  | .add => e :: idle
  | .del => idle.erase e

def State.apply (e : EntryId) (c : Conn) (eff : Effect) (s : State) : State :=
  { s with
    conns := Function.update s.conns e c
    idle := eff.idle.apply e s.idle
    requests := eff.requests ++ s.requests
    released := eff.released ++ s.released
    handled := eff.handled ++ s.handled
    returned := eff.returned ++ s.returned }

def step (s : State) : Action → Option State
  | .acquire passive => some { s with
      requests := ⟨s.sessions, if passive then .failed else .looking⟩ :: s.requests
      sessions := s.sessions + 1 }
  | .take i =>
    if ⟨i, .looking⟩ ∈ s.requests then
      match s.idle with
      | [] => some { s with requests := replace ⟨i, .looking⟩ [⟨i, .fresh⟩] s.requests }
      | e :: idle =>
        if (s.conns e).mutex = none then
          some { s with
            conns := Function.update s.conns e ((s.conns e).take i)
            idle := idle
            requests := replace ⟨i, .looking⟩ [] s.requests }
        else none
    else none
  | .launch i ok =>
    if ⟨i, .fresh⟩ ∈ s.requests then
      if ok then
        some { s with
          conns := Function.update s.conns s.entries (.launch i)
          entries := s.entries + 1
          requests := replace ⟨i, .fresh⟩ [] s.requests }
      else some { s with requests := replace ⟨i, .fresh⟩ [⟨i, .failed⟩] s.requests }
    else none
  | .refuse i =>
    if ⟨i, .failed⟩ ∈ s.requests then
      some { s with
        requests := replace ⟨i, .failed⟩ [] s.requests
        released := i :: s.released
        refused := i :: s.refused }
    else none
  | .conn e a =>
    if e < s.entries then ((s.conns e).step a).map (fun r => s.apply e r.1 r.2 ) else none

end MyWorkflow.Comm.Client
