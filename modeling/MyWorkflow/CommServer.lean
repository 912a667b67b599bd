import MyWorkflow.Bags
import MyWorkflow.CommConn
import MyWorkflow.Runs

set_option autoImplicit false

/-!
# A server connection

One connection of a reliable service and the sessions on it. A section under `target->mutex` or
`service->mutex` is one step, and so is each update of `ref` and each `session->handle`. Every
target of a service has one connection, so its idle list and its place among the alive ones are
flags.
-/
namespace MyWorkflow.Comm.Server
open Bags

abbrev SessionId := ℕ

inductive Slot where
  | none
  | registered (op : Operation) (live : Bool)
  | result (op : Operation) (state : Terminal)
  /-- The reply is written and a reference taken for the next request; the section of
      `handle_reply_result` is next. -/
  | keepAlive (session : SessionId)
deriving DecidableEq, Repr

inductive Job where
  | queued
  | loaded (session : SessionId)
  | handle (session : SessionId) (state : CsState)
  | decref
  | releaseConn
deriving DecidableEq, Repr

structure State where
  state : ConnState
  ref : ℤ
  session : SessionId
  slot : Slot
  jobs : List Job
  idle : Bool
  alive : Bool
  listening : Bool
  reading : Bool
  released : ℕ
  sessions : ℕ
  passive : SessionId → ℕ
  handled : List (SessionId × CsState)
  accepted : List SessionId

def State.init : State where
  state := .connected
  ref := 1
  session := 0
  slot := .registered .read true
  jobs := []
  idle := false
  alive := false
  listening := true
  reading := false
  released := 0
  sessions := 0
  passive := fun _ => 0
  handled := []
  accepted := []

def Slot.delete : Slot → Slot
  | .registered op _ => .registered op false
  | slot => slot

namespace State

def createRequest (s : State) : State :=
  { s with
    alive := false
    session := s.sessions
    passive := Function.update s.passive s.sessions 1
    state := .receiving
    reading := true
    sessions := s.sessions + 1 }

/-- Put the connection among the alive ones, or close it when its service does not listen any
    more or `keepAlive` is not asked for. -/
def rest (keepAlive : Bool) (s : State) : State :=
  if keepAlive && s.listening then { s with state := .keepalive, alive := true }
  else { s with state := .closing, slot := s.slot.delete }

def sendMessage (w : Writing) (keepAlive : Bool) (s : State) : Sent × State :=
  match w with
  | .failed => (.failed, s)
  | .complete => (.sent, { s with ref := s.ref + 1 }.rest keepAlive)
  | .partly ok =>
    if s.state = .idle then
      match s.slot with
      | .registered _ true =>
        if ok then (.pending, { s with slot := .registered .write true }) else (.failed, s)
      | _ => (.pending, { s with state := .receiving })
    else if ok then (.pending, { s with slot := .registered .write true })
    else (.failed, s)

def accept (i : SessionId) (s : State) : State := { s with accepted := i :: s.accepted }

def replyReliable (i : SessionId) (w : Writing) (keepAlive : Bool) (s : State) : State :=
  if s.idle then
    match { s with idle := false }.sendMessage w keepAlive with
    | (.sent, s) => { s with jobs := .handle i .success :: s.jobs }.accept i
    | (.pending, s) => s.accept i
    | (.failed, s) => { s with slot := s.slot.delete, state := .error }.accept i
  else s

def reply (i : SessionId) (w : Writing) (keepAlive : Bool) (s : State) : State :=
  if s.passive i = 2 then
    { s with passive := Function.update s.passive i 3 }.replyReliable i w keepAlive
  else s

def shutdown (s : State) : State :=
  if s.idle then { s with idle := false, slot := s.slot.delete, state := .closing } else s

def shutdownSession (i : SessionId) (s : State) : State :=
  if s.passive i = 2 then { s with passive := Function.update s.passive i 3 }.shutdown else s

def drain (s : State) : State :=
  if s.alive then { s with alive := false, slot := s.slot.delete, state := .closing } else s

def handleIncomingRequest (t : Terminal) (s : State) : State :=
  match s.state with
  | .keepalive => { s with slot := .none, alive := false, jobs := .decref :: s.jobs }
  | .idle => { s with slot := .none, idle := false, jobs := .decref :: s.jobs }
  | .error => { s with slot := .none, jobs := .handle s.session .error :: s.jobs }
  | .receiving => { s with slot := .none, jobs := .handle s.session t.csState :: s.jobs }
  | .success => { s with slot := .none, state := .closing }
  | _ => { s with slot := .none, jobs := .decref :: s.jobs }

def handleReplyResult (t : Terminal) (keepAlive : Bool) (s : State) : State :=
  match t with
  | .finished =>
    if keepAlive then { s with ref := s.ref + 1, slot := .keepAlive s.session }
    else { s with slot := .none, jobs := .handle s.session .success :: s.jobs }
  | _ => { s with slot := .none, jobs := .handle s.session t.csState :: s.jobs }

def keepAliveSection (i : SessionId) (ok stop : Bool) (s : State) : State :=
  let s := { s with jobs := .handle i .success :: s.jobs }
  if ok then { s with slot := .registered .read true }.rest (!stop)
  else { s with slot := .none, ref := s.ref - 1 }

def job (j : Job) (s : State) : State :=
  match j with
  | .queued => { s with jobs := replace j [.loaded s.session] s.jobs }
  | .loaded i =>
    let s := { s with
      jobs := replace j [.handle i .toreply] s.jobs
      passive := Function.update s.passive i 2 }
    if s.state = .success then { s with ref := s.ref + 1, state := .idle, idle := true } else s
  | .handle i cs =>
    { s with jobs := replace j [.decref] s.jobs, handled := s.handled ++ [(i, cs)] }
  | .decref =>
    { s with
      ref := s.ref - 1
      jobs := replace j (if s.ref - 1 = 0 then [.releaseConn] else []) s.jobs }
  | .releaseConn => { s with jobs := replace j [] s.jobs, released := s.released + 1 }

end State

inductive Action where
  | createRequest
  | message
  | unregister
  | terminate (state : Terminal)
  /-- A handler begins with the terminal result; `keepAlive` is whether the session has a
      timeout for that. -/
  | handleResult (keepAlive : Bool)
  | keepAlive (ok stop : Bool)
  | job (j : Job)
  | reply (i : SessionId) (w : Writing) (keepAlive : Bool)
  | shutdown
  | shutdownSession (i : SessionId)
  | drain
  | unbind
deriving DecidableEq, Repr

def step (s : State) : Action → Option State
  | .createRequest =>
    match s.slot with
    | .registered .read _ =>
      -- in any other state there is no message, and the poller ends the registration
      if s.state = .keepalive ∨ s.state = .connected then some s.createRequest else none
    | _ => none
  | .message =>
    match s.slot with
    | .registered .read _ =>
      if s.reading then
        some { s with state := .success, reading := false, jobs := .queued :: s.jobs }
      else none
    | _ => none
  | .unregister =>
    match s.slot with
    | .registered op true => some { s with slot := .registered op false }
    | _ => none
  | .terminate t =>
    match s.slot with
    | .registered op false => some { s with slot := .result op t, reading := false }
    | _ => none
  | .handleResult keepAlive =>
    match s.slot with
    | .result .read t => some (s.handleIncomingRequest t)
    | .result .write t => some (s.handleReplyResult t keepAlive)
    | _ => none
  | .keepAlive ok stop =>
    match s.slot with
    | .keepAlive i => some (s.keepAliveSection i ok stop)
    | _ => none
  | .job j => if j ∈ s.jobs then some (s.job j) else none
  | .reply i w keepAlive =>
    -- a session replies only after it was told to
    if (i, .toreply) ∈ s.handled then some (s.reply i w keepAlive) else none
  | .shutdown => some s.shutdown
  | .shutdownSession i => some (s.shutdownSession i)
  | .drain => some s.drain
  | .unbind => some { s with listening := false }

end MyWorkflow.Comm.Server
