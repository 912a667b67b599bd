import Mathlib.Tactic.Common

set_option autoImplicit false

namespace MyWorkflow.Comm

inductive ConnState where
  | connecting
  | connected
  | receiving
  | success
  | idle
  | keepalive
  | closing
  | error
deriving DecidableEq, Repr

inductive CsState where
  | success
  | error
  | stopped
  | toreply
deriving DecidableEq, Repr

/-- The states of a terminal poller result, but for `PR_ST_MODIFIED`: a handler drops such a
    result without a look at the connection. -/
inductive Terminal where
  | finished
  | error
  | deleted
  | stopped
deriving DecidableEq, Repr

def Terminal.csState : Terminal → CsState
  | .finished | .error => .error
  | .deleted | .stopped => .stopped

inductive Operation where
  | connect
  | write
  | read
deriving DecidableEq, Repr

/-- How writing a message ends: not at all, completely, or in part; the rest is then left to the
    poller, where `ok` tells whether the registration goes through. -/
inductive Writing where
  | failed
  | complete
  | partly (ok : Bool)
deriving DecidableEq, Repr

inductive Sent where
  | failed
  | sent
  | pending
deriving DecidableEq, Repr

end MyWorkflow.Comm
