import MyWorkflow.CommServerRuns

set_option autoImplicit false

/-!
# The lists a server connection is linked in

`create_request` takes a kept connection off `service->alive_list` before it asks for a session.
The handler of a terminal result reads the state under `target->mutex`, and once more under
`service->mutex`. Both windows are states of their own here.
-/
namespace MyWorkflow.Comm.Server
open Runs

inductive Place where
  | alive
  | idle
deriving DecidableEq, Repr

inductive Creating where
  | outside
  | asking
  /-- `new_session` returned NULL, and the poller will end the registration. -/
  | refused
deriving DecidableEq, Repr

inductive ListOp where
  | del (l : Place)
  | add (l : Place)
deriving DecidableEq, Repr

/-- What `list_del` and `list_add` make of the list a node is in. The first is for a node of that
    list and the second for a node of none. -/
def ListOp.apply (link : Option Place) : ListOp → Option (Option Place)
  | .del l => if link = some l then some none else none
  | .add l => if link = none then some (some l) else none

structure Entry where
  /-- Here `alive` goes with the state: it is set where the entry is linked and made `KEEPALIVE`,
      and cleared where the state changes. -/
  conn : State
  creating : Creating
  /-- A handler has `target->mutex`, has read `KEEPALIVE` and waits for `service->mutex`. -/
  seen : Bool
  link : Option Place
  /-- The list operations that found `entry->list` elsewhere. -/
  faults : ℕ

def Entry.init : Entry := ⟨State.init, .outside, false, none, 0⟩

def Entry.move (e : Entry) (op : ListOp) : Entry :=
  match op.apply e.link with
  | some link => { e with link := link }
  | none => { e with faults := e.faults + 1 }

inductive EntryAction where
  | conn (a : Action)
  | createRequest
  | newSession (ok : Bool)
  | drain
  | look
  | recheck
deriving DecidableEq, Repr

def Action.locksTarget : Action → Bool
  | .handleResult _ | .keepAlive _ _ | .reply _ _ _ | .shutdown | .shutdownSession _ => true
  | .job (.loaded _) => true
  | _ => false

/-- Whether a step of the connection is one here: not where it is cut in two, or its thread or mutex
    is taken. -/
def Entry.passes (e : Entry) (a : Action) : Bool :=
  !(e.seen && a.locksTarget) &&
    match a with
    | .createRequest | .drain => false
    | .message => e.creating == .outside
    | .terminate _ => e.creating != .asking
    | .handleResult _ =>
      match e.conn.slot with
      | .result .read _ => e.conn.state != .keepalive
      | _ => true
    | _ => true

/-- `handle_incoming_request` from its `case CONN_STATE_KEEPALIVE` on. -/
def State.keptSection (s : State) : State :=
  let s := if s.state = .keepalive then { s with alive := false } else s
  { s with slot := .none, jobs := .decref :: s.jobs }

/-- The list operations in a step of the connection. `reply` and `shutdown` take the entry from the
    idle list, a terminal result goes by the state. -/
def State.listOps (s : State) : Action → List ListOp
  | .handleResult _ =>
    match s.slot with
    | .result .read _ =>
      match s.state with
      | .keepalive => [.del .alive]
      | .idle => [.del .idle]
      | _ => []
    | _ => []
  | .keepAlive ok stop => if ok && !stop && s.listening then [.add .alive] else []
  | .job (.loaded _) => if s.state = .success then [.add .idle] else []
  | .reply i w keepAlive =>
    if s.passive i = 2 ∧ s.idle = true then
      .del .idle :: if w = .complete ∧ keepAlive && s.listening then [.add .alive] else []
    else []
  | .shutdown => if s.idle then [.del .idle] else []
  | .shutdownSession i => if s.passive i = 2 ∧ s.idle = true then [.del .idle] else []
  | _ => []

def entryStep (e : Entry) : EntryAction → Option Entry
  | .conn a =>
    if e.passes a then
      (step e.conn a).map fun s => (e.conn.listOps a).foldl Entry.move { e with conn := s }
    else none
  | .createRequest =>
    match e.conn.slot with
    | .registered .read _ =>
      if e.creating = .outside ∧ (e.conn.state = .keepalive ∨ e.conn.state = .connected) then
        let e' := if e.conn.state = .keepalive then e.move (.del .alive) else e
        some { e' with creating := .asking }
      else none
    | _ => none
  | .newSession true =>
    if e.creating = .asking then
      some { e with conn := e.conn.createRequest, creating := .outside }
    else none
  | .newSession false => if e.creating = .asking then some { e with creating := .refused } else none
  | .drain =>
    some (if e.link = some .alive then { e.move (.del .alive) with conn := e.conn.drain } else e)
  | .look =>
    match e.conn.slot with
    | .result .read _ =>
      if e.seen = false ∧ e.conn.state = .keepalive then some { e with seen := true } else none
    | _ => none
  | .recheck =>
    if e.seen then
      -- the state may have changed since it was read without `service->mutex`
      let e' := if e.conn.state = .keepalive then e.move (.del .alive) else e
      some { e' with conn := e.conn.keptSection, seen := false }
    else none

/-- Every list operation so far found the entry where it belongs, and an entry whose state a terminal
    result reads as `KEEPALIVE` is in the list of alive ones. -/
structure Entry.Sound (e : Entry) : Prop where
  noFault : e.faults = 0
  kept : ∀ t, e.conn.slot = .result .read t → e.conn.state = .keepalive → e.link = some .alive

/-- `new_session` does not return NULL for an entry that was kept. -/
def Served (e : Entry) (a : EntryAction) : Prop :=
  a = .newSession false → e.conn.state ≠ .keepalive

instance (e : Entry) (a : EntryAction) : Decidable (Served e a) :=
  inferInstanceAs (Decidable (_ → _))

variable {s s' : State} {e e' : Entry}

theorem Fits.of_reading (fit : Fits s) (hk : s.slot.kind = .reading) :
    s.alive = decide (s.state = .keepalive) ∧ s.idle = decide (s.state = .idle) := by
  have hne : s.slot ≠ .none := by
    intro h
    rw [h] at hk
    cases hk
  obtain ⟨p, r⟩ := fit.exists_running hne
  have hp := r.phase_eq hk
  rw [r.alive, r.idle, hp]
  cases s.state <;> exact ⟨rfl, rfl⟩

def State.link (s : State) : Option Place :=
  if s.alive then some .alive else if s.idle then some .idle else none

theorem link_of_idle (fit : Fits s) (h : s.idle = true) : s.link = some .idle := by
  simp [State.link, (fit.of_idle h).2.2.2.1, h]

theorem Running.link_none {p : Phase} (r : Running s p) (halive : p ≠ .keepalive)
    (hidle : p ≠ .idle) : s.link = none := by
  simp [State.link, r.alive, r.idle, halive, hidle]

theorem moved (ops : List ListOp) (e : Entry) (link : Option Place)
    (h : ops.foldlM ListOp.apply e.link = some link) :
    ops.foldl Entry.move e = { e with link := link } := by
  induction ops generalizing e with
  | nil =>
    cases h
    rfl
  | cons op ops ih =>
    rw [List.foldlM_cons] at h
    obtain ⟨next, hop, hrest⟩ := Option.bind_eq_some_iff.mp h
    have hmove : e.move op = { e with link := next } := by rw [Entry.move, hop]
    rw [List.foldl_cons, hmove]
    exact ih { e with link := next } hrest

section Links

variable (fit : Fits s)

include fit

theorem handleResult_link {k : Bool} (h : step s (.handleResult k) = some s') :
    (s.listOps (.handleResult k)).foldlM ListOp.apply s.link = some s'.link := by
  simp only [step] at h
  split at h
  · next t hs =>
    obtain ⟨halive, hidle⟩ := fit.of_reading (by rw [hs]; rfl)
    cases h
    cases hstate : s.state <;>
      simp [State.listOps, State.handleIncomingRequest, State.link, ListOp.apply, hs, hstate,
        halive, hidle]
  · next t hs =>
    cases h
    simp only [State.listOps, hs, State.handleReplyResult]
    split
    · split <;> rfl
    · rfl
  · cases h

theorem keepAlive_link {ok stop : Bool} (h : step s (.keepAlive ok stop) = some s') :
    (s.listOps (.keepAlive ok stop)).foldlM ListOp.apply s.link = some s'.link := by
  simp only [step] at h
  split at h
  · next i hs =>
    obtain ⟨p, r⟩ := fit.exists_running (by simp [hs])
    have hkind := r.kind
    rw [hs] at hkind
    have hnone := r.link_none (by rintro rfl; cases hkind) (by rintro rfl; cases hkind)
    cases h
    cases ok with
    | false => rfl
    | true =>
      simp only [State.listOps, State.keepAliveSection, State.rest, Bool.true_and, if_true]
      split
      · rw [hnone]
        rfl
      · rfl
  · cases h

theorem job_link {j : Job} (hj : j ∈ s.jobs) :
    (s.listOps (.job j)).foldlM ListOp.apply s.link = some (s.job j).link := by
  cases j with
  | loaded i =>
    obtain ⟨p, r⟩ := fit.exists_running_of_job hj (by simp)
    simp only [State.listOps, State.job]
    split
    · have hp := r.of_open hj rfl
      have halive : s.alive = false := by
        rw [r.alive]
        rcases hp with rfl | rfl <;> rfl
      rw [r.link_none (by rintro rfl; simp at hp) (by rintro rfl; simp at hp)]
      simp [ListOp.apply, State.link, halive]
    · rfl
  | queued | handle | decref | releaseConn => rfl

theorem reply_link (i : SessionId) (w : Writing) (k : Bool) :
    (s.listOps (.reply i w k)).foldlM ListOp.apply s.link = some (s.reply i w k).link := by
  simp only [State.listOps, State.reply]
  by_cases hi : s.passive i = 2
  · by_cases hidle : s.idle = true
    · obtain ⟨-, hstate, -, halive, -⟩ := fit.of_idle hidle
      rw [if_pos ⟨hi, hidle⟩, if_pos hi, link_of_idle fit hidle]
      simp only [State.replyReliable, hidle, if_true]
      cases w with
      | failed => simp [State.sendMessage, State.accept, State.link, ListOp.apply, halive]
      | complete =>
        simp only [State.sendMessage, State.rest, true_and]
        split <;> simp [State.accept, State.link, ListOp.apply, halive]
      | partly ok =>
        rcases sendMessage_partly (s := { s with
          idle := false, passive := Function.update s.passive i 3 }) hstate ok k with h | h | h
        all_goals
          rw [h]
          simp [State.accept, State.link, ListOp.apply, halive]
    · rw [if_neg (fun h => hidle h.2), if_pos hi, State.replyReliable, if_neg hidle]
      rfl
  · rw [if_neg (fun h => hi h.1), if_neg hi]
    rfl

theorem shutdown_link : (s.listOps .shutdown).foldlM ListOp.apply s.link = some s.shutdown.link := by
  simp only [State.listOps, State.shutdown]
  split
  · next hidle =>
    obtain ⟨-, -, -, halive, -⟩ := fit.of_idle hidle
    rw [link_of_idle fit hidle]
    simp [ListOp.apply, State.link, halive]
  · rfl

theorem shutdownSession_link (i : SessionId) :
    (s.listOps (.shutdownSession i)).foldlM ListOp.apply s.link =
      some (s.shutdownSession i).link := by
  by_cases hi : s.passive i = 2
  · have h := shutdown_link fit
    simp only [State.listOps, State.shutdownSession, State.shutdown, hi, true_and, if_true] at h ⊢
    rw [h]
    split <;> rfl
  · simp only [State.listOps, State.shutdownSession, hi, false_and, if_false]
    rfl

/-- The list operations of a step lead from the flags before it to those behind it. -/
theorem step_link {a : Action} (ha : a ≠ .createRequest ∧ a ≠ .drain) (h : step s a = some s') :
    (s.listOps a).foldlM ListOp.apply s.link = some s'.link := by
  cases a with
  | createRequest => exact absurd rfl ha.1
  | drain => exact absurd rfl ha.2
  | message | unregister | terminate =>
    simp only [step] at h
    split at h
    · first
        | (cases h; rfl)
        | (split_ifs at h; cases h; rfl)
    · cases h
  | handleResult k => exact handleResult_link fit h
  | keepAlive ok stop => exact keepAlive_link fit h
  | job j =>
    obtain ⟨hj, rfl⟩ := of_guard h
    exact job_link fit hj
  | reply i w k =>
    obtain ⟨-, rfl⟩ := of_guard h
    exact reply_link fit i w k
  | shutdown =>
    cases h
    exact shutdown_link fit
  | shutdownSession i =>
    cases h
    exact shutdownSession_link fit i
  | unbind =>
    cases h
    rfl

end Links

def Action.resting : Action → Bool
  | .unregister | .job _ | .reply _ _ _ | .shutdown | .shutdownSession _ | .unbind => true
  | _ => false

theorem step_rests {a : Action} (fit : Fits s) (ha : a.resting = true)
    (hk : s.slot.kind = .reading) (hstate : s.state ≠ .idle ∧ s.state ≠ .success)
    (h : step s a = some s') : s.listOps a = [] ∧ s'.state = s.state ∧
      (s'.slot = s.slot ∨ ∃ op, s.slot = .registered op true ∧ s'.slot = .registered op false) := by
  have hidle : s.idle = false := by rw [(fit.of_reading hk).2, decide_eq_false hstate.1]
  cases a with
  | unregister =>
    simp only [step] at h
    split at h
    · next op hs =>
      cases h
      exact ⟨rfl, rfl, .inr ⟨op, hs, rfl⟩⟩
    · cases h
  | job j =>
    obtain ⟨-, rfl⟩ := of_guard h
    cases j with
    | loaded i => simp [State.listOps, State.job, hstate]
    | queued | handle | decref | releaseConn => exact ⟨rfl, rfl, .inl rfl⟩
  | reply i w k =>
    obtain ⟨-, rfl⟩ := of_guard h
    refine ⟨by simp [State.listOps, hidle], ?_⟩
    unfold State.reply
    split
    · simp only [State.replyReliable, hidle]
      exact ⟨rfl, .inl rfl⟩
    · exact ⟨rfl, .inl rfl⟩
  | shutdown =>
    simp only [step, State.shutdown, hidle] at h
    cases h
    exact ⟨by simp [State.listOps, hidle], rfl, .inl rfl⟩
  | shutdownSession i =>
    cases h
    refine ⟨by simp [State.listOps, hidle], ?_⟩
    unfold State.shutdownSession
    split
    · simp only [State.shutdown, hidle]
      exact ⟨rfl, .inl rfl⟩
    · exact ⟨rfl, .inl rfl⟩
  | unbind =>
    cases h
    exact ⟨rfl, rfl, .inl rfl⟩
  | createRequest | message | terminate | handleResult | keepAlive | drain => cases ha

structure EntryInv (e : Entry) : Prop where
  conn : Reachable step State.init e.conn
  asking : e.creating = .asking → (∃ live, e.conn.slot = .registered .read live) ∧
    (e.conn.state = .keepalive ∨ e.conn.state = .connected)
  link : e.link = if e.creating = .asking then none else e.conn.link
  seen : e.seen = true → (∃ t, e.conn.slot = .result .read t) ∧
    (e.conn.state = .keepalive ∨ e.conn.state = .closing)
  noFault : e.faults = 0

theorem Entry.init_inv : EntryInv Entry.init where
  conn := .start
  asking := by rintro ⟨⟩
  link := rfl
  seen := by rintro ⟨⟩
  noFault := rfl

namespace EntryInv

variable (inv : EntryInv e)
include inv

theorem fits : Fits e.conn := (reachable_inv inv.conn).fits

theorem not_seen {op : Operation} {live : Bool} (hs : e.conn.slot = .registered op live) :
    e.seen = false := by
  by_contra h
  obtain ⟨⟨t, ht⟩, -⟩ := inv.seen (Bool.eq_true_of_not_eq_false h)
  rw [hs] at ht
  cases ht

theorem not_asking {op : Operation} {t : Terminal} (hs : e.conn.slot = .result op t) :
    e.creating ≠ .asking := by
  intro h
  obtain ⟨⟨live, hlive⟩, -⟩ := inv.asking h
  rw [hs] at hlive
  cases hlive

theorem linked_alive (hk : e.conn.slot.kind = .reading) (hstate : e.conn.state = .keepalive)
    (hnot : e.creating ≠ .asking) : e.link = some .alive := by
  have halive := (inv.fits.of_reading hk).1
  rw [inv.link, if_neg hnot, State.link, halive, hstate]
  rfl

theorem sound : e.Sound where
  noFault := inv.noFault
  kept t hslot hstate := inv.linked_alive (by rw [hslot]; rfl) hstate (inv.not_asking hslot)

omit inv in
theorem unlinked (hlink : e.link = some .alive) : e.move (.del .alive) = { e with link := none } := by
  rw [Entry.move, ListOp.apply, if_pos hlink]

theorem rests {a : Action} (ha : a.resting = true) (hstep : step e.conn a = some s)
    (hasking : e.creating = .asking) :
    EntryInv ((e.conn.listOps a).foldl Entry.move { e with conn := s }) := by
  obtain ⟨⟨live, hs⟩, hstate⟩ := inv.asking hasking
  obtain ⟨hops, hstate', hslot⟩ := step_rests inv.fits ha (by rw [hs]; rfl)
    (by rcases hstate with h | h <;> rw [h] <;> decide) hstep
  rw [hops, List.foldl_nil]
  refine ⟨inv.conn.next trivial hstep, fun _ => ⟨?_, hstate' ▸ hstate⟩, ?_, ?_,
    inv.noFault⟩
  · rcases hslot with h | ⟨op, h, h'⟩
    · exact ⟨live, h.trans hs⟩
    · rw [hs] at h
      cases h
      exact ⟨false, h'⟩
  · refine inv.link.trans ?_
    rw [if_pos hasking]
    exact (if_pos hasking).symm
  · intro hseen
    rw [inv.not_seen hs] at hseen
    cases hseen

theorem passes {a : Action} (hstep : step e.conn a = some s) (hasking : e.creating ≠ .asking)
    (ha : a ≠ .createRequest ∧ a ≠ .drain)
    (hseen : e.seen = true → (∃ t, s.slot = .result .read t) ∧
      (s.state = .keepalive ∨ s.state = .closing)) :
    EntryInv ((e.conn.listOps a).foldl Entry.move { e with conn := s }) := by
  have hlink := step_link inv.fits ha hstep
  have hmoved := moved (e.conn.listOps a) { e with conn := s } s.link (by
    rw [← hlink, ← inv.link.trans (if_neg hasking)])
  rw [hmoved]
  exact ⟨inv.conn.next trivial hstep, fun h => absurd h hasking, (if_neg hasking).symm, hseen,
    inv.noFault⟩

theorem seen_step {a : Action} (hpass : e.passes a = true) (hstep : step e.conn a = some s)
    (hseen : e.seen = true) : (∃ t, s.slot = .result .read t) ∧
      (s.state = .keepalive ∨ s.state = .closing) := by
  obtain ⟨⟨t, hs⟩, hstate⟩ := inv.seen hseen
  have ha : a.resting = true := by
    cases a with
    | message | terminate | keepAlive => simp [Server.step, hs] at hstep
    | createRequest | drain => simp [Entry.passes] at hpass
    | handleResult => simp [Entry.passes, Action.locksTarget, hseen] at hpass
    | unregister | job | reply | shutdown | shutdownSession | unbind => rfl
  obtain ⟨-, hstate', hslot⟩ := step_rests inv.fits ha (by rw [hs]; rfl)
    (by rcases hstate with h | h <;> rw [h] <;> decide) hstep
  refine ⟨?_, by rw [hstate']; exact hstate⟩
  rcases hslot with h | ⟨op, h, h'⟩
  · exact ⟨t, h.trans hs⟩
  · rw [hs] at h
    cases h

theorem conn_step {a : Action} (hpass : e.passes a = true) (hstep : step e.conn a = some s) :
    EntryInv ((e.conn.listOps a).foldl Entry.move { e with conn := s }) := by
  by_cases hasking : e.creating = .asking
  · obtain ⟨⟨live, hs⟩, -⟩ := inv.asking hasking
    have ha : a.resting = true := by
      cases a with
      | message | terminate => simp [Entry.passes, hasking] at hpass
      | createRequest | drain => simp [Entry.passes] at hpass
      | handleResult | keepAlive => simp [Server.step, hs] at hstep
      | unregister | job | reply | shutdown | shutdownSession | unbind => rfl
    exact inv.rests ha hstep hasking
  · refine inv.passes hstep hasking ⟨?_, ?_⟩ (inv.seen_step hpass hstep)
    · rintro rfl
      simp [Entry.passes] at hpass
    · rintro rfl
      simp [Entry.passes] at hpass

theorem createRequest {live : Bool} (hs : e.conn.slot = .registered .read live)
    (hout : e.creating = .outside) (hstate : e.conn.state = .keepalive ∨ e.conn.state = .connected) :
    EntryInv { (if e.conn.state = .keepalive then e.move (.del .alive) else e) with
      creating := .asking } := by
  have hnot : e.creating ≠ .asking := by rw [hout]; decide
  have hnext : (if e.conn.state = .keepalive then e.move (.del .alive) else e) =
      { e with link := none } := by
    obtain ⟨halive, hidle⟩ := inv.fits.of_reading (by rw [hs]; rfl)
    split_ifs with hkept
    · exact unlinked (inv.linked_alive (by rw [hs]; rfl) hkept hnot)
    · have hnone : e.link = none := by
        rw [inv.link, if_neg hnot, State.link, halive, hidle, hstate.resolve_left hkept]
        rfl
      rw [← hnone]
  rw [hnext]
  exact ⟨inv.conn, fun _ => ⟨⟨live, hs⟩, hstate⟩, rfl, inv.seen, inv.noFault⟩

theorem newSession (hasking : e.creating = .asking) :
    EntryInv { e with conn := e.conn.createRequest, creating := .outside } := by
  obtain ⟨⟨live, hs⟩, hstate⟩ := inv.asking hasking
  have hstep : Server.step e.conn .createRequest = some e.conn.createRequest := by
    simp only [Server.step, hs, if_pos hstate]
  have hidle := (inv.fits.of_reading (by rw [hs]; rfl)).2
  refine ⟨inv.conn.next trivial hstep, (by simp), ?_, ?_, inv.noFault⟩
  · refine (inv.link.trans (if_pos hasking)).trans ?_
    have hnot : e.conn.idle = false := by
      rw [hidle]
      rcases hstate with h | h <;> rw [h] <;> rfl
    simp [State.link, State.createRequest, hnot]
  · intro h
    rw [inv.not_seen hs] at h
    cases h

theorem refused (hasking : e.creating = .asking) (hstate : e.conn.state ≠ .keepalive) :
    EntryInv { e with creating := .refused } := by
  obtain ⟨⟨live, hs⟩, hstate'⟩ := inv.asking hasking
  obtain ⟨halive, hidle⟩ := inv.fits.of_reading (by rw [hs]; rfl)
  refine ⟨inv.conn, (by simp), ?_, inv.seen, inv.noFault⟩
  refine (inv.link.trans (if_pos hasking)).trans ?_
  simp [State.link, halive, hidle, hstate'.resolve_left hstate]

theorem drain (hlinked : e.link = some .alive) :
    EntryInv { e.move (.del .alive) with conn := e.conn.drain } := by
  have hasking : e.creating ≠ .asking := by
    intro h
    rw [inv.link, if_pos h] at hlinked
    cases hlinked
  have halive : e.conn.alive = true := by
    rw [inv.link, if_neg hasking, State.link] at hlinked
    by_contra h
    rw [if_neg h] at hlinked
    split_ifs at hlinked
    cases hlinked
  have hidle : e.conn.idle = false := by
    cases h : e.conn.idle with
    | false => rfl
    | true =>
      rw [(inv.fits.of_idle h).2.2.2.1] at halive
      cases halive
  have hconn : Reachable Server.step State.init e.conn.drain :=
    inv.conn.next (a := .drain) trivial rfl
  rw [unlinked hlinked]
  refine ⟨hconn, fun h => absurd h hasking, ?_, ?_, inv.noFault⟩
  · simp [State.link, State.drain, halive, hidle]
  · intro hseen
    obtain ⟨⟨t, hs⟩, -⟩ := inv.seen hseen
    refine ⟨⟨t, ?_⟩, .inr ?_⟩
    · simp only [State.drain, halive, if_true, hs, Slot.delete]
    · simp only [State.drain, halive, if_true]

theorem recheck (hseen : e.seen = true) :
    EntryInv { (if e.conn.state = .keepalive then e.move (.del .alive) else e) with
      conn := e.conn.keptSection, seen := false } := by
  obtain ⟨⟨t, hs⟩, hstate⟩ := inv.seen hseen
  have hasking := inv.not_asking hs
  have hstep : Server.step e.conn (.handleResult false) = some e.conn.keptSection := by
    simp only [Server.step, hs]
    rcases hstate with h | h <;> simp [State.handleIncomingRequest, State.keptSection, h]
  have hlink := step_link inv.fits (by decide) hstep
  have hnext : (if e.conn.state = .keepalive then e.move (.del .alive) else e) =
      { e with link := e.conn.keptSection.link } := by
    rw [← (inv.link.trans (if_neg hasking)), State.listOps, hs] at hlink
    rcases hstate with h | h
    · rw [if_pos h, ← moved [.del .alive] e _ (by simpa only [h] using hlink)]
      rfl
    · rw [if_neg (by rw [h]; decide)]
      simp only [h] at hlink
      rw [← Option.some.inj hlink]
  rw [hnext]
  exact ⟨inv.conn.next trivial hstep, fun h => absurd h hasking, (if_neg hasking).symm, (by simp),
    inv.noFault⟩

theorem step {a : EntryAction} (ha : Served e a) (hstep : entryStep e a = some e') :
    EntryInv e' := by
  cases a with
  | conn a =>
    simp only [entryStep] at hstep
    split_ifs at hstep with hpass
    obtain ⟨s, hs, rfl⟩ := Option.map_eq_some_iff.mp hstep
    exact inv.conn_step hpass hs
  | createRequest =>
    simp only [entryStep] at hstep
    split at hstep
    · next live hs =>
      obtain ⟨h, rfl⟩ := of_guard hstep
      exact inv.createRequest hs h.1 h.2
    · cases hstep
  | newSession ok =>
    cases ok with
    | true =>
      obtain ⟨hasking, rfl⟩ := of_guard hstep
      exact inv.newSession hasking
    | false =>
      obtain ⟨hasking, rfl⟩ := of_guard hstep
      exact inv.refused hasking (ha rfl)
  | drain =>
    simp only [entryStep, Option.some.injEq] at hstep
    split_ifs at hstep with hlinked
    · rw [← hstep]
      exact inv.drain hlinked
    · rw [← hstep]
      exact inv
  | look =>
    simp only [entryStep] at hstep
    split at hstep
    · next t hs =>
      split_ifs at hstep with h
      cases hstep
      exact { inv with seen := fun _ => ⟨⟨t, hs⟩, .inl h.2⟩ }
    · cases hstep
  | recheck =>
    obtain ⟨hseen, rfl⟩ := of_guard hstep
    exact inv.recheck hseen

end EntryInv

theorem EntryInv.reaches (inv : EntryInv e) (h : Reaches entryStep Served e e') : EntryInv e' :=
  h.invariant (P := EntryInv) inv fun _ _ _ inv ha hstep => inv.step ha hstep

/-- The registration of a refused entry ends, and its terminal result unlinks the entry again. -/
theorem refused_faults (inv : EntryInv e) (hasking : e.creating = .asking)
    (hstate : e.conn.state = .keepalive) :
    ∃ e', Reaches entryStep Served { e with creating := .refused } e' ∧ e'.faults = 1 := by
  obtain ⟨⟨live, hs⟩, -⟩ := inv.asking hasking
  have hseen := inv.not_seen hs
  have hlink : e.link = none := inv.link.trans (if_pos hasking)
  have hoff : Reaches entryStep Served { e with creating := .refused }
      { e with creating := .refused, conn := { e.conn with slot := .registered .read false } } := by
    cases live with
    | true =>
      refine Reaches.start.next (a := .conn .unregister) (by rintro ⟨⟩) ?_
      simp [entryStep, Entry.passes, Action.locksTarget, step, hs, State.listOps]
    | false =>
      have hsame : { e.conn with slot := .registered .read false } = e.conn := by rw [← hs]
      rw [hsame]
      exact .start
  let ended : Entry := { e with
    creating := .refused
    conn := { e.conn with slot := .result .read .error, reading := false } }
  have hend : entryStep
      { e with creating := .refused, conn := { e.conn with slot := .registered .read false } }
      (.conn (.terminate .error)) = some ended := by
    simp [entryStep, Entry.passes, Action.locksTarget, step, State.listOps, ended]
  have hlook : entryStep ended .look = some { ended with seen := true } :=
    if_pos ⟨hseen, hstate⟩
  have hfault : ∃ e', entryStep { ended with seen := true } .recheck = some e' ∧ e'.faults = 1 := by
    simp [entryStep, ended, hstate, Entry.move, ListOp.apply, hlink, inv.noFault]
  obtain ⟨e', hrecheck, hone⟩ := hfault
  exact ⟨e', ((hoff.next (by rintro ⟨⟩) hend).next (by rintro ⟨⟩) hlook).next (by rintro ⟨⟩) hrecheck,
    hone⟩

/-- As long as `new_session` returns a session for every kept entry, each `list_del` finds the entry
    in the list it takes it off; one NULL for a kept entry and this can fail. -/
theorem list_del_linked_iff (h : Reaches entryStep Served Entry.init e) :
    e.Sound ∧ ∀ a e', entryStep e a = some e' →
      (Served e a ↔ ∀ f, Reaches entryStep Served e' f → f.Sound) := by
  have inv := Entry.init_inv.reaches h
  refine ⟨inv.sound, ?_⟩
  intro a e' hstep
  constructor
  · intro ha f hf
    exact ((inv.step ha hstep).reaches hf).sound
  · intro hsound ha hstate
    subst ha
    obtain ⟨hasking, rfl⟩ := of_guard hstep
    obtain ⟨f, hf, hfault⟩ := refused_faults inv hasking hstate
    have hzero := (hsound f hf).noFault
    omega

def keptRun : List EntryAction :=
  [.createRequest, .newSession true, .conn .message, .conn (.job .queued),
    .conn (.job (.loaded 0)), .conn (.job (.handle 0 .toreply)),
    .conn (.reply 0 .complete true)]

theorem keptRun_sound : ∃ e, guardedRun entryStep Served Entry.init
      (keptRun ++ [.conn .unregister, .conn (.terminate .finished), .look]) = some e ∧
    e.conn.state = .keepalive ∧ e.link = some .alive ∧ e.Sound := by
  obtain ⟨e, hrun, hstate, hslot⟩ : ∃ e, guardedRun entryStep Served Entry.init
      (keptRun ++ [.conn .unregister, .conn (.terminate .finished), .look]) = some e ∧
      e.conn.state = .keepalive ∧ e.conn.slot = .result .read .finished := ⟨_, rfl, rfl, rfl⟩
  have hsound := (list_del_linked_iff (reaches_of_guardedRun _ .start hrun)).1
  exact ⟨e, hrun, hstate, hsound.kept .finished hslot hstate, hsound⟩

/-- `new_session` returns NULL: the entry that `create_request` has unlinked is unlinked again. -/
theorem refused_unlinked_twice : ∃ e e', run entryStep Entry.init
      (keptRun ++ [.createRequest, .newSession false, .conn .unregister,
        .conn (.terminate .error), .look]) = some e ∧
    e.conn.state = .keepalive ∧ e.link = none ∧ e.faults = 0 ∧
    entryStep e .recheck = some e' ∧ e'.faults = 1 := ⟨_, _, rfl, rfl, rfl, rfl, rfl, rfl⟩

end MyWorkflow.Comm.Server
