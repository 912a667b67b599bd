import Mathlib
import MyWorkflow.Poller
import MyWorkflow.Runs

set_option autoImplicit false

/-!
# Session timeouts of the Communicator

Every transfer has a timeout for each single operation and one for the whole message. The poller
holds one deadline; `first_timeout` and `next_timeout` choose it. A clock is a number of
nanoseconds, and one call reads it once.
-/
namespace MyWorkflow.Comm.Timeout
open Poller Runs

def nsecPerMsec : ℤ := 1000000

def clockGettime (t : ℕ) : Timespec := ⟨t / 1000000000, t % 1000000000⟩

def nanoseconds (t : Timespec) : ℤ := t.sec * 1000000000 + t.nsec

def toInt (n : ℤ) : ℤ := (n + 2 ^ 31) % 2 ^ 32 - 2 ^ 31

def toUnsigned (n : ℤ) : ℤ := n % 2 ^ 32

def IsInt (n : ℤ) : Prop := -2 ^ 31 ≤ n ∧ n < 2 ^ 31
deriving Decidable

/-- The settings of a session and of its target, in milliseconds; a negative one is no limit. -/
structure Timeouts where
  responseTimeout : ℤ
  sendTimeout : ℤ
  receiveTimeout : ℤ
  watchTimeout : ℤ
  keepAliveTimeout : ℤ
  response_int : IsInt responseTimeout
  send_int : IsInt sendTimeout
  receive_int : IsInt receiveTimeout

structure Session where
  timeout : ℤ
  beginTime : Timespec
deriving DecidableEq

variable (c : Timeouts)

def firstTimeout (now : Timespec) (session : Session) : ℤ × Session :=
  if c.responseTimeout < 0 ∨ toUnsigned session.timeout ≤ toUnsigned c.responseTimeout then
    (session.timeout, { session with timeout := 0 })
  else (c.responseTimeout, { session with beginTime := now })

def nextTimeout (now : Timespec) (session : Session) : ℤ × Session :=
  if session.timeout > 0 then
    let timeUsed := toInt (1000 * (now.sec - session.beginTime.sec) +
      (now.nsec - session.beginTime.nsec).tdiv 1000000)
    let timeLeft := toInt (session.timeout - timeUsed)
    if timeLeft ≤ c.responseTimeout then
      (if timeLeft < 0 then 0 else timeLeft, { session with timeout := 0 })
    else (c.responseTimeout, session)
  else (c.responseTimeout, session)

def firstTimeoutSend (now : Timespec) (session : Session) : ℤ × Session :=
  firstTimeout c now { session with timeout := c.sendTimeout }

def firstTimeoutRecv (now : Timespec) (session : Session) : ℤ × Session :=
  firstTimeout c now { session with timeout := c.receiveTimeout }

inductive Rearm where
  | keep
  | delete
  | set (timeout : ℤ)
deriving DecidableEq

/-- `append_message` behind `in->append`, which returned `ret`. -/
def appendMessage (service : Bool) (ret : ℤ) (now : Timespec) (session : Session) :
    Rearm × Session :=
  if ret > 0 then
    if !service then
      if c.keepAliveTimeout = 0 then (.delete, { session with timeout := c.keepAliveTimeout })
      else (.set c.keepAliveTimeout, { session with timeout := c.keepAliveTimeout })
    else (.set (-1), session)
  else if ret = 0 ∧ session.timeout ≠ 0 then
    if session.beginTime.sec < 0 then
      let timeout := if session.beginTime.nsec < 0 then c.watchTimeout else 0
      if timeout = 0 then
        let r := firstTimeoutRecv c now session
        (.set r.1, r.2)
      else (.set timeout, { session with beginTime := ⟨session.beginTime.sec, 0⟩ })
    else
      let r := nextTimeout c now session
      (.set r.1, r.2)
  else (.keep, session)

/-- A session whose node is in the poller, behind a call at time `now`. -/
structure Armed where
  session : Session
  deadline : Option Timespec
  now : ℕ
deriving DecidableEq

def Armed.InTime (a : Armed) (t : ℕ) : Prop :=
  a.now ≤ t ∧ ∀ d ∈ a.deadline, (t : ℤ) < nanoseconds d

instance (a : Armed) (t : ℕ) : Decidable (a.InTime t) :=
  inferInstanceAs (Decidable (a.now ≤ t ∧ ∀ d ∈ a.deadline, (t : ℤ) < nanoseconds d))

def arm (t : ℕ) (r : ℤ × Session) : Armed where
  session := r.2
  deadline := nodeSetTimeout r.1 (clockGettime t)
  now := t

def sendMessageAsync (t : ℕ) (session : Session) : Armed :=
  arm t (firstTimeoutSend c (clockGettime t) session)

def Armed.partialWritten (a : Armed) (t : ℕ) : Option Armed :=
  if a.InTime t then some (arm t (nextTimeout c (clockGettime t) a.session)) else none

def createRequest (t : ℕ) (session : Session) : Armed :=
  arm t (firstTimeoutRecv c (clockGettime t) session)

def Armed.received (a : Armed) (t : ℕ) : Option Armed :=
  if a.InTime t then
    match appendMessage c true 0 (clockGettime t) a.session with
    | (.set timeout, session) => some (arm t (timeout, session))
    | (_, session) => some { a with session := session, now := t }
  else none

theorem toInt_eq {n : ℤ} (h : IsInt n) : toInt n = n := by
  obtain ⟨h1, h2⟩ := h
  unfold toInt
  omega

theorem toUnsigned_eq {n : ℤ} (h : 0 ≤ n) (hn : IsInt n) : toUnsigned n = n := by
  obtain ⟨_, h2⟩ := hn
  unfold toUnsigned
  omega

theorem nanoseconds_clockGettime (t : ℕ) : nanoseconds (clockGettime t) = t := by
  simp only [nanoseconds, clockGettime]
  omega

theorem nodeSetTimeout_nanoseconds {timeout : ℤ} (h : 0 ≤ timeout) (t : ℕ) : ∃ d,
    nodeSetTimeout timeout (clockGettime t) = some d ∧
      nanoseconds d = t + timeout * nsecPerMsec := by
  have hclock := nanoseconds_clockGettime t
  simp only [nanoseconds] at hclock
  rw [nodeSetTimeout, if_neg (by omega)]
  refine ⟨_, rfl, ?_⟩
  simp only [nanoseconds, nsecPerMsec]
  split_ifs <;> simp only <;> omega

theorem timeUsed_near (t₀ t : ℕ) :
    let used := 1000 * ((clockGettime t).sec - (clockGettime t₀).sec) +
      ((clockGettime t).nsec - (clockGettime t₀).nsec).tdiv 1000000
    (t - t₀ : ℤ) - 999999 ≤ used * nsecPerMsec ∧ used * nsecPerMsec ≤ (t - t₀ : ℤ) + 999999 := by
  have h := nanoseconds_clockGettime t
  have h₀ := nanoseconds_clockGettime t₀
  simp only [nanoseconds] at h h₀
  have htrunc : ∀ n : ℤ, n - 999999 ≤ n.tdiv 1000000 * 1000000 ∧
      n.tdiv 1000000 * 1000000 ≤ n + 999999 := by
    intro n
    have hdiv := Int.mul_tdiv_add_tmod n 1000000
    have hlow := Int.lt_tmod_of_pos n (b := 1000000) (by decide)
    have hhigh := Int.tmod_lt_of_pos n (b := 1000000) (by decide)
    omega
  have hn := htrunc ((clockGettime t).nsec - (clockGettime t₀).nsec)
  simp only [nsecPerMsec]
  omega

variable {c}

structure Counting (c : Timeouts) (t₀ : ℕ) (total : ℤ) (session : Session) : Prop where
  total_eq : session.timeout = total
  begin_eq : session.beginTime = clockGettime t₀
  limit : 0 ≤ c.responseTimeout

theorem firstTimeout_cases {total : ℤ} (ht : IsInt total) (t₀ : ℕ) (session : Session) :
    let r := firstTimeout c (clockGettime t₀) { session with timeout := total }
    (r.1 = total ∧ r.2.timeout = 0 ∧
      (c.responseTimeout < 0 ∨ 0 ≤ total ∧ total ≤ c.responseTimeout)) ∨
    (r.1 = c.responseTimeout ∧ Counting c t₀ total r.2 ∧
      (total < 0 ∨ c.responseTimeout < total)) := by
  have hp := c.response_int
  intro r
  by_cases h : c.responseTimeout < 0 ∨ toUnsigned total ≤ toUnsigned c.responseTimeout
  · have hr : r = (total, { session with timeout := 0 }) := if_pos h
    refine .inl ⟨by rw [hr], by rw [hr], ?_⟩
    by_cases hneg : c.responseTimeout < 0
    · exact .inl hneg
    · have hle := h.resolve_left hneg
      rw [toUnsigned_eq (by omega) hp] at hle
      obtain ⟨h1, h2⟩ := ht
      obtain ⟨_, h4⟩ := hp
      unfold toUnsigned at hle
      omega
  · have hr : r = (c.responseTimeout, ⟨total, clockGettime t₀⟩) := if_neg h
    obtain ⟨hneg, hlt⟩ := not_or.mp h
    rw [hr]
    refine .inr ⟨rfl, ⟨rfl, rfl, by omega⟩, ?_⟩
    by_cases htneg : total < 0
    · exact .inl htneg
    · rw [toUnsigned_eq (by omega) hp, toUnsigned_eq (by omega) ht] at hlt
      omega

theorem nextTimeout_cases {t₀ t : ℕ} {total : ℤ} {session : Session}
    (h : Counting c t₀ total session) (ht : IsInt total) (hpos : 0 < total) (hle : t₀ ≤ t)
    (hlt : (t : ℤ) < t₀ + total * nsecPerMsec) :
    let r := nextTimeout c (clockGettime t) session
    (r = (c.responseTimeout, session) ∧
      t + c.responseTimeout * nsecPerMsec ≤ t₀ + total * nsecPerMsec) ∨
    (r.2.timeout = 0 ∧ 0 ≤ r.1 ∧ r.1 ≤ c.responseTimeout ∧
      t₀ + total * nsecPerMsec - 999999 ≤ t + r.1 * nsecPerMsec ∧
      t + r.1 * nsecPerMsec ≤ t₀ + total * nsecPerMsec + 999999) := by
  obtain ⟨hlow, hhigh⟩ := ht
  have hnear := timeUsed_near t₀ t
  simp only [nsecPerMsec] at hnear hlt ⊢
  rw [nextTimeout, if_pos (by rw [h.total_eq]; exact hpos)]
  simp only [h.total_eq, h.begin_eq]
  generalize hused : 1000 * ((clockGettime t).sec - (clockGettime t₀).sec) +
    ((clockGettime t).nsec - (clockGettime t₀).nsec).tdiv 1000000 = used at hnear ⊢
  rw [toInt_eq (n := used) ⟨by omega, by omega⟩, toInt_eq (n := total - used) ⟨by omega, by omega⟩]
  split_ifs with hleft hneg
  · omega
  · refine .inr ⟨rfl, ?_, hleft, ?_, ?_⟩ <;> simp only <;> omega
  · left
    refine ⟨rfl, ?_⟩
    omega

theorem nextTimeout_plain {session : Session} (h : session.timeout ≤ 0) (now : Timespec) :
    nextTimeout c now session = (c.responseTimeout, session) := by
  rw [nextTimeout, if_neg (by omega)]

theorem Armed.InTime.lt {a : Armed} {t : ℕ} (h : a.InTime t) {d : Timespec}
    (hd : a.deadline = some d) : (t : ℤ) < nanoseconds d :=
  h.2 d hd

theorem arm_deadline {r : ℤ × Session} (h : 0 ≤ r.1) (t : ℕ) : ∃ d,
    (arm t r).deadline = some d ∧ nanoseconds d = t + r.1 * nsecPerMsec :=
  nodeSetTimeout_nanoseconds h t

/-- The deadline keeps to the total, with a millisecond of rounding. -/
def Within (c : Timeouts) (t₀ : ℕ) (a : Armed) : Prop :=
  ∃ d, a.deadline = some d ∧ nanoseconds d ≤ t₀ + (c.sendTimeout + 1) * nsecPerMsec

/-- If `session->timeout` is 0 when `partial_written` is called, a whole single timeout is left. -/
def EnoughLeft (c : Timeouts) (t₀ : ℕ) (a : Armed) (t : ℕ) : Prop :=
  a.session.timeout = 0 → 0 ≤ c.responseTimeout ∧
    t + c.responseTimeout * nsecPerMsec ≤ t₀ + (c.sendTimeout + 1) * nsecPerMsec

structure Sending (c : Timeouts) (t₀ : ℕ) (a : Armed) : Prop where
  later : t₀ ≤ a.now
  total : a.session.timeout = 0 ∨
    Counting c t₀ c.sendTimeout a.session ∧ 0 < c.sendTimeout ∧
      ∃ d, a.deadline = some d ∧ nanoseconds d ≤ t₀ + c.sendTimeout * nsecPerMsec

theorem within_arm_iff {t₀ t : ℕ} {r : ℤ × Session} :
    Within c t₀ (arm t r) ↔
      0 ≤ r.1 ∧ t + r.1 * nsecPerMsec ≤ t₀ + (c.sendTimeout + 1) * nsecPerMsec := by
  constructor
  · rintro ⟨d, hd, hle⟩
    have hpos : 0 ≤ r.1 := by
      by_contra hneg
      rw [arm, nodeSetTimeout, if_pos (by omega)] at hd
      cases hd
    obtain ⟨d', hd', hns⟩ := arm_deadline hpos t
    obtain rfl : d' = d := Option.some.inj (hd'.symm.trans hd)
    exact ⟨hpos, by rw [← hns]; exact hle⟩
  · rintro ⟨hpos, hle⟩
    obtain ⟨d, hd, hns⟩ := arm_deadline hpos t
    exact ⟨d, hd, by rw [hns]; exact hle⟩

theorem sendMessageAsync_sending (h : 0 ≤ c.sendTimeout) (t₀ : ℕ) (session : Session) :
    Sending c t₀ (sendMessageAsync c t₀ session) ∧
      Within c t₀ (sendMessageAsync c t₀ session) := by
  have hcases := firstTimeout_cases (c := c) c.send_int t₀ session
  obtain ⟨h1, h2, _⟩ | ⟨h1, h2, h3⟩ := hcases
  · refine ⟨⟨le_rfl, .inl h2⟩, within_arm_iff.mpr ?_⟩
    rw [firstTimeoutSend, h1]
    simp only [nsecPerMsec]
    omega
  · have hlimit := h2.limit
    have hlt : c.responseTimeout < c.sendTimeout := h3.resolve_left (by omega)
    refine ⟨⟨le_rfl, .inr ⟨h2, by omega, ?_⟩⟩, within_arm_iff.mpr ?_⟩
    · obtain ⟨d, hd, hns⟩ := arm_deadline
        (r := firstTimeoutSend c (clockGettime t₀) session) (h1 ▸ hlimit) t₀
      refine ⟨d, hd, ?_⟩
      rw [hns, firstTimeoutSend, h1]
      simp only [nsecPerMsec]
      omega
    · rw [firstTimeoutSend, h1]
      simp only [nsecPerMsec]
      omega

theorem Sending.step {t₀ t : ℕ} {a a' : Armed} (h : Sending c t₀ a)
    (hs : a.partialWritten c t = some a') :
    Sending c t₀ a' ∧ (Within c t₀ a' ↔ EnoughLeft c t₀ a t) := by
  simp only [Armed.partialWritten] at hs
  split_ifs at hs with hin
  cases hs
  have hlater : t₀ ≤ t := h.later.trans hin.1
  obtain hzero | ⟨hcount, hpos, d, hd, hle⟩ := h.total
  · rw [nextTimeout_plain hzero.le]
    exact ⟨⟨hlater, .inl hzero⟩, within_arm_iff.trans ⟨fun h _ => h, fun h => h hzero⟩⟩
  · have hne : a.session.timeout ≠ 0 := by
      rw [hcount.total_eq]
      omega
    have hlimit := hcount.limit
    have hlt := hin.lt hd
    have henough : EnoughLeft c t₀ a t := fun hzero => absurd hzero hne
    obtain ⟨hr, hend⟩ | ⟨hr, h0, hp, _, hend⟩ :=
      nextTimeout_cases hcount c.send_int hpos hlater (by omega)
    · rw [hr]
      obtain ⟨e, he, hns⟩ := arm_deadline (r := (c.responseTimeout, a.session)) hlimit t
      refine ⟨⟨hlater, .inr ⟨hcount, hpos, e, he, by rw [hns]; exact hend⟩⟩, ?_⟩
      refine iff_of_true (within_arm_iff.mpr ⟨hlimit, ?_⟩) henough
      simp only [nsecPerMsec] at hend ⊢
      omega
    · refine ⟨⟨hlater, .inl hr⟩, iff_of_true (within_arm_iff.mpr ⟨h0, ?_⟩) henough⟩
      simp only [nsecPerMsec] at hend ⊢
      omega

/-- A send keeps to the total exactly as long as every call that finds `session->timeout` at 0 has a
    whole single timeout left. -/
theorem send_deadline_within_iff (c : Timeouts) (h : 0 ≤ c.sendTimeout) (t₀ : ℕ)
    (session : Session) :
    (∀ a, Reaches (Armed.partialWritten c) (EnoughLeft c t₀) (sendMessageAsync c t₀ session) a →
      Within c t₀ a) ∧
    (∀ a t a', Reachable (Armed.partialWritten c) (sendMessageAsync c t₀ session) a →
      a.partialWritten c t = some a' → (Within c t₀ a' ↔ EnoughLeft c t₀ a t)) := by
  have hstart := sendMessageAsync_sending h t₀ session
  constructor
  · intro a hr
    refine (hr.invariant (P := fun a => Sending c t₀ a ∧ Within c t₀ a) hstart ?_).2
    rintro a t a' ⟨hs, _⟩ hallowed hstep
    exact ⟨(hs.step hstep).1, (hs.step hstep).2.mpr hallowed⟩
  · intro a t a' hr hstep
    have hs : Sending c t₀ a := hr.invariant hstart.1 fun _ _ _ hs _ hstep => (hs.step hstep).1
    exact (hs.step hstep).2

def slowPeer : Timeouts where
  responseTimeout := 10000
  sendTimeout := 5000
  receiveTimeout := -1
  watchTimeout := 0
  keepAliveTimeout := 0
  response_int := by decide
  send_int := by decide
  receive_int := by decide

/-- Progress after one second moves the deadline from 5 s to 11 s. -/
theorem slowPeer_not_within : ∃ a, (sendMessageAsync slowPeer 0 ⟨0, .zero⟩).partialWritten slowPeer
    1000000000 = some a ∧ a.deadline = some ⟨11, 0⟩ ∧ ¬ Within slowPeer 0 a := by
  refine ⟨_, rfl, rfl, ?_⟩
  rintro ⟨d, hd, hle⟩
  cases hd
  exact absurd hle (by decide)

def quickPeer : Timeouts where
  responseTimeout := 1000
  sendTimeout := 5000
  receiveTimeout := 5000
  watchTimeout := 0
  keepAliveTimeout := 0
  response_int := by decide
  send_int := by decide
  receive_int := by decide

theorem quickPeer_within : ∃ a, (sendMessageAsync quickPeer 0 ⟨0, .zero⟩).partialWritten quickPeer
    900000000 = some a ∧ Within quickPeer 0 a := by
  obtain ⟨a, ha⟩ : ∃ a, (sendMessageAsync quickPeer 0 ⟨0, .zero⟩).partialWritten quickPeer
    900000000 = some a := ⟨_, rfl⟩
  refine ⟨a, ha, ?_⟩
  have h := (send_deadline_within_iff quickPeer (by decide) 0 ⟨0, .zero⟩).2 _ _ _ .start ha
  exact h.mpr (fun hzero => absurd hzero (by decide))

def Armed.due (a : Armed) : WithTop ℤ := a.deadline.elim ⊤ (fun d => (nanoseconds d : ℤ))

def ends (t : ℕ) (timeout : ℤ) : WithTop ℤ :=
  if timeout < 0 then ⊤ else ((t + timeout * nsecPerMsec : ℤ) : WithTop ℤ)

theorem ends_of_neg {timeout : ℤ} (h : timeout < 0) (t : ℕ) : ends t timeout = ⊤ := if_pos h

theorem arm_due (t : ℕ) (r : ℤ × Session) : (arm t r).due = ends t r.1 := by
  unfold ends
  split_ifs with h
  · rw [Armed.due, arm, nodeSetTimeout, if_pos h]
    rfl
  · obtain ⟨d, hd, hns⟩ := arm_deadline (r := r) (by omega) t
    rw [Armed.due, hd, ← hns]
    rfl

def Near (x y : WithTop ℤ) : Prop := x ≤ y + nsecPerMsec ∧ y ≤ x + nsecPerMsec

theorem near_coe {x y : ℤ} (h1 : x ≤ y + nsecPerMsec) (h2 : y ≤ x + nsecPerMsec) :
    Near (x : WithTop ℤ) (y : WithTop ℤ) := by
  constructor
  · exact_mod_cast h1
  · exact_mod_cast h2

theorem near_refl (x : WithTop ℤ) : Near x x := by
  induction x using WithTop.recTopCoe with
  | top => simp [Near]
  | coe n =>
    have hle : n ≤ n + nsecPerMsec := by
      simp only [nsecPerMsec]
      omega
    exact near_coe hle hle

/-- What the timer of a server session stands for: the total alone, or a single timeout that ends
    before it. -/
inductive Receiving (c : Timeouts) (t₀ : ℕ) (a : Armed) : Prop
  | unlimited (hzero : a.session.timeout = 0) (hp : c.responseTimeout < 0)
      (hdue : a.due = ends t₀ c.receiveTimeout)
  | covered (hzero : a.session.timeout = 0) (hp : 0 ≤ c.responseTimeout)
      (hr : 0 ≤ c.receiveTimeout) {d : Timespec} (hd : a.deadline = some d)
      (hlow : t₀ + c.receiveTimeout * nsecPerMsec - 999999 ≤ nanoseconds d)
      (hhigh : nanoseconds d ≤ t₀ + c.receiveTimeout * nsecPerMsec + 999999)
      (hsingle : nanoseconds d ≤ a.now + c.responseTimeout * nsecPerMsec)
  | counting (hcount : Counting c t₀ c.receiveTimeout a.session) (hr : c.receiveTimeout ≠ 0)
      (hdeadline : a.deadline = nodeSetTimeout c.responseTimeout (clockGettime a.now))
      (hbefore : 0 ≤ c.receiveTimeout →
        a.now + c.responseTimeout * nsecPerMsec ≤ t₀ + c.receiveTimeout * nsecPerMsec)

theorem createRequest_receiving (c : Timeouts) (t₀ : ℕ) (session : Session) :
    Receiving c t₀ (createRequest c t₀ session) := by
  have hcases := firstTimeout_cases (c := c) c.receive_int t₀ session
  obtain ⟨h1, h2, h3⟩ | ⟨h1, h2, h3⟩ := hcases
  · by_cases hp : c.responseTimeout < 0
    · refine .unlimited h2 hp ?_
      rw [createRequest, arm_due, firstTimeoutRecv, h1]
    · obtain ⟨hr, hle⟩ := h3.resolve_left hp
      obtain ⟨d, hd, hns⟩ := arm_deadline
        (r := firstTimeoutRecv c (clockGettime t₀) session) (h1 ▸ hr) t₀
      rw [firstTimeoutRecv, h1] at hns
      refine .covered h2 (by omega) hr hd (by omega) (by omega) ?_
      rw [hns]
      change _ ≤ (t₀ : ℤ) + _
      simp only [nsecPerMsec]
      omega
  · have hlimit := h2.limit
    refine .counting h2 (by omega) ?_ ?_
    · rw [createRequest, arm, firstTimeoutRecv, h1]
    · intro hr
      change (t₀ : ℤ) + _ ≤ _
      simp only [nsecPerMsec]
      omega

theorem appendMessage_zero {session : Session} (h : session.timeout = 0) (now : Timespec) :
    appendMessage c true 0 now session = (.keep, session) := by
  simp [appendMessage, h]

theorem appendMessage_counting {t₀ : ℕ} {total : ℤ} {session : Session}
    (h : Counting c t₀ total session) (ht : total ≠ 0) (now : Timespec) :
    appendMessage c true 0 now session =
      (.set (nextTimeout c now session).1, (nextTimeout c now session).2) := by
  have hbegin : ¬ session.beginTime.sec < 0 := by
    rw [h.begin_eq]
    simp only [clockGettime]
    omega
  have hne : session.timeout ≠ 0 := by rwa [h.total_eq]
  simp [appendMessage, hne, hbegin]

theorem Receiving.step {t₀ t : ℕ} {a a' : Armed} (hlater : t₀ ≤ a.now) (h : Receiving c t₀ a)
    (hs : a.received c t = some a') : Receiving c t₀ a' ∧ a'.now = t ∧ a.now ≤ t := by
  simp only [Armed.received] at hs
  split_ifs at hs with hin
  have hle := hin.1
  cases h with
  | unlimited hzero hp hdue =>
    rw [appendMessage_zero hzero] at hs
    cases hs
    exact ⟨.unlimited hzero hp hdue, rfl, hle⟩
  | covered hzero hp hr hd hlow hhigh hsingle =>
    rw [appendMessage_zero hzero] at hs
    cases hs
    refine ⟨.covered hzero hp hr hd hlow hhigh ?_, rfl, hle⟩
    change _ ≤ (t : ℤ) + _
    omega
  | counting hcount hr hdeadline hbefore =>
    rw [appendMessage_counting hcount hr] at hs
    cases hs
    refine ⟨?_, rfl, hle⟩
    by_cases hneg : c.receiveTimeout < 0
    · have hplain := nextTimeout_plain (c := c) (hcount.total_eq.trans_le hneg.le) (clockGettime t)
      rw [hplain]
      exact .counting hcount hr rfl (by omega)
    · obtain ⟨d, hd, hns⟩ := nodeSetTimeout_nanoseconds hcount.limit a.now
      have hlt := hin.lt (hdeadline.trans hd)
      have hb := hbefore (by omega)
      obtain ⟨hnext, hend⟩ | ⟨hzero, h0, hp, hlow, hhigh⟩ :=
        nextTimeout_cases hcount c.receive_int (by omega) (hlater.trans hle) (by omega)
      · rw [hnext]
        exact .counting hcount hr rfl fun _ => hend
      · obtain ⟨e, he, hens⟩ := arm_deadline h0 t
        refine .covered hzero hcount.limit (by omega) he (by omega) (by omega) ?_
        rw [hens]
        change _ ≤ (t : ℤ) + _
        simp only [nsecPerMsec]
        omega

theorem Receiving.near {t₀ : ℕ} {a : Armed} (h : Receiving c t₀ a) :
    Near a.due (min (ends a.now c.responseTimeout) (ends t₀ c.receiveTimeout)) := by
  cases h with
  | unlimited hzero hp hdue =>
    rw [hdue, ends_of_neg hp, min_eq_right le_top]
    exact near_refl _
  | @covered hzero hp hr d hd hlow hhigh hsingle =>
    rw [ends, ends, if_neg (by omega), if_neg (by omega), ← WithTop.coe_min, Armed.due, hd]
    simp only [nsecPerMsec] at hlow hhigh hsingle
    apply near_coe <;> simp only [nsecPerMsec] <;> omega
  | counting hcount hr hdeadline hbefore =>
    have hdue : a.due = ends a.now c.responseTimeout := by
      rw [← arm_due a.now (c.responseTimeout, a.session), Armed.due, Armed.due, hdeadline, arm]
    have hmin : ends a.now c.responseTimeout ≤ ends t₀ c.receiveTimeout := by
      have hlimit := hcount.limit
      rw [ends, if_neg (by omega), ends]
      split_ifs with hneg
      · exact le_top
      · exact_mod_cast hbefore (by omega)
    rw [min_eq_left hmin, hdue]
    exact near_refl _

/-- The deadline of a server session is the earlier one of its two timeouts, up to a
    millisecond. -/
theorem receive_deadline_near (c : Timeouts) (t₀ : ℕ) (session : Session) {a : Armed}
    (h : Reachable (Armed.received c) (createRequest c t₀ session) a) :
    Near a.due (min (ends a.now c.responseTimeout) (ends t₀ c.receiveTimeout)) := by
  have hinv : Receiving c t₀ a ∧ t₀ ≤ a.now := by
    refine h.invariant (P := fun a => Receiving c t₀ a ∧ t₀ ≤ a.now)
      ⟨createRequest_receiving c t₀ session, le_rfl⟩ ?_
    rintro a t a' ⟨hr, hlater⟩ _ hs
    obtain ⟨hr', hnow, hle⟩ := hr.step hlater hs
    exact ⟨hr', by omega⟩
  exact hinv.1.near

def quickArrivals : List ℕ := [900000000, 1800000000, 2700000000, 3600000000, 4500000000]

theorem quickPeer_receive_near : ∃ a,
    run (Armed.received quickPeer) (createRequest quickPeer 0 ⟨0, .zero⟩) quickArrivals = some a ∧
      a.deadline = some ⟨5, 0⟩ ∧ Near a.due (min (ends a.now 1000) (ends 0 5000)) := by
  have hrun : (run (Armed.received quickPeer) (createRequest quickPeer 0 ⟨0, .zero⟩)
      quickArrivals).map Armed.deadline = some (some ⟨5, 0⟩) := by decide +kernel
  obtain ⟨a, ha, hd⟩ := Option.map_eq_some_iff.mp hrun
  exact ⟨a, ha, hd, receive_deadline_near quickPeer 0 ⟨0, .zero⟩
    (reachable_of_run quickArrivals .start ha)⟩

end MyWorkflow.Comm.Timeout
