import MyWorkflow.CommClient

set_option autoImplicit false

namespace MyWorkflow.Comm.Client
open Bags
open List hiding replace

inductive Kind where
  | connecting
  | writing
  | reading
  | dropping
  | freeing
deriving DecidableEq, Repr

def After.kind : After → Kind
  | .releaseConn => .connecting
  | .lock => .writing
  | .decref => .dropping

def Slot.kind : Slot → Kind
  | .launched _ => .connecting
  | .registered .connect _ | .result .connect _ => .connecting
  | .registered .write _ | .result .write _ => .writing
  | .registered .read _ | .result .read _ => .reading
  | .addRead _ new => if new then .connecting else .writing
  | .release _ _ after | .handle _ _ after => after.kind
  | .lock => .writing
  | .none | .decref => .dropping
  | .releaseConn => .freeing

def Slot.refs : Slot → ℤ
  | .none => 0
  | _ => 1

inductive Phase where
  | connecting
  | writing
  | busy
  | idle
  | taken
  | closing
  | success
  /-- So it is, but the terminal result was handled first and left its reference behind. -/
  | passed
  | dropping
deriving DecidableEq, Repr

def Phase.kind : Phase → Kind
  | .connecting => .connecting
  | .writing => .writing
  | .busy | .idle | .taken | .closing | .success => .reading
  | .passed | .dropping => .dropping

def Phase.allows : Phase → ConnState → Bool
  | .connecting, st => st = .connecting ∨ st = .receiving
  | .writing, st | .dropping, st => st ≠ .success
  | .busy, st => st = .receiving ∨ st = .error
  | .idle, st | .taken, st => st = .idle
  | .closing, st | .passed, st => st = .closing
  | .success, st => st = .success

def Phase.opened : Phase → ℕ
  | .success | .passed => 1
  | _ => 0

def Phase.extra : Phase → ℤ
  | .passed => 1
  | _ => 0

def Phase.inList : Phase → Bool
  | .idle => true
  | _ => false

def Reply.isOpen : Reply → Bool
  | .queued _ | .loaded _ _ => true
  | _ => false

def Reply.holds : Reply → Bool
  | .release _ | .handle _ | .decref => true
  | _ => false

/-- Who may hold `entry->mutex`: nobody, a request at work on the connection, or only one that is
    about to unlock it. -/
def Phase.holder (c : Conn) : Phase → Prop
  | .connecting | .passed | .dropping => c.mutex = none
  | .taken => ∃ s h, c.mutex = some (s, h) ∧ h ≠ .leaving ∧ (h = .taken ∨ h = .lost ∨ c.session = s)
  | _ => ∀ s h, c.mutex = some (s, h) → h = .leaving

structure Running (c : Conn) (p : Phase) : Prop where
  kind : c.slot.kind = p.kind
  state : p.allows c.state = true
  opened : c.replies.countP Reply.isOpen = p.opened
  holder : p.holder c
  ref : c.ref = c.slot.refs + p.extra + c.replies.countP Reply.holds
  pos : 0 < c.ref
  launched : ∀ s, c.slot = .launched s → c.session = s
  added : ∀ s new, c.slot = .addRead s new → c.session = s ∧ c.state = .receiving
  passed : p = .passed → c.slot = .none
  unreplied : p = .connecting → c.replies = []
  notFree : .releaseConn ∉ c.replies
  notReleased : c.released = 0

inductive Fits (c : Conn) (inList : Bool) : Prop
  | running (p : Phase) (r : Running c p) (h : inList = p.inList)
  | freeing (h : inList = false) (mutex : c.mutex = none) (notReleased : c.released = 0)
      (last : c.slot = .releaseConn ∧ c.replies = [] ∨
        c.slot = .none ∧ c.replies = [.releaseConn])
  | freed (h : inList = false) (mutex : c.mutex = none) (released : c.released = 1)
      (slot : c.slot = .none) (replies : c.replies = [])

theorem Phase.eq_connecting {p : Phase} (h : p.kind = .connecting) : p = .connecting := by
  cases p <;> first | rfl | cases h

theorem Phase.eq_writing {p : Phase} (h : p.kind = .writing) : p = .writing := by
  cases p <;> first | rfl | cases h

theorem Phase.holder.congr {c c' : Conn} {p : Phase} (h : p.holder c)
    (hm : c'.mutex = c.mutex) (hs : c'.session = c.session) : p.holder c' := by
  cases p <;> simpa only [Phase.holder, hm, hs] using h

theorem Phase.eq_busy {p : Phase} : p.kind = .reading → p.allows .receiving = true → p = .busy := by
  cases p <;> decide

variable {c : Conn} {inList : Bool} {p : Phase}

theorem launch_fits (s : SessionId) : Fits (.launch s) false := by
  refine .running .connecting ?_ rfl
  exact
    { kind := rfl
      state := rfl
      opened := rfl
      holder := rfl
      ref := rfl
      pos := Int.one_pos
      launched := by rintro _ ⟨⟩; rfl
      added := by rintro _ _ ⟨⟩
      passed := by rintro ⟨⟩
      unreplied := fun _ => rfl
      notFree := not_mem_nil
      notReleased := rfl }

theorem Fits.exists_running (fit : Fits c inList) {slot : Slot} (hs : c.slot = slot)
    (hne : slot ≠ .none ∧ slot ≠ .releaseConn) :
    ∃ p, Running c p ∧ inList = p.inList := by
  cases fit with
  | running p r h => exact ⟨p, r, h⟩
  | freeing h mutex notReleased last =>
    rcases last with ⟨hl, -⟩ | ⟨hl, -⟩
    · exact absurd (hs.symm.trans hl) hne.2
    · exact absurd (hs.symm.trans hl) hne.1
  | freed h mutex released hl replies => exact absurd (hs.symm.trans hl) hne.1

theorem Fits.exists_running_of_mutex (fit : Fits c inList) (h : c.mutex ≠ none) :
    ∃ p, Running c p ∧ inList = p.inList := by
  cases fit with
  | running p r hl => exact ⟨p, r, hl⟩
  | freeing _ mutex => exact absurd mutex h
  | freed _ mutex => exact absurd mutex h

theorem Running.eq_taken (r : Running c p) {s : SessionId} {h : Holding}
    (hm : c.mutex = some (s, h)) (hl : h ≠ .leaving) : p = .taken := by
  have hh := r.holder
  cases p with
  | taken => rfl
  | connecting | passed | dropping => exact absurd (hm.symm.trans hh) (by simp)
  | writing | busy | idle | closing | success => exact absurd (hh s h hm) hl

theorem Running.kind_of_slot (r : Running c p) {slot : Slot} (hs : c.slot = slot) :
    p.kind = slot.kind := by
  rw [← hs, r.kind]

theorem Running.eq_connecting (r : Running c p) {slot : Slot} (hs : c.slot = slot)
    (hkind : slot.kind = .connecting) : p = .connecting :=
  Phase.eq_connecting ((r.kind_of_slot hs).trans hkind)

theorem Running.eq_writing (r : Running c p) {slot : Slot} (hs : c.slot = slot)
    (hkind : slot.kind = .writing) : p = .writing :=
  Phase.eq_writing ((r.kind_of_slot hs).trans hkind)

theorem Running.eq_dropping (r : Running c p) {slot : Slot} (hs : c.slot = slot)
    (hkind : slot.kind = .dropping) (hne : slot ≠ .none) : p = .dropping := by
  have hp := (r.kind_of_slot hs).trans hkind
  cases p with
  | dropping => rfl
  | passed => exact absurd (hs.symm.trans (r.passed rfl)) hne
  | connecting | writing | busy | idle | taken | closing | success => cases hp

def Slot.plain : Slot → Bool
  | .none | .launched _ | .addRead _ _ => false
  | _ => true

theorem Slot.refs_eq_one {slot : Slot} (h : slot ≠ .none) : slot.refs = 1 := by
  cases slot <;> first | rfl | exact absurd rfl h

theorem Slot.ne_of_plain {slot other : Slot} (h : slot.plain = true) (ho : other.plain = false) :
    slot ≠ other := by
  rintro rfl
  rw [h] at ho
  cases ho

/-- A step that changes the slot and trades the replies `old` for `new`. -/
theorem Running.swap (r : Running c p) {c' : Conn} {p' : Phase} (old new : List Reply)
    (hreplies : Swaps old new c.replies c'.replies)
    (href : c'.ref + (c.slot.refs + p.extra) + old.countP Reply.holds =
      c.ref + (c'.slot.refs + p'.extra) + new.countP Reply.holds)
    (hpos : 0 < c'.ref) (hholder : p'.holder c')
    (hopened : p'.opened + old.countP Reply.isOpen = p.opened + new.countP Reply.isOpen)
    (hunreplied : p' = .connecting → c'.replies = []) (hkind : c'.slot.kind = p'.kind)
    (hstate : p'.allows c'.state = true)
    (hslot : c'.slot.plain = true ∨ c'.slot = .none ∨
      (∃ new, c'.slot = .addRead c'.session new) ∧ c'.state = .receiving ∨
      c'.slot = c.slot ∧ c'.session = c.session ∧ c'.state = c.state)
    (hquiet : (p' = .passed → c'.slot = .none) ∧ .releaseConn ∉ new ∧ c'.released = c.released) :
    Running c' p' where
  kind := hkind
  state := hstate
  opened := by
    have hc := hreplies.countP Reply.isOpen
    have ho := r.opened
    omega
  holder := hholder
  ref := by
    have hc := hreplies.countP Reply.holds
    have hr := r.ref
    omega
  pos := hpos
  launched := by
    intro s h
    rcases hslot with hp | hn | ⟨⟨new, hs⟩, -⟩ | ⟨hs, hsession, -⟩
    · exact absurd h (Slot.ne_of_plain hp rfl)
    · cases hn.symm.trans h
    · cases hs.symm.trans h
    · exact hsession.trans (r.launched s (hs.symm.trans h))
  added := by
    intro s new h
    rcases hslot with hp | hn | ⟨⟨new', hs⟩, hst⟩ | ⟨hs, hsession, hst⟩
    · exact absurd h (Slot.ne_of_plain hp rfl)
    · cases hn.symm.trans h
    · exact ⟨(Slot.addRead.inj (hs.symm.trans h)).1, hst⟩
    · obtain ⟨h₁, h₂⟩ := r.added s new (hs.symm.trans h)
      exact ⟨hsession.trans h₁, hst.trans h₂⟩
  passed := hquiet.1
  unreplied := hunreplied
  notFree := fun h => (hreplies.mem h).elim hquiet.2.1 r.notFree
  notReleased := hquiet.2.2.trans r.notReleased

theorem Running.move (r : Running c p) {c' : Conn} {p' : Phase} {slot : Slot} (hs : c.slot = slot)
    (hholder : p'.holder c') (hstate : p'.allows c'.state = true)
    (hrefs : c'.slot.refs + p'.extra = slot.refs + p.extra) (hkind : c'.slot.kind = p'.kind)
    (hslot : c'.slot.plain = true ∨ c'.slot = .none ∨
      (∃ new, c'.slot = .addRead c'.session new) ∧ c'.state = .receiving)
    (hphase : (p' = .passed → c'.slot = .none) ∧ (p' = .connecting → p = .connecting))
    (hsame : p'.opened = p.opened ∧ c'.replies = c.replies ∧ c'.ref = c.ref ∧
      c'.released = c.released) : Running c' p' := by
  obtain ⟨hopened, hreplies, href, hreleased⟩ := hsame
  refine r.swap [] [] (by rw [hreplies]; exact .refl _) ?_ (href ▸ r.pos) hholder ?_ ?_ hkind hstate
    ?_ ⟨hphase.1, by simp, hreleased⟩
  · rw [hs, href, hrefs]
  · rw [hopened]
  · exact fun h => hreplies.trans (r.unreplied (hphase.2 h))
  · tauto

/-! ## Sessions and calls in the hands of a connection -/

@[simp] def Slot.sessions (state : ConnState) (session : SessionId) : Slot → List SessionId
  | .launched s | .addRead s _ | .release s _ _ | .handle s _ _ => [s]
  | .registered .read _ | .result .read _ =>
    if state = .receiving ∨ state = .error then [session] else []
  | .registered _ _ | .result _ _ => [session]
  | .none | .lock | .decref | .releaseConn => []

def Reply.sessions (session : SessionId) : Reply → List SessionId
  | .queued _ => [session]
  | .loaded s _ | .release s | .handle s => [s]
  | .decref | .releaseConn => []

def holderSessions : Option (SessionId × Holding) → List SessionId
  | none | some (_, .leaving) => []
  | some (s, _) => [s]

def Conn.owned (c : Conn) (i : SessionId) : ℕ :=
  (c.slot.sessions c.state c.session).count i +
    (holdings (Reply.sessions c.session) c.replies).count i + (holderSessions c.mutex).count i

@[simp] def Slot.midway : Slot → List SessionId
  | .handle s _ _ => [s]
  | _ => []

def Reply.midway : Reply → List SessionId
  | .handle s => [s]
  | _ => []

def Conn.midway (c : Conn) (i : SessionId) : ℕ :=
  c.slot.midway.count i + (holdings Reply.midway c.replies).count i

@[simp] def Slot.calls : Slot → List SessionId
  | .launched s => [s]
  | _ => []

def holderCalls : Option (SessionId × Holding) → List SessionId
  | none => []
  | some (s, _) => [s]

def Conn.calls (c : Conn) (i : SessionId) : ℕ :=
  c.slot.calls.count i + (holderCalls c.mutex).count i

@[simp] def Slot.rank : Slot → ℕ
  | .launched _ => 23
  | .registered .connect live => if live then 22 else 21
  | .result .connect _ => 20
  | .registered .write live => if live then 19 else 18
  | .result .write _ => 17
  | .addRead _ _ => 9
  | .registered .read live => if live then 8 else 7
  | .result .read _ => 6
  | .release _ _ _ => 5
  | .handle _ _ _ => 4
  | .lock => 3
  | .decref => 2
  | .releaseConn => 1
  | .none => 0

def Reply.rank : Reply → ℕ
  | .queued _ => 6
  | .loaded _ _ => 5
  | .release _ => 4
  | .handle _ => 3
  | .decref => 2
  | .releaseConn => 1

def Holding.rank : Holding → ℕ
  | .taken => 22
  | .sending => 21
  | .failing => 3
  | .failed => 2
  | .lost | .leaving => 1

-- the reply that is still to come
@[simp] def stateRank (state : ConnState) : ℕ := if state = .receiving then 7 else 0

def holderRank (mutex : Option (SessionId × Holding)) : ℕ := mutex.elim 0 (·.2.rank)

def Conn.rank (c : Conn) : ℕ :=
  c.slot.rank + stateRank c.state + load Reply.rank c.replies + holderRank c.mutex

def IdleList.after (inList : Bool) : IdleList → Bool
  | .same => inList
  | .add => true
  | .del => false

def IdleList.Linked (inList : Bool) : IdleList → Prop
  | .same => True
  | .add => inList = false
  | .del => inList = true

/-- A step keeps the connection in its phases, completes sessions only by handling them and
    loses no call. -/
structure Lands (c : Conn) (inList : Bool) (c' : Conn) (eff : Effect) : Prop where
  fits : Fits c' (eff.idle.after inList)
  linked : eff.idle.Linked inList
  owned : ∀ i, c'.owned i + ((eff.handled.map Prod.fst).count i +
    (eff.requests.map Request.session).count i) = c.owned i
  midway : ∀ i, c'.midway i + (eff.handled.map Prod.fst).count i =
    c.midway i + eff.released.count i
  calls : ∀ i, c'.calls i + ((eff.requests.map Request.session).count i + eff.returned.count i) =
    c.calls i
  rank : c'.rank < c.rank

theorem Lands.quiet {c' : Conn} (h : Fits c' inList) (howned : ∀ i, c'.owned i = c.owned i)
    (hmidway : ∀ i, c'.midway i = c.midway i) (hcalls : ∀ i, c'.calls i = c.calls i)
    (hrank : c'.rank < c.rank) : Lands c inList c' {} where
  fits := h
  linked := trivial
  owned := howned
  midway := hmidway
  calls := hcalls
  rank := hrank

theorem Lands.slot {c' : Conn} {eff : Effect} {slot : Slot} (hs : c.slot = slot)
    (h : Fits c' (eff.idle.after inList))
    (hcounts : (∀ i, (c'.slot.sessions c'.state c'.session).count i +
        ((eff.handled.map Prod.fst).count i + (eff.requests.map Request.session).count i) =
          (slot.sessions c.state c.session).count i ∧
      c'.slot.midway.count i + (eff.handled.map Prod.fst).count i =
        slot.midway.count i + eff.released.count i ∧
      c'.slot.calls.count i + ((eff.requests.map Request.session).count i +
        eff.returned.count i) = slot.calls.count i) ∧
      c'.slot.rank + stateRank c'.state < slot.rank + stateRank c.state)
    (hlinked : eff.idle.Linked inList)
    (hsame : c'.replies = c.replies ∧ c'.session = c.session ∧ c'.mutex = c.mutex) :
    Lands c inList c' eff where
  fits := h
  linked := hlinked
  owned := by
    intro i
    have hi := (hcounts.1 i).1
    simp only [Conn.owned, hs, hsame.1, hsame.2.2]
    rw [hsame.2.1] at hi ⊢
    omega
  midway := by
    intro i
    have hi := (hcounts.1 i).2.1
    simp only [Conn.midway, hs, hsame.1]
    omega
  calls := by
    intro i
    have hi := (hcounts.1 i).2.2
    simp only [Conn.calls, hs, hsame.2.2]
    omega
  rank := by
    have hrank := hcounts.2
    simp only [Conn.rank, hs, hsame.1, hsame.2.2]
    omega

/-! ## Steps of the poller -/

section Poller

variable (fit : Fits c inList)

include fit

theorem Fits.registered {s : SessionId} (hs : c.slot = .launched s) :
    Lands c inList { c with slot := .registered .connect true } { returned := [s] } := by
  obtain ⟨p, r, hl⟩ := fit.exists_running hs (by simp)
  have hsession := r.launched s hs
  obtain rfl := r.eq_connecting hs rfl
  have hrun : Running { c with slot := .registered .connect true } .connecting :=
    r.move hs r.holder r.state rfl rfl (.inl rfl) (by simp) ⟨rfl, rfl, rfl, rfl⟩
  exact .slot hs (.running .connecting hrun hl) (by simp [hsession]) trivial ⟨rfl, rfl, rfl⟩

theorem Fits.unregistrable {s : SessionId} (hs : c.slot = .launched s) :
    Lands c inList { c with slot := .none, released := c.released + 1 }
      { requests := [⟨s, .failed⟩] } := by
  obtain ⟨p, r, hl⟩ := fit.exists_running hs (by simp)
  obtain rfl := r.eq_connecting hs rfl
  exact .slot hs (.freed hl r.holder (by simp [r.notReleased]) rfl (r.unreplied rfl)) (by simp)
    trivial ⟨rfl, rfl, rfl⟩

theorem Fits.setSlot {old slot : Slot} (hs : c.slot = old) (hkind : slot.kind = old.kind)
    (hplain : slot.plain = true) (hne : old ≠ .none ∧ old ≠ .releaseConn) :
    Fits { c with slot := slot } inList := by
  obtain ⟨p, r, hl⟩ := fit.exists_running hs hne
  refine .running p (r.move hs (r.holder.congr rfl rfl) r.state ?_
    (hkind.trans (r.kind_of_slot hs).symm) (.inl hplain) ⟨?_, id⟩ ⟨rfl, rfl, rfl, rfl⟩) hl
  · rw [Slot.refs_eq_one hne.1, Slot.refs_eq_one (Slot.ne_of_plain hplain rfl)]
  · exact fun h => absurd (hs.symm.trans (r.passed h)) hne.1

theorem Fits.unregister {op : Operation} (hs : c.slot = .registered op true) :
    Lands c inList { c with slot := .registered op false } {} := by
  cases op <;> exact .slot hs (fit.setSlot hs rfl rfl (by simp)) (by simp) trivial ⟨rfl, rfl, rfl⟩

theorem Fits.terminate {op : Operation} {live : Bool} (hs : c.slot = .registered op live)
    (t : Terminal) : Lands c inList { c with slot := .result op t } {} := by
  cases op <;> cases live <;>
    exact .slot hs (fit.setSlot hs rfl rfl (by simp)) (by simp) trivial ⟨rfl, rfl, rfl⟩

theorem Fits.message {live : Bool} (hs : c.slot = .registered .read live)
    (hstate : c.state = .receiving) (k : Bool) :
    Lands c inList
      { c with
        state := .success
        slot := .registered .read (live && k)
        replies := .queued k :: c.replies } {} := by
  obtain ⟨p, r, hl⟩ := fit.exists_running hs (by simp)
  obtain rfl : p = .busy := Phase.eq_busy (r.kind_of_slot hs) (hstate ▸ r.state)
  refine .quiet (.running .success ?_ hl) ?_ ?_ ?_ ?_
  · exact r.swap [] [.queued k] (.refl _) (by rw [hs]; rfl) r.pos r.holder rfl (by simp) rfl rfl
      (.inl rfl) (by simp)
  · intro i
    simp only [Conn.owned, count_holdings_cons, hs, hstate, Slot.sessions, Reply.sessions]
    simp [Nat.add_assoc]
  · intro i
    simp [Conn.midway, count_holdings_cons, hs, Slot.midway, Reply.midway]
  · intro i
    simp [Conn.calls, hs, Slot.calls]
  · simp only [Conn.rank, hs, hstate, load_cons, Reply.rank, Slot.rank, stateRank]
    cases live <;> cases k <;> simp +arith

end Poller

/-! ## Steps of a handler -/

theorem replies_nil {l : List Reply} (hopen : l.countP Reply.isOpen = 0)
    (hholds : l.countP Reply.holds = 0) (hfree : .releaseConn ∉ l) : l = [] := by
  rw [countP_eq_zero] at hopen hholds
  rw [eq_nil_iff_forall_not_mem]
  intro r hr
  have h₁ := hopen r hr
  have h₂ := hholds r hr
  cases r with
  | queued | loaded => exact absurd rfl h₁
  | release | handle | decref => exact absurd rfl h₂
  | releaseConn => exact hfree hr

section Handler

variable (fit : Fits c inList)

include fit

theorem Fits.fail {op : Operation} {t : Terminal} (hs : c.slot = .result op t) {after : After}
    (hkind : after.kind = (Slot.result op t).kind) (hop : op ≠ .read) (cs : CsState) :
    Lands c inList { c with slot := .release c.session cs after } {} := by
  cases op with
  | read => exact absurd rfl hop
  | connect | write =>
    exact .slot hs (fit.setSlot hs hkind rfl (by simp)) (by simp) trivial ⟨rfl, rfl, rfl⟩

theorem Fits.handleConnectResult {t : Terminal} (hs : c.slot = .result .connect t) (w : Writing) :
    Lands c inList (c.handleConnectResult t w) {} := by
  have hfail : ∀ cs, Lands c inList { c with slot := .release c.session cs .releaseConn } {} :=
    fit.fail hs rfl (by decide)
  obtain ⟨p, r, hl⟩ := fit.exists_running hs (by simp)
  obtain rfl := r.eq_connecting hs rfl
  have hidle : c.state ≠ .idle := by
    intro h
    have hallows := r.state
    rw [h] at hallows
    cases hallows
  cases t with
  | error | deleted | stopped => exact hfail _
  | finished =>
    cases w with
    | failed => exact hfail _
    | complete =>
      simp only [Conn.handleConnectResult, Conn.sendMessage]
      exact .slot hs (.running .connecting
        (r.move hs r.holder rfl rfl rfl (.inr (.inr ⟨⟨_, rfl⟩, rfl⟩)) (by simp)
          ⟨rfl, rfl, rfl, rfl⟩) hl)
        (by simp; omega) trivial ⟨rfl, rfl, rfl⟩
    | partly ok =>
      simp only [Conn.handleConnectResult, Conn.sendMessage, if_neg hidle]
      cases ok with
      | false => exact hfail _
      | true =>
        have hallows : Phase.writing.allows c.state = true := by
          have h := r.state
          cases hst : c.state <;> first | rfl | (rw [hst] at h; cases h)
        have hholder : Phase.writing.holder { c with slot := .registered .write true } :=
          fun s h hm => absurd (hm.symm.trans r.holder) (by simp)
        exact .slot hs (.running .writing (r.move hs hholder hallows rfl rfl (.inl rfl) (by simp)
          ⟨rfl, rfl, rfl, rfl⟩) hl) (by simp) trivial ⟨rfl, rfl, rfl⟩

theorem Fits.handleRequestResult {t : Terminal} (hs : c.slot = .result .write t) :
    Lands c inList (c.handleRequestResult t) {} := by
  have hfail : ∀ cs, Lands c inList { c with slot := .release c.session cs .lock } {} :=
    fit.fail hs rfl (by decide)
  obtain ⟨p, r, hl⟩ := fit.exists_running hs (by simp)
  obtain rfl := r.eq_writing hs rfl
  cases t with
  | error | deleted | stopped => exact hfail _
  | finished =>
    simp only [Conn.handleRequestResult]
    exact .slot hs (.running .writing
      (r.move hs r.holder rfl rfl rfl (.inr (.inr ⟨⟨_, rfl⟩, rfl⟩)) (by simp) ⟨rfl, rfl, rfl, rfl⟩) hl)
        (by simp; omega) trivial ⟨rfl, rfl, rfl⟩

theorem Fits.addRead {s : SessionId} {new : Bool} (hs : c.slot = .addRead s new) (ok : Bool) :
    Lands c inList (c.addRead s new ok) {} := by
  obtain ⟨p, r, hl⟩ := fit.exists_running hs (by simp)
  obtain ⟨hsession, hstate⟩ := r.added s new hs
  cases ok with
  | false =>
    cases new <;> exact .slot hs (fit.setSlot hs rfl rfl (by simp)) (by simp [Conn.addRead]) trivial
      ⟨rfl, rfl, rfl⟩
  | true =>
    have hrun : Running { c with slot := .registered .read true } .busy := by
      have hallows : Phase.busy.allows c.state = true := by
        rw [hstate]
        rfl
      cases new with
      | true =>
        obtain rfl := r.eq_connecting hs rfl
        have hholder : Phase.busy.holder { c with slot := .registered .read true } :=
          fun s h hm => absurd (hm.symm.trans r.holder) (by simp)
        exact r.move hs hholder hallows rfl rfl (.inl rfl) (by simp) ⟨rfl, rfl, rfl, rfl⟩
      | false =>
        obtain rfl := r.eq_writing hs rfl
        exact r.move hs r.holder hallows rfl rfl (.inl rfl) (by simp) ⟨rfl, rfl, rfl, rfl⟩
    have hout : inList = Phase.busy.inList := by
      have hkind := r.kind_of_slot hs
      rw [hl]
      cases new <;> cases p <;> first | rfl | cases hkind
    simp only [Conn.addRead, ↓reduceIte]
    exact .slot hs (.running .busy hrun hout) (by simp [hsession, hstate]) trivial ⟨rfl, rfl, rfl⟩

theorem Fits.handleIncomingReply {t : Terminal} (hs : c.slot = .result .read t)
    (hmutex : c.mutex = none) :
    Lands c inList (c.handleIncomingReply t).1 (c.handleIncomingReply t).2 := by
  obtain ⟨p, r, hl⟩ := fit.exists_running hs (by simp)
  have hdrop : ∀ slot : Slot, slot.kind = .dropping → slot.plain = true → p.opened = 0 →
      p.extra = 0 → c.state ≠ .success → Running { c with slot := slot } .dropping := by
    intro slot hkind hplain hopened hextra hstate
    refine r.move hs hmutex (by simp [Phase.allows, hstate]) ?_ hkind (.inl hplain)
      (by simp) ⟨hopened.symm, rfl, rfl, rfl⟩
    rw [hextra, Slot.refs_eq_one (Slot.ne_of_plain hplain rfl)]
    rfl
  have hkind := r.kind_of_slot hs
  cases p with
  | connecting | writing | passed | dropping => cases hkind
  | taken =>
    obtain ⟨s, h, hm, -⟩ := r.holder
    rw [hmutex] at hm
    cases hm
  | idle =>
    have hstate : c.state = .idle := by simpa [Phase.allows] using r.state
    have heq : c.handleIncomingReply t = ({ c with slot := .decref }, { idle := .del }) := by
      unfold Conn.handleIncomingReply
      split <;> simp_all
    rw [heq]
    exact .slot hs (.running .dropping (hdrop .decref rfl rfl rfl rfl (by simp [hstate])) rfl)
      (by simp [hstate]) hl ⟨rfl, rfl, rfl⟩
  | closing =>
    have hstate : c.state = .closing := by simpa [Phase.allows] using r.state
    have heq : c.handleIncomingReply t = ({ c with slot := .decref }, {}) := by
      unfold Conn.handleIncomingReply
      split <;> simp_all
    rw [heq]
    exact .slot hs (.running .dropping (hdrop .decref rfl rfl rfl rfl (by simp [hstate])) hl)
      (by simp [hstate]) trivial ⟨rfl, rfl, rfl⟩
  | busy =>
    have hstate : c.state = .receiving ∨ c.state = .error := by
      simpa [Phase.allows] using r.state
    obtain ⟨cs, heq⟩ : ∃ cs, c.handleIncomingReply t =
        ({ c with slot := .release c.session cs .decref }, {}) := by
      unfold Conn.handleIncomingReply
      rcases hstate with hstate | hstate
      all_goals
        split <;> simp_all
    rw [heq]
    exact .slot hs (.running .dropping
      (hdrop _ rfl rfl rfl rfl (by rcases hstate with h | h <;> simp [h])) hl)
      (by simp [hstate]) trivial ⟨rfl, rfl, rfl⟩
  | success =>
    have hstate : c.state = .success := by simpa [Phase.allows] using r.state
    have heq : c.handleIncomingReply t = ({ c with state := .closing, slot := .none }, {}) := by
      unfold Conn.handleIncomingReply
      split <;> simp_all
    rw [heq]
    exact .slot hs (.running .passed (r.move hs hmutex rfl rfl rfl (.inr (.inl rfl)) (by simp)
      ⟨rfl, rfl, rfl, rfl⟩) hl)
      (by simp [hstate]) trivial ⟨rfl, rfl, rfl⟩

theorem Fits.finishRelease {s : SessionId} {cs : CsState} {after : After}
    (hs : c.slot = .release s cs after) :
    Lands c inList { c with slot := .handle s cs after } { released := [s] } :=
  .slot hs (fit.setSlot hs rfl rfl (by simp)) (by simp) trivial ⟨rfl, rfl, rfl⟩

theorem Fits.finishHandle {s : SessionId} {cs : CsState} {after : After}
    (hs : c.slot = .handle s cs after) :
    Lands c inList { c with slot := after.slot } { handled := [(s, cs)] } := by
  obtain ⟨p, r, hl⟩ := fit.exists_running hs (by simp)
  have hfits : Fits { c with slot := after.slot } inList := by
    cases after with
    | releaseConn =>
      obtain rfl := r.eq_connecting hs rfl
      exact .freeing hl r.holder r.notReleased (.inl ⟨rfl, r.unreplied rfl⟩)
    | lock =>
      obtain rfl := r.eq_writing hs rfl
      exact .running .writing (r.move hs r.holder r.state rfl rfl (.inl rfl) (by simp)
        ⟨rfl, rfl, rfl, rfl⟩) hl
    | decref =>
      obtain rfl := r.eq_dropping hs rfl (by simp)
      exact .running .dropping (r.move hs r.holder r.state rfl rfl (.inl rfl) (by simp)
        ⟨rfl, rfl, rfl, rfl⟩) hl
  cases after <;> exact .slot hs hfits (by simp [After.slot]) trivial ⟨rfl, rfl, rfl⟩

theorem Fits.finishLock (hs : c.slot = .lock) (hmutex : c.mutex = none) :
    Lands c inList { c with slot := .decref } {} := by
  obtain ⟨p, r, hl⟩ := fit.exists_running hs (by simp)
  obtain rfl := r.eq_writing hs rfl
  exact .slot hs (.running .dropping (r.move hs hmutex r.state rfl rfl (.inl rfl) (by simp)
    ⟨rfl, rfl, rfl, rfl⟩) hl) (by simp) trivial ⟨rfl, rfl, rfl⟩

theorem Fits.finishDecref (hs : c.slot = .decref) :
    Lands c inList
      { c with ref := c.ref - 1, slot := if c.ref - 1 = 0 then .releaseConn else .none } {} := by
  obtain ⟨p, r, hl⟩ := fit.exists_running hs (by simp)
  obtain rfl := r.eq_dropping hs rfl (by simp)
  have href := r.ref
  rw [hs] at href
  change c.ref = 1 + 0 + _ at href
  have hpos := r.pos
  split_ifs with h0
  · have hnil := replies_nil r.opened (by omega) r.notFree
    exact .slot hs (.freeing hl r.holder r.notReleased (.inl ⟨rfl, hnil⟩)) (by simp) trivial
      ⟨rfl, rfl, rfl⟩
  · refine .slot hs (.running .dropping (r.swap [] [] (.refl _) ?_ ?_ r.holder rfl (by simp) rfl
      r.state (.inr (.inl rfl)) (by simp)) hl) (by simp) trivial ⟨rfl, rfl, rfl⟩
    · rw [hs]
      change c.ref - 1 + (1 + 0) + 0 = c.ref + (0 + 0) + 0
      omega
    · change 0 < c.ref - 1
      omega

theorem Fits.finishReleaseConn (hs : c.slot = .releaseConn) :
    Lands c inList { c with slot := .none, released := c.released + 1 } {} := by
  cases fit with
  | running p r h =>
    have hkind := r.kind_of_slot hs
    cases p <;> cases hkind
  | freeing h mutex notReleased last =>
    rcases last with ⟨-, hnil⟩ | ⟨hn, -⟩
    · exact .slot hs (.freed h mutex (by simp [notReleased]) rfl hnil) (by simp) trivial
        ⟨rfl, rfl, rfl⟩
    · cases hs.symm.trans hn
  | freed h mutex released slot replies => cases hs.symm.trans slot

theorem Fits.finish {r : Conn × Effect} (h : c.finish = some r) : Lands c inList r.1 r.2 := by
  unfold Conn.finish at h
  split at h
  · next hs =>
    cases h
    exact fit.finishRelease hs
  · next hs =>
    cases h
    exact fit.finishHandle hs
  · next hs =>
    split_ifs at h with hm
    cases h
    exact fit.finishLock hs hm
  · next hs =>
    cases h
    exact fit.finishDecref hs
  · next hs =>
    cases h
    exact fit.finishReleaseConn hs
  · cases h

end Handler

/-! ## Steps of the handler of a reply -/

theorem Fits.exists_running_of_reply (fit : Fits c inList) {x : Reply} (hx : x ∈ c.replies)
    (hne : x ≠ .releaseConn) : ∃ p, Running c p ∧ inList = p.inList := by
  cases fit with
  | running p r h => exact ⟨p, r, h⟩
  | freeing h mutex notReleased last =>
    rcases last with ⟨-, hnil⟩ | ⟨-, hl⟩
    · rw [hnil] at hx
      cases hx
    · rw [hl] at hx
      exact absurd (mem_singleton.mp hx) hne
  | freed h mutex released slot replies =>
    rw [replies] at hx
    cases hx

theorem Fits.replyOn (fit : Fits c inList) {x y : Reply} (hx : x ∈ c.replies)
    (hne : x ≠ .releaseConn) (hy : y ≠ .releaseConn) (hopen : y.isOpen = x.isOpen)
    (hholds : y.holds = x.holds) :
    Fits { c with replies := Bags.replace x [y] c.replies } inList := by
  obtain ⟨p, r, hl⟩ := fit.exists_running_of_reply hx hne
  refine .running p (r.swap [x] [y] (swaps_replace hx _) ?_ r.pos (r.holder.congr rfl rfl) ?_
    ?_ r.kind r.state (.inr (.inr (.inr ⟨rfl, rfl, rfl⟩)))
    ⟨r.passed, by simpa using hy.symm, rfl⟩) hl
  · simp only [countP_singleton, hholds]
  · simp only [countP_singleton, hopen]
  · intro h
    rw [r.unreplied h] at hx
    cases hx

theorem Running.of_open (r : Running c p) {x : Reply} (hx : x ∈ c.replies)
    (hopen : x.isOpen = true) : p = .success ∨ p = .passed := by
  have hpos : 0 < c.replies.countP Reply.isOpen := countP_pos_iff.mpr ⟨x, hx, hopen⟩
  rw [r.opened] at hpos
  cases p <;> first | exact .inl rfl | exact .inr rfl | cases hpos

theorem Slot.sessions_reading {slot : Slot} (h : slot.kind = .reading) (state : ConnState)
    (session : SessionId) : slot.sessions state session =
      if state = .receiving ∨ state = .error then [session] else [] := by
  cases slot with
  | registered op live => cases op <;> first | rfl | cases h
  | result op t => cases op <;> first | rfl | cases h
  | addRead s new => cases new <;> cases h
  | release s cs after | handle s cs after => cases after <;> cases h
  | none | launched | lock | decref | releaseConn => cases h

theorem Slot.plain_of_reading {slot : Slot} (h : slot.kind = .reading) : slot.plain = true := by
  cases slot with
  | none | launched | lock | decref | releaseConn => cases h
  | addRead s new => cases new <;> cases h
  | registered | result | release | handle => rfl

theorem Slot.refs_of_reading {slot : Slot} (h : slot.kind = .reading) : slot.refs = 1 :=
  Slot.refs_eq_one (Slot.ne_of_plain (Slot.plain_of_reading h) rfl)

theorem Slot.midway_of_reading {slot : Slot} (h : slot.kind = .reading) : slot.midway = [] := by
  cases slot with
  | handle s cs after => cases after <;> cases h
  | none | launched | registered | result | addRead | release | lock | decref | releaseConn => rfl

theorem Slot.calls_of_reading {slot : Slot} (h : slot.kind = .reading) : slot.calls = [] := by
  cases slot with
  | launched => cases h
  | none | handle | registered | result | addRead | release | lock | decref | releaseConn => rfl

theorem holdings_sessions {l : List Reply} (h : l.countP Reply.isOpen = 0) (a b : SessionId) :
    holdings (Reply.sessions a) l = holdings (Reply.sessions b) l := by
  rw [countP_eq_zero] at h
  refine flatMap_congr ?_
  intro r hr
  cases r with
  | queued k => exact absurd rfl (h _ hr)
  | loaded | release | handle | decref | releaseConn => rfl

theorem owned_replace {x : Reply} (hx : x ∈ c.replies) (new : List Reply) (i : SessionId) :
    Conn.owned { c with replies := replace x new c.replies } i + (x.sessions c.session).count i =
      c.owned i + (holdings (Reply.sessions c.session) new).count i := by
  have h := count_holdings_replace (Reply.sessions c.session) hx new i
  simp only [Conn.owned]
  omega

theorem midway_replace {x : Reply} (hx : x ∈ c.replies) (new : List Reply) (i : SessionId) :
    Conn.midway { c with replies := replace x new c.replies } i + x.midway.count i =
      c.midway i + (holdings Reply.midway new).count i := by
  have h := count_holdings_replace Reply.midway hx new i
  simp only [Conn.midway]
  omega

theorem rank_reply {c' : Conn} {x : Reply} (hx : x ∈ c.replies) (new : List Reply)
    (hlt : load Reply.rank new < x.rank) (hstate : stateRank c'.state ≤ stateRank c.state)
    (hsame : c'.replies = replace x new c.replies ∧ c'.slot = c.slot ∧ c'.mutex = c.mutex) :
    c'.rank < c.rank := by
  have h := load_replace Reply.rank hx new
  rw [Conn.rank, Conn.rank, hsame.1, hsame.2.1, hsame.2.2]
  omega

theorem owned_reply {x : Reply} (hx : x ∈ c.replies) (y : Reply) (i : SessionId) :
    Conn.owned { c with replies := replace x [y] c.replies } i + (x.sessions c.session).count i =
      c.owned i + (y.sessions c.session).count i := by
  simpa [holdings] using owned_replace hx [y] i

theorem midway_reply {x : Reply} (hx : x ∈ c.replies) (y : Reply) (i : SessionId) :
    Conn.midway { c with replies := replace x [y] c.replies } i + x.midway.count i =
      c.midway i + y.midway.count i := by
  simpa [holdings] using midway_replace hx [y] i

section Reply

variable (fit : Fits c inList)

include fit

theorem Fits.replyQueued {k : Bool} (hx : .queued k ∈ c.replies) :
    Lands c inList { c with replies := replace (.queued k) [.loaded c.session k] c.replies } {} := by
  refine .quiet (fit.replyOn hx (by simp) (by simp) rfl rfl) ?_ ?_ (fun _ => rfl)
    (rank_reply hx [.loaded c.session k] (by simp [Reply.rank]) le_rfl ⟨rfl, rfl, rfl⟩)
  · exact fun i => Nat.add_right_cancel (owned_reply hx (.loaded c.session k) i)
  · exact fun i => midway_reply hx (.loaded c.session k) i

theorem Fits.replyLoaded {s : SessionId} {k : Bool} (hx : .loaded s k ∈ c.replies) :
    Lands c inList (c.reply (.loaded s k)).1 (c.reply (.loaded s k)).2 := by
  obtain ⟨p, r, hl⟩ := fit.exists_running_of_reply hx (by simp)
  have howned : ∀ i, Conn.owned { c with replies := replace (.loaded s k) [.release s] c.replies } i =
      c.owned i :=
    fun i => Nat.add_right_cancel (owned_reply hx (.release s) i)
  have hmidway : ∀ i, Conn.midway { c with replies := replace (.loaded s k) [.release s] c.replies } i =
      c.midway i :=
    fun i => midway_reply hx (.release s) i
  have hlt : load Reply.rank [.release s] < (Reply.loaded s k).rank := by simp [Reply.rank]
  rcases r.of_open hx rfl with rfl | rfl
  · have hstate : c.state = .success := by simpa [Phase.allows] using r.state
    have hsessions : ∀ st, st ≠ .receiving → st ≠ .error →
        c.slot.sessions st c.session = c.slot.sessions c.state c.session := by
      intro st h₁ h₂
      rw [Slot.sessions_reading r.kind, Slot.sessions_reading r.kind, hstate]
      simp [h₁, h₂]
    have hrun : Running { c with
        ref := c.ref + 1
        state := if k then .idle else .closing
        replies := replace (.loaded s k) [.release s] c.replies } (if k then .idle else .closing) := by
      cases k <;> exact r.swap [.loaded s _] [.release s] (swaps_replace hx _)
        (by simp [Reply.holds, Phase.extra]; omega) (Int.add_pos r.pos Int.one_pos) r.holder rfl
        (by simp) r.kind rfl (.inl (Slot.plain_of_reading r.kind)) (by simp)
    simp only [Conn.reply, if_pos hstate]
    refine ⟨?_, ?_, ?_, hmidway, fun _ => rfl, rank_reply hx _ hlt ?_ ⟨rfl, rfl, rfl⟩⟩
    · cases k with
      | true => exact .running .idle hrun rfl
      | false => exact .running .closing hrun hl
    · cases k with
      | true => exact hl
      | false => exact trivial
    · intro i
      have hsame := hsessions (if k then .idle else .closing) (by cases k <;> decide)
        (by cases k <;> decide)
      rw [← howned i]
      simp only [Conn.owned, hsame]
      rfl
    · cases k <;> exact Nat.zero_le _
  · have hstate : c.state = .closing := by simpa [Phase.allows] using r.state
    simp only [Conn.reply, if_neg (show c.state ≠ .success by simp [hstate])]
    refine .quiet (.running .dropping ?_ hl) howned hmidway (fun _ => rfl)
      (rank_reply hx _ hlt le_rfl ⟨rfl, rfl, rfl⟩)
    exact r.swap [.loaded s k] [.release s] (swaps_replace hx _)
      (by simp [Reply.holds, Phase.extra]; omega) r.pos r.holder rfl (by simp) r.kind
      (by simp [Phase.allows, hstate]) (.inr (.inl (r.passed rfl))) (by simp)

theorem Fits.replyRelease {s : SessionId} (hx : .release s ∈ c.replies) :
    Lands c inList { c with replies := replace (.release s) [.handle s] c.replies }
      { released := [s] } := by
  refine ⟨fit.replyOn hx (by simp) (by simp) rfl rfl, trivial, ?_, ?_, fun _ => rfl,
    rank_reply hx [.handle s] (by simp [Reply.rank]) le_rfl ⟨rfl, rfl, rfl⟩⟩
  · exact fun i => Nat.add_right_cancel (owned_reply hx (.handle s) i)
  · exact fun i => midway_reply hx (.handle s) i

theorem Fits.replyHandle {s : SessionId} (hx : .handle s ∈ c.replies) :
    Lands c inList { c with replies := replace (.handle s) [.decref] c.replies }
      { handled := [(s, .success)] } := by
  refine ⟨fit.replyOn hx (by simp) (by simp) rfl rfl, trivial, ?_, ?_, fun _ => rfl,
    rank_reply hx [.decref] (by simp [Reply.rank]) le_rfl ⟨rfl, rfl, rfl⟩⟩
  · exact fun i => owned_reply hx .decref i
  · exact fun i => midway_reply hx .decref i

end Reply

theorem Slot.refs_nonneg (slot : Slot) : 0 ≤ slot.refs := by
  cases slot <;> simp [Slot.refs]

theorem Slot.eq_none_of_refs {slot : Slot} (h : slot.refs = 0) : slot = .none := by
  cases slot <;> first | rfl | cases h

theorem Fits.replyDecref (fit : Fits c inList) (hx : .decref ∈ c.replies) :
    Lands c inList
      { c with
        ref := c.ref - 1
        replies := replace .decref (if c.ref - 1 = 0 then [.releaseConn] else []) c.replies } {} := by
  obtain ⟨p, r, hl⟩ := fit.exists_running_of_reply hx (by simp)
  have hcount := countP_replace Reply.holds hx []
  have hopened := countP_replace Reply.isOpen hx []
  change (replace .decref [] c.replies).countP Reply.holds + 1 = _ + 0 at hcount
  change (replace .decref [] c.replies).countP Reply.isOpen + 0 = _ + 0 at hopened
  have href := r.ref
  have hpos := r.pos
  have hslot := c.slot.refs_nonneg
  refine .quiet ?_ ?_ ?_ (fun _ => rfl) (rank_reply hx _ ?_ le_rfl ⟨rfl, rfl, rfl⟩)
  · split_ifs with h0
    · have hextra : 0 ≤ p.extra := by cases p <;> decide
      have hs : c.slot = .none := Slot.eq_none_of_refs (by omega)
      obtain rfl : p = .dropping := by
        have hkind := r.kind_of_slot hs
        cases p with
        | connecting | writing | busy | idle | taken | closing | success => cases hkind
        | passed =>
          change c.ref = _ + 1 + _ at href
          omega
        | dropping => rfl
      have hnil : c.replies.erase .decref = [] := by
        refine replies_nil ?_ ?_ (fun h => r.notFree (mem_of_mem_erase h))
        · have := r.opened
          change (c.replies.erase .decref).countP Reply.isOpen + 0 = _ at hopened
          rw [this] at hopened
          exact hopened
        · change (c.replies.erase .decref).countP Reply.holds + 1 = _ at hcount
          omega
      refine .freeing hl r.holder r.notReleased (.inr ⟨hs, ?_⟩)
      simp only [replace, hnil]
      rfl
    · refine .running p (r.swap [.decref] [] (swaps_replace hx _) (by simp [Reply.holds]; omega)
        (by simp; omega) (r.holder.congr rfl rfl) rfl ?_ r.kind r.state
        (.inr (.inr (.inr ⟨rfl, rfl, rfl⟩))) ⟨r.passed, by simp, rfl⟩) hl
      intro h
      rw [r.unreplied h] at hx
      cases hx
  · intro i
    have h := owned_replace hx (if c.ref - 1 = 0 then [.releaseConn] else []) i
    split_ifs at h ⊢
    all_goals exact h
  · intro i
    have h := midway_replace hx (if c.ref - 1 = 0 then [.releaseConn] else []) i
    split_ifs at h ⊢
    all_goals exact h
  · split_ifs <;> decide

theorem Fits.replyReleaseConn (fit : Fits c inList) (hx : .releaseConn ∈ c.replies) :
    Lands c inList
      { c with replies := replace .releaseConn [] c.replies, released := c.released + 1 } {} := by
  refine .quiet ?_ ?_ ?_ (fun _ => rfl)
    (rank_reply hx [] (by decide) le_rfl ⟨rfl, rfl, rfl⟩)
  · cases fit with
    | running p r h => exact absurd hx r.notFree
    | freeing h mutex notReleased last =>
      rcases last with ⟨-, hnil⟩ | ⟨hs, hl⟩
      · rw [hnil] at hx
        cases hx
      · refine .freed h mutex (by simp [notReleased]) hs ?_
        rw [hl]
        rfl
    | freed h mutex released slot replies =>
      rw [replies] at hx
      cases hx
  · intro i
    exact owned_replace hx [] i
  · intro i
    exact midway_replace hx [] i

theorem Fits.reply (fit : Fits c inList) {x : Reply} (hx : x ∈ c.replies) :
    Lands c inList (c.reply x).1 (c.reply x).2 := by
  cases x with
  | queued k => exact fit.replyQueued hx
  | loaded s k => exact fit.replyLoaded hx
  | release s => exact fit.replyRelease hx
  | handle s => exact fit.replyHandle hx
  | decref => exact fit.replyDecref hx
  | releaseConn => exact fit.replyReleaseConn hx

/-! ## Steps of a request -/

section Request

variable (fit : Fits c inList) {s : SessionId}

include fit

theorem Fits.taken {h : Holding} (hm : c.mutex = some (s, h)) (hl : h ≠ .leaving) :
    Running c .taken ∧ inList = false ∧ c.state = .idle ∧
      (h ≠ .taken → h ≠ .lost → c.session = s) := by
  obtain ⟨p, r, hin⟩ := fit.exists_running_of_mutex (by simp [hm])
  obtain rfl := r.eq_taken hm hl
  refine ⟨r, hin, by simpa [Phase.allows] using r.state, ?_⟩
  intro h₁ h₂
  obtain ⟨s', h', hm', -, hor⟩ := r.holder
  obtain ⟨rfl, rfl⟩ : s = s' ∧ h = h' := by simpa using hm.symm.trans hm'
  tauto

theorem Fits.hold {h h' : Holding} {slot : Slot} (hm : c.mutex = some (s, h)) (hl : h ≠ .leaving)
    (hl' : h' ≠ .leaving) (hsession : h' = .lost ∨ c.session = s)
    (hslot : c.slot.kind = .reading → slot.kind = .reading)
    (hrank : slot.rank + h'.rank < c.slot.rank + h.rank) :
    Lands c inList { c with slot := slot, mutex := some (s, h') } {} := by
  obtain ⟨r, hin, hstate, -⟩ := fit.taken hm hl
  have hkind : slot.kind = .reading := hslot r.kind
  refine .quiet (.running .taken ?_ hin) ?_ ?_ ?_ ?_
  · exact r.move rfl ⟨s, h', rfl, hl', .inr hsession⟩ r.state
      (by rw [Slot.refs_of_reading hkind, Slot.refs_of_reading r.kind]) hkind
      (.inl (Slot.plain_of_reading hkind)) (by simp) ⟨rfl, rfl, rfl, rfl⟩
  · intro i
    rw [Conn.owned, Conn.owned, Slot.sessions_reading hkind, Slot.sessions_reading r.kind, hm]
    cases h <;> cases h' <;> first | rfl | exact absurd rfl hl | exact absurd rfl hl'
  · intro i
    rw [Conn.midway, Conn.midway, Slot.midway_of_reading hkind, Slot.midway_of_reading r.kind]
  · intro i
    rw [Conn.calls, Conn.calls, Slot.calls_of_reading hkind, Slot.calls_of_reading r.kind, hm]
    rfl
  · simp only [Conn.rank, hm, holderRank, Option.elim_some]
    omega

theorem Fits.handOver {h : Holding} {slot : Slot} {state : ConnState} {p : Phase}
    (hm : c.mutex = some (s, h)) (hl : h ≠ .leaving) (hsession : c.session = s)
    (hp : p = .busy ∨ p = .writing) (hkind : slot.kind = p.kind) (hallows : p.allows state = true)
    (hplain : slot.plain = true) (hsessions : slot.sessions state c.session = [c.session])
    (hmidway : slot.midway = []) (hcalls : slot.calls = [])
    (hrank : slot.rank + stateRank state + Holding.leaving.rank <
      c.slot.rank + stateRank c.state + h.rank) :
    Lands c inList { c with slot := slot, state := state, mutex := some (s, .leaving) } {} := by
  obtain ⟨r, hin, hstate, -⟩ := fit.taken hm hl
  have hrefs : slot.refs + p.extra = c.slot.refs + Phase.taken.extra := by
    rw [Slot.refs_eq_one (Slot.ne_of_plain hplain rfl), Slot.refs_of_reading r.kind]
    rcases hp with rfl | rfl <;> rfl
  have hholder : p.holder { c with slot := slot, state := state, mutex := some (s, .leaving) } := by
    rcases hp with rfl | rfl
    all_goals
      intro s' h' hm'
      exact (Prod.mk.inj (Option.some.inj hm')).2.symm
  refine .quiet (.running p ?_ ?_) ?_ ?_ ?_ ?_
  · rcases hp with rfl | rfl <;> exact r.move rfl hholder hallows hrefs hkind (.inl hplain)
      (by simp) ⟨rfl, rfl, rfl, rfl⟩
  · rw [hin]
    rcases hp with rfl | rfl <;> rfl
  · intro i
    rw [Conn.owned, Conn.owned, Slot.sessions_reading r.kind, hm, hstate, hsessions, hsession]
    cases h <;> first | exact absurd rfl hl | simp [holderSessions, Nat.add_comm]
  · intro i
    rw [Conn.midway, Conn.midway, hmidway, Slot.midway_of_reading r.kind]
  · intro i
    rw [Conn.calls, Conn.calls, hcalls, Slot.calls_of_reading r.kind, hm]
    rfl
  · simp only [Conn.rank, hm, holderRank, Option.elim_some]
    omega

theorem Fits.handBack {h : Holding} (hm : c.mutex = some (s, h)) (hl : h ≠ .leaving)
    (hsession : c.session = s) {state : ConnState} (hst : state = .receiving ∨ state = .error)
    (hrank : stateRank state + Holding.leaving.rank < h.rank) :
    Lands c inList { c with state := state, mutex := some (s, .leaving) } {} := by
  obtain ⟨r, -⟩ := fit.taken hm hl
  refine fit.handOver hm hl hsession (.inl rfl) r.kind (by simpa [Phase.allows] using hst)
    (Slot.plain_of_reading r.kind) ?_ (Slot.midway_of_reading r.kind) (Slot.calls_of_reading r.kind)
    (by omega)
  rw [Slot.sessions_reading r.kind, if_pos hst]

theorem Fits.setTimeout (hm : c.mutex = some (s, .taken)) :
    Lands c inList { c with session := s, mutex := some (s, .sending) } {} := by
  obtain ⟨r, hin, hstate, -⟩ := fit.taken hm (by decide)
  refine .quiet (.running .taken ?_ hin) ?_ (fun _ => rfl) ?_
    (by simp [Conn.rank, hm, holderRank, Holding.rank])
  · exact r.move rfl ⟨s, .sending, rfl, by decide, .inr (.inr rfl)⟩ r.state rfl r.kind
      (.inl (Slot.plain_of_reading r.kind)) (by simp) ⟨rfl, rfl, rfl, rfl⟩
  · intro i
    rw [Conn.owned, Conn.owned, Slot.sessions_reading r.kind, Slot.sessions_reading r.kind, hm,
      hstate, holdings_sessions r.opened s c.session]
    rfl
  · intro i
    rw [Conn.calls, Conn.calls, hm]
    rfl

theorem Fits.giveUp (hm : c.mutex = some (s, .lost)) :
    Lands c inList { c with state := .closing, mutex := none }
      { requests := [⟨s, .looking⟩] } := by
  obtain ⟨r, hin, hstate, -⟩ := fit.taken hm (by decide)
  refine ⟨.running .closing ?_ hin, trivial, ?_, fun _ => rfl, ?_,
    by simp [Conn.rank, hm, hstate, holderRank, Holding.rank]⟩
  · exact r.move rfl (by rintro _ _ ⟨⟩) rfl rfl r.kind (.inl (Slot.plain_of_reading r.kind))
      (by simp) ⟨rfl, rfl, rfl, rfl⟩
  · intro i
    rw [Conn.owned, Conn.owned, Slot.sessions_reading r.kind, Slot.sessions_reading r.kind, hm,
      hstate]
    simp [holderSessions]
  · intro i
    rw [Conn.calls, Conn.calls, hm]
    simp [holderCalls]

theorem Fits.unlock (hm : c.mutex = some (s, .leaving)) :
    Lands c inList { c with mutex := none } { returned := [s] } := by
  obtain ⟨p, r, hin⟩ := fit.exists_running_of_mutex (by simp [hm])
  have hholder : p.holder { c with mutex := none } := by
    have hh := r.holder
    cases p with
    | connecting | passed | dropping => rfl
    | taken =>
      obtain ⟨s', h', hm', hne, -⟩ := hh
      rw [hm] at hm'
      cases hm'
      exact absurd rfl hne
    | writing | busy | idle | closing | success => rintro _ _ ⟨⟩
  refine ⟨.running p ?_ hin, trivial, ?_, fun _ => rfl, ?_,
    by simp [Conn.rank, hm, holderRank, Holding.rank]⟩
  · exact { r with holder := hholder }
  · intro i
    rw [Conn.owned, Conn.owned, hm]
    rfl
  · intro i
    rw [Conn.calls, Conn.calls, hm]
    simp [holderCalls]

theorem Fits.send (hm : c.mutex = some (s, .sending)) (w : Writing) {r : Conn × Effect}
    (h : c.step (.send w) = some r) : Lands c inList r.1 r.2 := by
  obtain ⟨-, -, hstate, hsession⟩ := fit.taken hm (by decide)
  have hsession := hsession (by decide) (by decide)
  have hfail : Lands c inList { c with mutex := some (s, .failing) } {} :=
    fit.hold hm (by decide) (by decide) (.inr hsession) id (by simp [Holding.rank])
  have hbusy : Lands c inList { c with state := .receiving, mutex := some (s, .leaving) } {} :=
    fit.handBack hm (by decide) hsession (.inl rfl) (by decide)
  simp only [Conn.step, hm] at h
  cases w with
  | failed =>
    cases h
    exact hfail
  | complete =>
    cases h
    exact hbusy
  | partly ok =>
    simp only [Conn.sendMessage, if_pos hstate] at h
    split at h
    · next hsend =>
      split at hsend
      · split_ifs at hsend
        · cases hsend
        · cases hsend
          cases h
          exact hfail
      · cases hsend
    · next hsend =>
      split at hsend
      · split_ifs at hsend
        · cases hsend
          cases h
          exact fit.handOver hm (by decide) hsession (.inr rfl) rfl (by simp [Phase.allows, hstate])
            rfl rfl rfl rfl (by simp [Holding.rank]; omega)
        · cases hsend
          next hne => exact absurd rfl hne
      · cases hsend
        cases h
        exact hbusy

theorem Fits.delete (hm : c.mutex = some (s, .failing)) {r : Conn × Effect}
    (h : c.step .delete = some r) : Lands c inList r.1 r.2 := by
  obtain ⟨-, -, -, hsession⟩ := fit.taken hm (by decide)
  have hsession := hsession (by decide) (by decide)
  simp only [Conn.step, hm] at h
  split at h
  · next op live hs =>
    cases h
    refine fit.hold hm (by decide) (by decide) (.inr hsession) ?_ ?_
    · rw [hs]
      cases op <;> exact id
    · rw [hs]
      cases op <;> cases live <;> decide
  · cases h
    exact fit.hold hm (by decide) (by decide) (.inr hsession) id (by simp [Holding.rank])

theorem Fits.setError (hm : c.mutex = some (s, .failed)) :
    Lands c inList { c with state := .error, mutex := some (s, .leaving) } {} := by
  obtain ⟨-, -, -, hsession⟩ := fit.taken hm (by decide)
  exact fit.handBack hm (by decide) (hsession (by decide) (by decide)) (.inr rfl) (by decide)

end Request

theorem step_lands (fit : Fits c inList) {a : ConnAction} {r : Conn × Effect}
    (h : c.step a = some r) : Lands c inList r.1 r.2 := by
  cases a with
  | register ok =>
    simp only [Conn.step] at h
    split at h
    · next s hs =>
      cases ok with
      | true =>
        cases h
        exact fit.registered hs
      | false =>
        cases h
        exact fit.unregistrable hs
    · cases h
  | unregister =>
    simp only [Conn.step] at h
    split at h
    · next hs =>
      cases h
      exact fit.unregister hs
    · cases h
  | terminate t =>
    simp only [Conn.step] at h
    split at h
    · next hs =>
      cases h
      exact fit.terminate hs t
    · cases h
  | message k =>
    simp only [Conn.step] at h
    split at h
    · next hs =>
      split_ifs at h with hst
      cases h
      exact fit.message hs hst k
    · cases h
  | handleResult w =>
    simp only [Conn.step] at h
    split at h
    · next hs =>
      cases h
      exact fit.handleConnectResult hs w
    · next hs =>
      cases h
      exact fit.handleRequestResult hs
    · next hs =>
      split_ifs at h with hm
      cases h
      exact fit.handleIncomingReply hs hm
    · cases h
  | addRead ok =>
    simp only [Conn.step] at h
    split at h
    · next hs =>
      cases h
      exact fit.addRead hs ok
    · cases h
  | finish => exact fit.finish h
  | reply x =>
    simp only [Conn.step] at h
    split_ifs at h with hx
    cases h
    exact fit.reply hx
  | setTimeout =>
    simp only [Conn.step] at h
    split at h
    · next s hm =>
      split at h
      · cases h
        exact fit.setTimeout hm
      · cases h
        exact fit.hold hm (by decide) (by decide) (.inl rfl) id (by simp [Holding.rank])
    · cases h
  | giveUp =>
    simp only [Conn.step] at h
    split at h
    · next hm =>
      cases h
      exact fit.giveUp hm
    · cases h
  | send w =>
    cases hm : c.mutex with
    | none => simp [Conn.step, hm] at h
    | some holder =>
      obtain ⟨s, hold⟩ := holder
      cases hold with
      | sending => exact fit.send hm w h
      | taken | lost | failing | failed | leaving => simp [Conn.step, hm] at h
  | delete =>
    cases hm : c.mutex with
    | none => simp [Conn.step, hm] at h
    | some holder =>
      obtain ⟨s, hold⟩ := holder
      cases hold with
      | failing => exact fit.delete hm h
      | taken | lost | sending | failed | leaving => simp [Conn.step, hm] at h
  | setError =>
    simp only [Conn.step] at h
    split at h
    · next hm =>
      cases h
      exact fit.setError hm
    · cases h
  | unlock =>
    simp only [Conn.step] at h
    split at h
    · next hm =>
      cases h
      exact fit.unlock hm
    · cases h

end MyWorkflow.Comm.Client
