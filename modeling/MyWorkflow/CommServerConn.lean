import MyWorkflow.CommServer

set_option autoImplicit false

namespace MyWorkflow.Comm.Server
open Function Bags
open List hiding replace

inductive Kind where
  | reading
  | writing
  /-- No registration of a server connection. -/
  | connecting
  | nothing
deriving DecidableEq, Repr

def Slot.kind : Slot → Kind
  | .registered .read _ | .result .read _ => .reading
  | .registered .write _ | .result .write _ | .keepAlive _ => .writing
  | .registered .connect _ | .result .connect _ => .connecting
  | .none => .nothing

def Slot.refs : Slot → ℤ
  | .none => 0
  | .keepAlive _ => 2
  | _ => 1

inductive Phase where
  | fresh
  | receiving
  | success
  | idle
  | writing
  | error
  | keepalive
  | closing
  /-- A request is complete, but the terminal result was handled first and left its reference
      behind. -/
  | passed
  | dropping
deriving DecidableEq, Repr

def Phase.kind : Phase → Kind
  | .fresh | .receiving | .success | .idle | .error | .keepalive | .closing => .reading
  | .writing => .writing
  | .passed | .dropping => .nothing

def Phase.allows : Phase → ConnState → Bool
  | .fresh, st => st = .connected
  | .receiving, st => st = .receiving
  | .success, st => st = .success
  | .idle, st | .writing, st => st = .idle
  | .error, st => st = .error
  | .keepalive, st => st = .keepalive
  | .closing, st | .passed, st => st = .closing
  | .dropping, st => st ≠ .success

def Phase.opened : Phase → ℕ
  | .success | .passed => 1
  | _ => 0

def Phase.extra : Phase → ℤ
  | .passed => 1
  | _ => 0

def Phase.asked : Phase → Bool
  | .idle | .closing | .dropping => true
  | _ => false

def Job.isOpen : Job → Bool
  | .queued | .loaded _ => true
  | _ => false

def Job.holds : Job → Bool
  | .handle _ _ | .decref => true
  | _ => false

structure Running (s : State) (p : Phase) : Prop where
  kind : s.slot.kind = p.kind
  state : p.allows s.state = true
  opened : s.jobs.countP Job.isOpen = p.opened
  ref : s.ref = s.slot.refs + p.extra + s.jobs.countP Job.holds
  pos : 0 < s.ref
  idle : s.idle = decide (p = .idle)
  alive : s.alive = decide (p = .keepalive)
  reading : s.reading = true → p = .receiving
  asked : p.asked = false → ∀ i, s.passive i ≠ 2
  asker : p = .idle → ∀ i, s.passive i = 2 → i = s.session
  loaded : ∀ i, .loaded i ∈ s.jobs → i = s.session
  notFree : .releaseConn ∉ s.jobs
  notReleased : s.released = 0

inductive Fits (s : State) : Prop
  | running (p : Phase) (r : Running s p)
  | freeing (slot : s.slot = .none) (jobs : s.jobs = [.releaseConn]) (idle : s.idle = false)
      (alive : s.alive = false) (reading : s.reading = false) (notReleased : s.released = 0)
      (ref : s.ref = 0)
  | freed (slot : s.slot = .none) (jobs : s.jobs = []) (idle : s.idle = false)
      (alive : s.alive = false) (reading : s.reading = false) (released : s.released = 1)
      (ref : s.ref = 0)

variable {s : State} {p : Phase}

theorem init_fits : Fits State.init := by
  refine .running .fresh ?_
  exact
    { kind := rfl
      state := rfl
      opened := rfl
      ref := rfl
      pos := Int.one_pos
      idle := rfl
      alive := rfl
      reading := by rintro ⟨⟩
      asked := by rintro - i ⟨⟩
      asker := by rintro ⟨⟩
      loaded := by rintro i ⟨⟩
      notFree := not_mem_nil
      notReleased := rfl }

theorem Fits.exists_running (fit : Fits s) (h : s.slot ≠ .none) : ∃ p, Running s p := by
  cases fit with
  | running p r => exact ⟨p, r⟩
  | freeing slot => exact absurd slot h
  | freed slot => exact absurd slot h

theorem Slot.refs_of_reading {slot : Slot} (h : slot.kind = .reading) : slot.refs = 1 := by
  cases slot with
  | registered | result => rfl
  | none | keepAlive => cases h

theorem Slot.kind_delete (slot : Slot) : slot.delete.kind = slot.kind := by
  cases slot with
  | registered op live => cases op <;> rfl
  | none | result | keepAlive => rfl

theorem Slot.refs_delete (slot : Slot) : slot.delete.refs = slot.refs := by
  cases slot <;> rfl

def readingPhase : ConnState → Phase
  | .connecting | .connected => .fresh
  | .receiving => .receiving
  | .success => .success
  | .idle => .idle
  | .keepalive => .keepalive
  | .closing => .closing
  | .error => .error

theorem Phase.eq_readingPhase {st : ConnState} :
    p.kind = .reading → p.allows st = true → p = readingPhase st := by
  cases p <;> cases st <;> decide

theorem Running.phase_eq (r : Running s p) (hk : s.slot.kind = .reading) :
    p = readingPhase s.state :=
  Phase.eq_readingPhase (r.kind.symm.trans hk) r.state

theorem Running.move (r : Running s p) {s' : State} {p' : Phase} (old new : List Job)
    (hjobs : Swaps old new s.jobs s'.jobs) (hkind : s'.slot.kind = p'.kind)
    (href : s'.ref + (s.slot.refs + p.extra) + old.countP Job.holds =
      s.ref + (s'.slot.refs + p'.extra) + new.countP Job.holds)
    (hpos : 0 < s'.ref) (hidle : s'.idle = decide (p' = .idle))
    (halive : s'.alive = decide (p' = .keepalive)) (hreading : s'.reading = true → p' = .receiving)
    (hasked : p'.asked = false → ∀ i, s'.passive i ≠ 2)
    (hasker : p' = .idle → ∀ i, s'.passive i = 2 → i = s'.session)
    (hstate : p'.allows s'.state = true)
    (hopened : p'.opened + old.countP Job.isOpen = p.opened + new.countP Job.isOpen)
    (hsession : s'.session = s.session ∨ p.opened = 0)
    (hnew : (∀ i, .loaded i ∈ new → i = s'.session) ∧ .releaseConn ∉ new ∧
      s'.released = s.released) : Running s' p' where
  kind := hkind
  state := hstate
  opened := by
    have hcount := hjobs.countP Job.isOpen
    have hold := r.opened
    omega
  ref := by
    have hcount := hjobs.countP Job.holds
    have hold := r.ref
    omega
  pos := hpos
  idle := hidle
  alive := halive
  reading := hreading
  asked := hasked
  asker := hasker
  loaded := by
    intro i hi
    rcases hjobs.mem hi with hi | hi
    · exact hnew.1 i hi
    · rcases hsession with h | h
      · exact (r.loaded i hi).trans h.symm
      · have hzero := countP_eq_zero.mp (r.opened.trans h) _ hi
        exact absurd rfl hzero
  notFree := fun h => (hjobs.mem h).elim hnew.2.1 r.notFree
  notReleased := hnew.2.2.trans r.notReleased

theorem Running.not_reading (r : Running s p) (hp : p ≠ .receiving) : s.reading = false :=
  Bool.eq_false_iff.mpr fun h => hp (r.reading h)

/-! ## Steps of the poller -/

section Poller

variable (fit : Fits s)

include fit

theorem Fits.createRequest (hk : s.slot.kind = .reading)
    (hst : s.state = .keepalive ∨ s.state = .connected) : Fits s.createRequest := by
  obtain ⟨p, r⟩ := fit.exists_running (by rintro h; rw [h] at hk; cases hk)
  have hp : p = .keepalive ∨ p = .fresh := by
    rw [r.phase_eq hk]
    rcases hst with h | h <;> simp [h, readingPhase]
  have hasked : p.asked = false := by rcases hp with rfl | rfl <;> rfl
  have hopened : p.opened = 0 := by rcases hp with rfl | rfl <;> rfl
  have hidle : s.idle = false := by
    rw [r.idle]
    rcases hp with rfl | rfl <;> rfl
  refine .running .receiving (r.move [] [] .rfl hk ?_ r.pos hidle rfl
    (fun _ => rfl) ?_ (by rintro ⟨⟩) rfl hopened.symm (.inr hopened) (by simp [State.createRequest]))
  · rcases hp with rfl | rfl <;> simp [State.createRequest, Phase.extra]
  · intro _ i
    change update s.passive s.sessions 1 i ≠ 2
    rw [update_apply]
    split_ifs
    · decide
    · exact r.asked hasked i

theorem Fits.message (hk : s.slot.kind = .reading) (hr : s.reading = true) :
    Fits { s with state := .success, reading := false, jobs := .queued :: s.jobs } := by
  obtain ⟨p, r⟩ := fit.exists_running (by rintro h; rw [h] at hk; cases hk)
  obtain rfl := r.reading hr
  exact .running .success (r.move [] [.queued] .rfl hk
    (by simp [Phase.extra, Job.holds]) r.pos r.idle r.alive (by rintro ⟨⟩) (fun _ => r.asked rfl)
    (by rintro ⟨⟩) rfl rfl (.inl rfl) (by simp))

theorem Fits.setSlot {slot : Slot} {reading : Bool} (hne : s.slot ≠ .none)
    (hkind : slot.kind = s.slot.kind) (hrefs : slot.refs = s.slot.refs)
    (hreading : reading = true → s.reading = true) :
    Fits { s with slot := slot, reading := reading } := by
  obtain ⟨p, r⟩ := fit.exists_running hne
  refine .running p (r.move [] [] .rfl (hkind.trans r.kind) ?_ r.pos r.idle
    r.alive (fun h => r.reading (hreading h)) r.asked r.asker r.state rfl (.inl rfl) (by simp))
  simp only [hrefs, countP_nil]

theorem Fits.unregister {op : Operation} (hs : s.slot = .registered op true) :
    Fits { s with slot := .registered op false } := by
  refine fit.setSlot (by simp [hs]) ?_ (by rw [hs]; rfl) id
  rw [hs]
  cases op <;> rfl

theorem Fits.terminate {op : Operation} {live : Bool} (hs : s.slot = .registered op live)
    (t : Terminal) : Fits { s with slot := .result op t, reading := false } := by
  refine fit.setSlot (by simp [hs]) ?_ (by rw [hs]; rfl) (by rintro ⟨⟩)
  rw [hs]
  cases op <;> rfl

end Poller

/-! ## Steps of a handler -/

section Handler

variable (fit : Fits s)

include fit

theorem Fits.handleIncomingRequest {t : Terminal} (hs : s.slot = .result .read t)
    (hr : s.reading = false) : Fits (s.handleIncomingRequest t) := by
  obtain ⟨p, r⟩ := fit.exists_running (by simp [hs])
  have hk : s.slot.kind = .reading := by
    rw [hs]
    rfl
  have hphase := r.phase_eq hk
  have hidle := r.idle
  have halive := r.alive
  have href := Slot.refs_of_reading hk
  -- what is left but for a complete request: one job with the reference
  have hdrop : ∀ j : Job, j.holds = true → p.opened = 0 → s.state ≠ .success →
      Fits { s with slot := .none, idle := false, alive := false, jobs := j :: s.jobs } := by
    intro j hj hopened hstate
    have hopen : j.isOpen = false := by cases j <;> first | rfl | cases hj
    have hextra : p.extra = 0 := by cases p <;> first | rfl | cases hopened
    have hne : (∀ i, .loaded i ∈ [j] → i = s.session) ∧ .releaseConn ∉ [j] := by
      cases j <;> simp [Job.holds] at hj ⊢
    refine .running .dropping (r.move [] [j] .rfl rfl ?_ r.pos rfl rfl (by simp [hr])
      (by rintro ⟨⟩) (by rintro ⟨⟩) (by simp [Phase.allows, hstate]) ?_ (.inl rfl)
      ⟨hne.1, hne.2, rfl⟩)
    · rw [href, hextra, countP_singleton, hj]
      simp [Slot.refs, Phase.extra]
    · rw [hopened, countP_singleton, hopen]
      rfl
  unfold State.handleIncomingRequest
  split
  · next hst =>
    obtain rfl : p = .keepalive := by rw [hphase, hst]; rfl
    rw [show s.idle = false from hidle]
    exact hdrop .decref rfl rfl (by simp [hst])
  · next hst =>
    obtain rfl : p = .idle := by rw [hphase, hst]; rfl
    rw [show s.alive = false from halive]
    exact hdrop .decref rfl rfl (by simp [hst])
  · next hst =>
    obtain rfl : p = .error := by rw [hphase, hst]; rfl
    rw [show s.idle = false from hidle, show s.alive = false from halive]
    exact hdrop _ rfl rfl (by simp [hst])
  · next hst =>
    obtain rfl : p = .receiving := by rw [hphase, hst]; rfl
    rw [show s.idle = false from hidle, show s.alive = false from halive]
    exact hdrop _ rfl rfl (by simp [hst])
  · next hst =>
    obtain rfl : p = .success := by rw [hphase, hst]; rfl
    refine .running .passed (r.move [] [] .rfl rfl ?_ r.pos hidle halive
      (by simp [hr]) (fun _ => r.asked rfl) (by rintro ⟨⟩) rfl rfl (.inl rfl) (by simp))
    rw [href]
    simp [Slot.refs, Phase.extra]
  · next h₁ h₂ h₃ h₄ h₅ =>
    have hopened : p.opened = 0 ∧ s.idle = false ∧ s.alive = false := by
      rw [hidle, halive, hphase]
      cases hst : s.state <;> simp_all [readingPhase, Phase.opened]
    rw [hopened.2.1, hopened.2.2]
    exact hdrop .decref rfl hopened.1 h₅

omit fit in
theorem Running.eq_writing (r : Running s p) (hk : s.slot.kind = .writing) : p = .writing := by
  have hkind := r.kind.symm.trans hk
  cases p <;> first | rfl | cases hkind

theorem Fits.handleReplyResult {t : Terminal} (hs : s.slot = .result .write t) (k : Bool) :
    Fits (s.handleReplyResult t k) := by
  obtain ⟨p, r⟩ := fit.exists_running (by simp [hs])
  obtain rfl : p = .writing := r.eq_writing (by rw [hs]; rfl)
  have hstate : s.state = .idle := by simpa [Phase.allows] using r.state
  have hpos := r.pos
  have hgive : ∀ cs, Fits { s with slot := .none, jobs := .handle s.session cs :: s.jobs } := by
    intro cs
    refine .running .dropping (r.move [] [.handle s.session cs] .rfl rfl ?_ hpos
      r.idle r.alive (fun h => absurd (r.reading h) (by decide)) (by rintro ⟨⟩) (by rintro ⟨⟩)
      (by simp [Phase.allows, hstate]) rfl (.inl rfl) (by simp))
    rw [hs]
    simp [Slot.refs, Phase.extra, Job.holds]
  have hkeep : Fits { s with ref := s.ref + 1, slot := .keepAlive s.session } := by
    refine .running .writing (r.move [] [] .rfl rfl ?_ ?_ r.idle r.alive r.reading
      r.asked (by rintro ⟨⟩) r.state rfl (.inl rfl) (by simp))
    · rw [hs]
      simp only [Slot.refs, Phase.extra, countP_nil]
      omega
    · simp only
      omega
  cases t with
  | finished =>
    cases k with
    | true => exact hkeep
    | false => exact hgive _
  | error | deleted | stopped => exact hgive _

end Handler

theorem Running.rest (r : Running s p) (s' : State) (new : List Job)
    (hk : s'.slot.kind = .reading) (hopened : 0 = p.opened + new.countP Job.isOpen)
    (href : s'.ref + (s.slot.refs + p.extra) = s.ref + s'.slot.refs + new.countP Job.holds)
    (hpos : 0 < s'.ref) (hidle : s'.idle = false) (halive : s'.alive = false)
    (hreading : s'.reading = false) (hasked : ∀ i, s'.passive i ≠ 2) (k : Bool)
    (hjobs : s'.jobs = new ++ s.jobs) (hsession : s'.session = s.session)
    (hnew : (∀ i, .loaded i ∈ new → i = s'.session) ∧ .releaseConn ∉ new ∧
      s'.released = s.released) : Fits (s'.rest k) := by
  have hjobs' : Swaps [] new s.jobs s'.jobs := hjobs ▸ .rfl
  have hread : ∀ q : Phase, s'.reading = true → q = .receiving := by simp [hreading]
  unfold State.rest
  split_ifs with hkeep
  · exact .running .keepalive (r.move [] new hjobs' hk (by simpa [Phase.extra] using href) hpos hidle
      rfl (hread _) (fun _ => hasked) (by rintro ⟨⟩) rfl hopened (.inl hsession) hnew)
  · refine .running .closing (r.move [] new hjobs' ?_ ?_ hpos hidle halive (hread _) (by rintro ⟨⟩)
      (by rintro ⟨⟩) rfl hopened (.inl hsession) hnew)
    · exact (Slot.kind_delete _).trans hk
    · simp only [Slot.refs_delete]
      simpa [Phase.extra] using href

section Handler

variable (fit : Fits s)

include fit

theorem Fits.keepAliveSection {i : SessionId} (hs : s.slot = .keepAlive i) (ok stop : Bool) :
    Fits (s.keepAliveSection i ok stop) := by
  obtain ⟨p, r⟩ := fit.exists_running (by simp [hs])
  obtain rfl : p = .writing := r.eq_writing (by rw [hs]; rfl)
  have hstate : s.state = .idle := by simpa [Phase.allows] using r.state
  have hreading := r.not_reading (by decide)
  have href := r.ref
  rw [hs] at href
  change s.ref = 2 + 0 + _ at href
  unfold State.keepAliveSection
  cases ok with
  | true =>
    refine r.rest { s with jobs := .handle i .success :: s.jobs, slot := .registered .read true }
      [.handle i .success] rfl rfl ?_ r.pos r.idle r.alive hreading (r.asked rfl) _ rfl rfl
      (by simp)
    rw [hs]
    simp [Slot.refs, Phase.extra, Job.holds]
    omega
  | false =>
    refine .running .dropping (r.move [] [.handle i .success] .rfl rfl ?_ ?_ r.idle
      r.alive (by simp [hreading]) (by rintro ⟨⟩) (by rintro ⟨⟩) (by simp [Phase.allows, hstate]) rfl
      (.inl rfl) (by simp))
    · rw [hs]
      simp [Slot.refs, Phase.extra, Job.holds]
      omega
    · simp only [Bool.false_eq_true, if_false]
      omega

end Handler

/-! ## Steps of the jobs -/

theorem jobs_nil {l : List Job} (hopen : l.countP Job.isOpen = 0) (hholds : l.countP Job.holds = 0)
    (hfree : .releaseConn ∉ l) : l = [] := by
  rw [countP_eq_zero] at hopen hholds
  rw [eq_nil_iff_forall_not_mem]
  intro j hj
  have h₁ := hopen j hj
  have h₂ := hholds j hj
  cases j with
  | queued | loaded => exact absurd rfl h₁
  | handle | decref => exact absurd rfl h₂
  | releaseConn => exact hfree hj

theorem Fits.exists_running_of_job (fit : Fits s) {x : Job} (hx : x ∈ s.jobs)
    (hne : x ≠ .releaseConn) : ∃ p, Running s p := by
  cases fit with
  | running p r => exact ⟨p, r⟩
  | freeing slot jobs =>
    rw [jobs] at hx
    exact absurd (mem_singleton.mp hx) hne
  | freed slot jobs =>
    rw [jobs] at hx
    cases hx

theorem Running.of_open (r : Running s p) {x : Job} (hx : x ∈ s.jobs) (hopen : x.isOpen = true) :
    p = .success ∨ p = .passed := by
  have hpos : 0 < s.jobs.countP Job.isOpen := countP_pos_iff.mpr ⟨x, hx, hopen⟩
  rw [r.opened] at hpos
  cases p <;> first | exact .inl rfl | exact .inr rfl | cases hpos

theorem Fits.jobQueued (fit : Fits s) (hx : .queued ∈ s.jobs) : Fits (s.job .queued) := by
  obtain ⟨p, r⟩ := fit.exists_running_of_job hx (by simp)
  exact .running p (r.move _ _ (swaps_replace hx [.loaded s.session]) r.kind rfl r.pos r.idle r.alive
    r.reading r.asked r.asker r.state rfl (.inl rfl) (by simp [State.job]))

theorem Fits.jobHandle (fit : Fits s) {i : SessionId} {cs : CsState} (hx : .handle i cs ∈ s.jobs) :
    Fits (s.job (.handle i cs)) := by
  obtain ⟨p, r⟩ := fit.exists_running_of_job hx (by simp)
  exact .running p (r.move _ _ (swaps_replace hx [.decref]) r.kind rfl r.pos r.idle r.alive r.reading
    r.asked r.asker r.state rfl (.inl rfl) (by simp [State.job]))

theorem Fits.jobLoaded (fit : Fits s) {i : SessionId} (hx : .loaded i ∈ s.jobs) :
    Fits (s.job (.loaded i)) := by
  obtain ⟨p, r⟩ := fit.exists_running_of_job hx (by simp)
  have hi := r.loaded i hx
  have hpos := r.pos
  have hreading : ∀ q : Phase, s.reading = true → q = .receiving := by
    intro q h
    have hp := r.reading h
    rcases r.of_open hx rfl with rfl | rfl <;> cases hp
  have hasker : ∀ j, update s.passive i 2 j = 2 → (∀ j, s.passive j ≠ 2) → j = s.session := by
    intro j hj hnone
    rw [update_apply] at hj
    split_ifs at hj with h
    · rw [h, hi]
    · exact absurd hj (hnone j)
  rcases r.of_open hx rfl with rfl | rfl
  · have hstate : s.state = .success := by simpa [Phase.allows] using r.state
    simp only [State.job, hstate, if_true]
    exact .running .idle (r.move _ _ (swaps_replace hx [.handle i .toreply]) r.kind
      (by simp [Phase.extra, Job.holds]; omega) (by simp only; omega) rfl r.alive (hreading _)
      (by rintro ⟨⟩) (fun _ j hj => hasker j hj (r.asked rfl)) rfl rfl (.inl rfl) (by simp))
  · have hstate : s.state = .closing := by simpa [Phase.allows] using r.state
    simp only [State.job, hstate, reduceCtorEq, if_false]
    exact .running .dropping (r.move _ _ (swaps_replace hx [.handle i .toreply]) r.kind
      (by simp [Phase.extra, Job.holds]; omega) hpos r.idle r.alive (hreading _) (by rintro ⟨⟩)
      (by rintro ⟨⟩) rfl rfl (.inl rfl) (by simp))

theorem Slot.refs_nonneg (slot : Slot) : 0 ≤ slot.refs := by
  cases slot <;> simp [Slot.refs]

theorem Slot.eq_none_of_refs {slot : Slot} (h : slot.refs = 0) : slot = .none := by
  cases slot <;> first | rfl | cases h

theorem Fits.jobDecref (fit : Fits s) (hx : .decref ∈ s.jobs) : Fits (s.job .decref) := by
  obtain ⟨p, r⟩ := fit.exists_running_of_job hx (by simp)
  have hcount := countP_replace Job.holds hx []
  have hopened := countP_replace Job.isOpen hx []
  change (replace .decref [] s.jobs).countP Job.holds + 1 = _ + 0 at hcount
  change (replace .decref [] s.jobs).countP Job.isOpen + 0 = _ + 0 at hopened
  have href := r.ref
  have hpos := r.pos
  have hslot := s.slot.refs_nonneg
  simp only [State.job]
  split_ifs with h0
  · -- the last reference: no registration is left, and no other job
    have hextra : 0 ≤ p.extra := by cases p <;> decide
    have hs : s.slot = .none := Slot.eq_none_of_refs (by omega)
    obtain rfl : p = .dropping := by
      have hkind := r.kind
      rw [hs] at hkind
      cases p with
      | fresh | receiving | success | idle | writing | error | keepalive | closing => cases hkind
      | passed =>
        change s.ref = _ + 1 + _ at href
        omega
      | dropping => rfl
    have hnil : s.jobs.erase .decref = [] := by
      refine jobs_nil ?_ ?_ (fun h => r.notFree (mem_of_mem_erase h))
      · have ho := r.opened
        change (s.jobs.erase .decref).countP Job.isOpen + 0 = _ at hopened
        rw [ho] at hopened
        exact hopened
      · change (s.jobs.erase .decref).countP Job.holds + 1 = _ at hcount
        omega
    refine .freeing hs ?_ r.idle r.alive (r.not_reading (by decide)) r.notReleased h0
    simp only [Bags.replace, hnil]
    rfl
  · exact .running p (r.move _ _ (swaps_replace hx []) r.kind (by simp [Job.holds]; omega)
      (by simp only; omega) r.idle r.alive r.reading r.asked r.asker r.state rfl (.inl rfl) (by simp))

theorem Fits.jobReleaseConn (fit : Fits s) (hx : .releaseConn ∈ s.jobs) :
    Fits (s.job .releaseConn) := by
  cases fit with
  | running p r => exact absurd hx r.notFree
  | freeing slot jobs idle alive reading notReleased ref =>
    refine .freed slot ?_ idle alive reading (by simp [State.job, notReleased]) ref
    simp [State.job, jobs, Bags.replace]
  | freed slot jobs =>
    rw [jobs] at hx
    cases hx

theorem Fits.job (fit : Fits s) {x : Job} (hx : x ∈ s.jobs) : Fits (s.job x) := by
  cases x with
  | queued => exact fit.jobQueued hx
  | loaded i => exact fit.jobLoaded hx
  | handle i cs => exact fit.jobHandle hx
  | decref => exact fit.jobDecref hx
  | releaseConn => exact fit.jobReleaseConn hx

/-! ## Replies and the ends of a connection -/

theorem Fits.other (fit : Fits s) (listening : Bool) (accepted : List SessionId)
    {passive : SessionId → ℕ} (hpassive : ∀ i, passive i = 2 → s.passive i = 2) :
    Fits { s with listening := listening, accepted := accepted, passive := passive } := by
  cases fit with
  | running p r =>
    exact .running p { r with
      asked := fun h j hj => r.asked h j (hpassive j hj)
      asker := fun h j hj => r.asker h j (hpassive j hj) }
  | freeing slot jobs idle alive reading notReleased ref =>
    exact .freeing slot jobs idle alive reading notReleased ref
  | freed slot jobs idle alive reading released ref =>
    exact .freed slot jobs idle alive reading released ref

theorem Fits.accept (fit : Fits s) (i : SessionId) : Fits (s.accept i) :=
  fit.other s.listening (i :: s.accepted) fun _ h => h

theorem Fits.unbind (fit : Fits s) : Fits { s with listening := false } :=
  fit.other false s.accepted fun _ h => h

theorem update_three {passive : SessionId → ℕ} {i j : SessionId}
    (h : update passive i 3 j = 2) : passive j = 2 ∧ j ≠ i := by
  rw [update_apply] at h
  split_ifs at h with hj
  · cases h
  · exact ⟨h, hj⟩

theorem Fits.spend (fit : Fits s) (i : SessionId) :
    Fits { s with passive := update s.passive i 3 } :=
  fit.other s.listening s.accepted fun _ h => (update_three h).1

theorem Fits.of_idle (fit : Fits s) (h : s.idle = true) :
    Running s .idle ∧ s.state = .idle ∧ s.slot.kind = .reading ∧ s.alive = false ∧
      s.reading = false := by
  cases fit with
  | running p r =>
    have hi := r.idle
    rw [h] at hi
    obtain rfl : p = .idle := by simpa using hi.symm
    exact ⟨r, by simpa [Phase.allows] using r.state, r.kind, r.alive, r.not_reading (by decide)⟩
  | freeing slot jobs idle | freed slot jobs idle =>
    rw [h] at idle
    cases idle

theorem Fits.of_alive (fit : Fits s) (h : s.alive = true) :
    Running s .keepalive ∧ s.state = .keepalive ∧ s.reading = false := by
  cases fit with
  | running p r =>
    have ha := r.alive
    rw [h] at ha
    obtain rfl : p = .keepalive := by simpa using ha.symm
    exact ⟨r, by simpa [Phase.allows] using r.state, r.not_reading (by decide)⟩
  | freeing slot jobs idle alive | freed slot jobs idle alive =>
    rw [h] at alive
    cases alive

theorem Running.leaveIdle (r : Running s .idle) {s' : State} {p' : Phase}
    (hslot : s'.slot.refs = 1) (hkind : s'.slot.kind = p'.kind)
    (halive : s'.alive = decide (p' = .keepalive)) (hreading : s'.reading = false)
    (hasked : p'.asked = true ∨ ∀ i, s'.passive i ≠ 2) (hstate : p'.allows s'.state = true)
    (hp : p' ≠ .idle ∧ p'.opened = 0 ∧ p'.extra = 0) (hidle : s'.idle = false)
    (hsame : s'.jobs = s.jobs ∧ s'.ref = s.ref ∧ s'.session = s.session ∧
      s'.released = s.released) : Running s' p' := by
  obtain ⟨hjobs, href, hsession, hreleased⟩ := hsame
  refine r.move [] [] (hjobs ▸ .rfl) hkind ?_ ?_ (by simp [hidle, hp.1]) halive (by simp [hreading])
    ?_ (fun h => absurd h hp.1) hstate hp.2.1 (.inl hsession) ⟨by simp, by simp, hreleased⟩
  · rw [href, hslot, hp.2.2, Slot.refs_of_reading r.kind]
    simp [Phase.extra]
  · rw [href]
    exact r.pos
  · intro h
    rcases hasked with ha | ha
    · rw [h] at ha
      cases ha
    · exact ha

theorem rest_addJob (k : Bool) (j : Job) (s : State) :
    { s.rest k with jobs := j :: (s.rest k).jobs } = State.rest k { s with jobs := j :: s.jobs } := by
  unfold State.rest
  split_ifs <;> rfl

theorem sendMessage_partly (hstate : s.state = .idle) (ok k : Bool) :
    s.sendMessage (.partly ok) k = (.failed, s) ∨
      s.sendMessage (.partly ok) k = (.pending, { s with slot := .registered .write true }) ∨
      s.sendMessage (.partly ok) k = (.pending, { s with state := .receiving }) := by
  unfold State.sendMessage
  simp only [hstate, if_true]
  split
  · cases ok
    · exact .inl rfl
    · exact .inr (.inl rfl)
  · exact .inr (.inr rfl)

theorem Fits.replyReliable (fit : Fits s) {i : SessionId} (hi : s.passive i = 2) (w : Writing)
    (k : Bool) :
    Fits (State.replyReliable i w k { s with passive := update s.passive i 3 }) := by
  unfold State.replyReliable
  split_ifs with hidle
  · obtain ⟨r, hstate, hkind, halive, hreading⟩ := fit.of_idle hidle
    have hrefs := Slot.refs_of_reading hkind
    have hquiet : ∀ j, update s.passive i 3 j ≠ 2 := by
      intro j hj
      obtain ⟨hj2, hne⟩ := update_three hj
      exact hne ((r.asker rfl j hj2).trans (r.asker rfl i hi).symm)
    have herror : Fits { s with
        passive := update s.passive i 3, idle := false, slot := s.slot.delete
        state := .error } :=
      .running .error (r.leaveIdle ((Slot.refs_delete _).trans hrefs)
        ((Slot.kind_delete _).trans hkind) halive hreading (.inr hquiet) rfl (by decide) rfl
        ⟨rfl, rfl, rfl, rfl⟩)
    have hreceiving : Fits { s with
        passive := update s.passive i 3, idle := false, state := .receiving } :=
      .running .receiving (r.leaveIdle hrefs hkind halive hreading (.inr hquiet) rfl (by decide) rfl
        ⟨rfl, rfl, rfl, rfl⟩)
    have hwriting : Fits { s with
        passive := update s.passive i 3, idle := false
        slot := .registered .write true } :=
      .running .writing (r.leaveIdle rfl rfl halive hreading (.inr hquiet) r.state (by decide) rfl
        ⟨rfl, rfl, rfl, rfl⟩)
    cases w with
    | failed => exact herror.accept i
    | complete =>
      simp only [State.sendMessage, rest_addJob]
      have hpos := r.pos
      refine Fits.accept (r.rest { s with
        passive := update s.passive i 3, idle := false, ref := s.ref + 1
        jobs := .handle i .success :: s.jobs } [.handle i .success] hkind rfl ?_ ?_ rfl halive
        hreading hquiet k rfl rfl (by simp)) i
      · simp [Phase.extra, Job.holds]
        omega
      · simp only
        omega
    | partly ok =>
      have hst : State.state { s with
          passive := update s.passive i 3, idle := false } = .idle := hstate
      rcases sendMessage_partly hst ok k with h | h | h
      all_goals rw [h]
      · exact herror.accept i
      · exact hwriting.accept i
      · exact hreceiving.accept i
  · exact fit.spend i

theorem Fits.shutdown (fit : Fits s) : Fits s.shutdown := by
  unfold State.shutdown
  split_ifs with hidle
  · obtain ⟨r, hstate, hkind, halive, hreading⟩ := fit.of_idle hidle
    exact .running .closing (r.leaveIdle
      ((Slot.refs_delete _).trans (Slot.refs_of_reading hkind)) ((Slot.kind_delete _).trans hkind)
      halive hreading (.inl rfl) rfl (by decide) rfl ⟨rfl, rfl, rfl, rfl⟩)
  · exact fit

theorem Fits.drain (fit : Fits s) : Fits s.drain := by
  unfold State.drain
  split_ifs with ha
  · obtain ⟨r, -, hreading⟩ := fit.of_alive ha
    exact .running .closing (r.move [] [] .rfl ((Slot.kind_delete _).trans r.kind)
      (by simp [Slot.refs_delete, Phase.extra]) r.pos r.idle rfl (by simp [hreading])
      (by rintro ⟨⟩) (by rintro ⟨⟩) rfl rfl (.inl rfl) (by simp))
  · exact fit

end MyWorkflow.Comm.Server
