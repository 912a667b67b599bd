import MyWorkflow.CommServerConn

set_option autoImplicit false

namespace MyWorkflow.Comm.Server
open Function Bags Runs
open List hiding replace

def Slot.due (state : ConnState) (session : SessionId) : Slot → List SessionId
  | .none => []
  | .registered .write _ | .result .write _ => [session]
  | .registered _ _ | .result _ _ =>
    if state = .receiving ∨ state = .error then [session] else []
  | .keepAlive i => [i]

def Job.due (session : SessionId) : Job → List SessionId
  | .queued => [session]
  | .loaded i | .handle i _ => [i]
  | .decref | .releaseConn => []

def State.due (s : State) (i : SessionId) : ℕ :=
  (s.slot.due s.state s.session).count i + (holdings (Job.due s.session) s.jobs).count i

def State.told (s : State) (i : SessionId) : List CsState :=
  (s.handled.filter (fun h => h.1 = i)).map Prod.snd

def Job.asks (session : SessionId) : Job → List SessionId
  | .queued => [session]
  | .loaded i | .handle i .toreply => [i]
  | _ => []

def Slot.answers (session : SessionId) : Slot → List SessionId
  | .registered .write _ | .result .write _ => [session]
  | .keepAlive i => [i]
  | _ => []

def Job.answers : Job → List SessionId
  | .handle i .success => [i]
  | _ => []

def State.asks (s : State) : List SessionId := holdings (Job.asks s.session) s.jobs

def State.answers (s : State) : List SessionId :=
  s.slot.answers s.session ++ holdings Job.answers s.jobs

inductive Protocol : ℕ → ℕ → List CsState → Prop
  | created : Protocol 0 1 []
  | ended (c : CsState) (h : c ≠ .success) : Protocol 0 0 [c]
  | replied : Protocol 1 1 [.toreply]
  | finished (c : CsState) (h : c ≠ .toreply) : Protocol 1 0 [.toreply, c]

structure Inv (s : State) : Prop where
  fits : Fits s
  protocol : ∀ i < s.sessions, Protocol (s.accepted.count i) (s.due i) (s.told i)
  unborn : ∀ i, s.sessions ≤ i → s.accepted.count i = 0 ∧ s.due i = 0 ∧ s.told i = []
  asks : ∀ i ∈ s.asks, s.accepted.count i = 0
  answers : ∀ i ∈ s.answers, s.accepted.count i = 1
  passive : ∀ i, s.passive i = 2 → s.accepted.count i = 0
  reading : s.reading = true → (∃ live, s.slot = .registered .read live) ∧
    s.accepted.count s.session = 0

variable {s s' : State} {i : SessionId}

theorem init_inv : Inv State.init where
  fits := init_fits
  protocol := by
    intro i hi
    cases hi
  unborn := fun _ _ => ⟨rfl, rfl, rfl⟩
  asks := by
    intro i hi
    cases hi
  answers := by
    intro i hi
    cases hi
  passive := fun _ _ => rfl
  reading := by rintro ⟨⟩

theorem Inv.quiet (inv : Inv s) (fits : Fits s') (hdue : ∀ i, s'.due i = s.due i)
    (hasks : ∀ i ∈ s'.asks, s.accepted.count i = 0)
    (hanswers : ∀ i ∈ s'.answers, s.accepted.count i = 1)
    (hpassive : ∀ i, s'.passive i = 2 → s.accepted.count i = 0)
    (hreading : s'.reading = true → (∃ live, s'.slot = .registered .read live) ∧
      s.accepted.count s'.session = 0)
    (hsame : s'.sessions = s.sessions ∧ s'.accepted = s.accepted ∧ s'.handled = s.handled) :
    Inv s' := by
  obtain ⟨hsessions, haccepted, hhandled⟩ := hsame
  rw [← haccepted] at hasks hanswers hpassive hreading
  refine ⟨fits, ?_, ?_, hasks, hanswers, hpassive, hreading⟩
  all_goals
    intro i hi
    rw [haccepted, hdue, State.told, hhandled]
  · exact inv.protocol i (hsessions ▸ hi)
  · exact inv.unborn i (hsessions ▸ hi)

theorem Slot.due_reading {slot : Slot} (h : slot.kind = .reading) (state : ConnState)
    (session : SessionId) :
    slot.due state session = if state = .receiving ∨ state = .error then [session] else [] := by
  cases slot with
  | registered op live => cases op <;> first | rfl | cases h
  | result op t => cases op <;> first | rfl | cases h
  | none | keepAlive => cases h

theorem Slot.answers_reading {slot : Slot} (h : slot.kind = .reading) (session : SessionId) :
    slot.answers session = [] := by
  cases slot with
  | registered op live => cases op <;> first | rfl | cases h
  | result op t => cases op <;> first | rfl | cases h
  | none | keepAlive => cases h

theorem csState_ne (t : Terminal) : t.csState ≠ .toreply ∧ t.csState ≠ .success := by
  cases t <;> decide

theorem asks_of_failure {cs : CsState} (h : cs ≠ .toreply) (session : SessionId) :
    (Job.handle i cs).asks session = [] := by
  cases cs <;> first | rfl | exact absurd rfl h

theorem answers_of_failure {cs : CsState} (h : cs ≠ .success) : (Job.handle i cs).answers = [] := by
  cases cs <;> first | rfl | exact absurd rfl h

section Poller

variable (inv : Inv s)

include inv

theorem Inv.unregister {op : Operation} (hs : s.slot = .registered op true) :
    Inv { s with slot := .registered op false } := by
  refine inv.quiet (inv.fits.unregister hs) ?_ inv.asks ?_ inv.passive ?_ ⟨rfl, rfl, rfl⟩
  · intro i
    cases op <;> simp [State.due, hs, Slot.due]
  · intro i hi
    refine inv.answers i ?_
    rw [State.answers, hs]
    cases op <;> exact hi
  · intro hr
    obtain ⟨⟨live, hl⟩, ha⟩ := inv.reading hr
    rw [hs] at hl
    cases hl
    exact ⟨⟨false, rfl⟩, ha⟩

theorem Inv.terminate {op : Operation} {live : Bool} (hs : s.slot = .registered op live)
    (t : Terminal) : Inv { s with slot := .result op t, reading := false } := by
  refine inv.quiet (inv.fits.terminate hs t) ?_ inv.asks ?_ inv.passive (by rintro ⟨⟩)
    ⟨rfl, rfl, rfl⟩
  · intro i
    cases op <;> simp [State.due, hs, Slot.due]
  · intro i hi
    refine inv.answers i ?_
    rw [State.answers, hs]
    cases op <;> exact hi

theorem Inv.message (hr : s.reading = true) :
    Inv { s with state := .success, reading := false, jobs := .queued :: s.jobs } := by
  obtain ⟨⟨live, hs⟩, ha⟩ := inv.reading hr
  have hk : s.slot.kind = .reading := by
    rw [hs]
    rfl
  have hst : s.state = .receiving := by
    obtain ⟨p, r⟩ := inv.fits.exists_running (by simp [hs])
    obtain rfl := r.reading hr
    simpa [Phase.allows] using r.state
  refine inv.quiet (inv.fits.message hk hr) ?_ ?_ inv.answers inv.passive (by rintro ⟨⟩)
    ⟨rfl, rfl, rfl⟩
  · intro i
    simp only [State.due, count_holdings_cons, Slot.due_reading hk, hst, Job.due]
    simp
  · intro i hi
    rcases mem_holdings_cons.mp hi with hi | hi
    · rw [mem_singleton.mp hi]
      exact ha
    · exact inv.asks i hi

theorem Inv.createRequest {live : Bool} (hs : s.slot = .registered .read live)
    (hst : s.state = .keepalive ∨ s.state = .connected) : Inv s.createRequest := by
  have hk : s.slot.kind = .reading := by
    rw [hs]
    rfl
  obtain ⟨p, r⟩ := inv.fits.exists_running (by simp [hs])
  have hopened : p.opened = 0 := by
    rw [r.phase_eq hk]
    rcases hst with h | h <;> rw [h] <;> rfl
  have hzero := countP_eq_zero.mp (r.opened.trans hopened)
  -- no job looks at the session of the connection
  have hjobs : ∀ a b, holdings (Job.due a) s.jobs = holdings (Job.due b) s.jobs := by
    intro a b
    refine flatMap_congr ?_
    intro j hj
    cases j with
    | queued => exact absurd rfl (hzero _ hj)
    | loaded | handle | decref | releaseConn => rfl
  have hasks : ∀ a b, holdings (Job.asks a) s.jobs = holdings (Job.asks b) s.jobs := by
    intro a b
    refine flatMap_congr ?_
    intro j hj
    cases j with
    | queued => exact absurd rfl (hzero _ hj)
    | handle i cs => cases cs <;> rfl
    | loaded | decref | releaseConn => rfl
  obtain ⟨ha, hd, ht⟩ := inv.unborn s.sessions le_rfl
  have hdue : ∀ i, s.createRequest.due i = [s.sessions].count i + s.due i := by
    intro i
    have hold : s.slot.due s.state s.session = [] := by
      rw [Slot.due_reading hk]
      rcases hst with h | h <;> simp [h]
    simp only [State.due, hold, State.createRequest, Slot.due_reading hk, true_or, if_true,
      count_nil]
    rw [hjobs s.sessions s.session]
    omega
  exact
    { fits := inv.fits.createRequest hk hst
      protocol := by
        intro i hi
        rw [hdue]
        rcases Nat.lt_succ_iff_lt_or_eq.mp hi with hi | rfl
        · have hne : s.sessions ≠ i := (Nat.ne_of_lt hi).symm
          rw [count_singleton, beq_false_of_ne hne, if_neg Bool.false_ne_true, Nat.zero_add]
          exact inv.protocol i hi
        · change Protocol (s.accepted.count s.sessions) _ (s.told s.sessions)
          rw [ha, hd, ht]
          simpa using Protocol.created
      unborn := by
        intro i hi
        have hi' : s.sessions < i := hi
        have hne : s.sessions ≠ i := Nat.ne_of_lt hi'
        obtain ⟨h₁, h₂, h₃⟩ := inv.unborn i hi'.le
        refine ⟨h₁, ?_, h₃⟩
        rw [hdue, h₂, count_singleton, beq_false_of_ne hne]
        rfl
      asks := by
        intro i hi
        refine inv.asks i ?_
        rw [State.asks, hasks s.session s.sessions]
        exact hi
      answers := by
        intro i hi
        refine inv.answers i ?_
        rw [State.answers, Slot.answers_reading hk]
        rw [State.answers] at hi
        change i ∈ s.slot.answers s.sessions ++ _ at hi
        rwa [Slot.answers_reading hk] at hi
      passive := by
        intro i hi
        refine inv.passive i ?_
        change update s.passive s.sessions 1 i = 2 at hi
        rw [update_apply] at hi
        split_ifs at hi
        · cases hi
        · exact hi
      reading := fun _ => ⟨⟨live, hs⟩, ha⟩ }

end Poller

section Handler

variable (inv : Inv s)

include inv

theorem Inv.not_reading {slot : Slot} (hs : s.slot = slot)
    (hne : ∀ live, slot ≠ .registered .read live) : s.reading = false := by
  cases h : s.reading with
  | false => rfl
  | true =>
    obtain ⟨⟨live, hl⟩, -⟩ := inv.reading h
    exact absurd (hs.symm.trans hl) (hne live)

theorem Inv.giveJob (fits : Fits s') {j : Job} (hjobs : s'.jobs = j :: s.jobs)
    (hreading : s'.reading = false) (hdue : j.due s.session = s.slot.due s.state s.session)
    (hanswers : ∀ i ∈ j.answers, s.accepted.count i = 1) (hasks : j.asks s.session = [])
    (hslot : s'.slot.due s'.state s.session = [] ∧ s'.slot.answers s.session = [])
    (hsame : s'.session = s.session ∧ s'.passive = s.passive ∧ s'.sessions = s.sessions ∧
      s'.accepted = s.accepted ∧ s'.handled = s.handled) : Inv s' := by
  obtain ⟨hsession, hpassive, hsame⟩ := hsame
  refine inv.quiet fits ?_ ?_ ?_ (hpassive ▸ inv.passive) (by simp [hreading]) hsame
  · intro i
    rw [State.due, State.due, hjobs, hsession, hslot.1, count_holdings_cons, hdue, count_nil,
      Nat.zero_add]
  · intro i hi
    rw [State.asks, hjobs, hsession] at hi
    rcases mem_holdings_cons.mp hi with hi | hi
    · rw [hasks] at hi
      cases hi
    · exact inv.asks i hi
  · intro i hi
    rw [State.answers, hjobs, hsession, hslot.2] at hi
    rcases mem_holdings_cons.mp hi with hi | hi
    · exact hanswers i hi
    · exact inv.answers i (mem_append_right _ hi)

theorem Inv.handleIncomingRequest {t : Terminal} (hs : s.slot = .result .read t) :
    Inv (s.handleIncomingRequest t) := by
  have hr : s.reading = false := inv.not_reading hs (by simp)
  have hfits := inv.fits.handleIncomingRequest hs hr
  have hk : s.slot.kind = .reading := by
    rw [hs]
    rfl
  revert hfits
  unfold State.handleIncomingRequest
  split
  -- no session waits for anything in these three states
  case h_1 hst | h_2 hst | h_3 hst =>
    intro hfits
    exact inv.giveJob hfits rfl hr (by rw [Slot.due_reading hk, hst]; rfl) (by rintro i ⟨⟩) rfl
      ⟨rfl, rfl⟩ ⟨rfl, rfl, rfl, rfl, rfl⟩
  · next hst =>
    intro hfits
    refine inv.giveJob hfits rfl hr (by rw [Slot.due_reading hk, hst]; rfl) ?_
      (asks_of_failure (csState_ne t).1 _) ⟨rfl, rfl⟩ ⟨rfl, rfl, rfl, rfl, rfl⟩
    rw [answers_of_failure (csState_ne t).2]
    rintro i ⟨⟩
  · next hst =>
    intro hfits
    refine inv.quiet hfits ?_ inv.asks ?_ inv.passive (by simp [hr]) ⟨rfl, rfl, rfl⟩
    · intro i
      simp only [State.due, Slot.due_reading hk, hst]
      rfl
    · intro i hi
      exact inv.answers i (mem_append_right _ hi)
  · next h₁ h₂ h₃ h₄ h₅ =>
    intro hfits
    exact inv.giveJob hfits rfl hr (by rw [Slot.due_reading hk, if_neg (by tauto)]; rfl)
      (by rintro i ⟨⟩) rfl ⟨rfl, rfl⟩ ⟨rfl, rfl, rfl, rfl, rfl⟩

theorem Inv.handleReplyResult {t : Terminal} (hs : s.slot = .result .write t) (k : Bool) :
    Inv (s.handleReplyResult t k) := by
  have hr : s.reading = false := inv.not_reading hs (by simp)
  have hfits := inv.fits.handleReplyResult hs k
  have hanswered : s.accepted.count s.session = 1 := by
    refine inv.answers _ ?_
    rw [State.answers, hs]
    exact mem_cons_self
  have hgive : ∀ cs, cs ≠ .toreply →
      Fits { s with slot := .none, jobs := .handle s.session cs :: s.jobs } →
      Inv { s with slot := .none, jobs := .handle s.session cs :: s.jobs } := by
    intro cs hcs hf
    refine inv.giveJob hf rfl hr (by rw [hs]; rfl) ?_ (asks_of_failure hcs _) ⟨rfl, rfl⟩
      ⟨rfl, rfl, rfl, rfl, rfl⟩
    intro i hi
    obtain rfl : i = s.session := by cases cs <;> simp_all [Job.answers]
    exact hanswered
  cases t with
  | finished =>
    cases k with
    | true =>
      refine inv.quiet hfits ?_ inv.asks ?_ inv.passive
        (fun h => absurd (hr.symm.trans h) (by simp)) ⟨rfl, rfl, rfl⟩
      · intro i
        simp [State.handleReplyResult, State.due, hs, Slot.due]
      · intro i hi
        refine inv.answers i ?_
        rw [State.answers, hs]
        exact hi
    | false => exact hgive _ (by decide) hfits
  | error | deleted | stopped => exact hgive _ (by decide) hfits

end Handler

theorem rest_fields (k : Bool) (s : State) :
    (s.rest k).jobs = s.jobs ∧ (s.rest k).reading = s.reading ∧ (s.rest k).session = s.session ∧
      (s.rest k).passive = s.passive ∧ (s.rest k).sessions = s.sessions ∧
      (s.rest k).accepted = s.accepted ∧ (s.rest k).handled = s.handled := by
  unfold State.rest
  split_ifs <;> exact ⟨rfl, rfl, rfl, rfl, rfl, rfl, rfl⟩

theorem rest_slot (k : Bool) {s : State} (hk : s.slot.kind = .reading) (session : SessionId) :
    (s.rest k).slot.due (s.rest k).state session = [] ∧ (s.rest k).slot.answers session = [] := by
  unfold State.rest
  split_ifs
  · rw [Slot.due_reading hk, Slot.answers_reading hk]
    exact ⟨rfl, rfl⟩
  · have hd : s.slot.delete.kind = .reading := (Slot.kind_delete _).trans hk
    rw [Slot.due_reading hd, Slot.answers_reading hd]
    exact ⟨rfl, rfl⟩

theorem Inv.keepAliveSection (inv : Inv s) (hs : s.slot = .keepAlive i) (ok stop : Bool) :
    Inv (s.keepAliveSection i ok stop) := by
  have hr : s.reading = false := inv.not_reading hs (by simp)
  have hfits := inv.fits.keepAliveSection hs ok stop
  have hanswered : s.accepted.count i = 1 := by
    refine inv.answers i ?_
    rw [State.answers, hs]
    exact mem_cons_self
  have hdue : [i] = s.slot.due s.state s.session := by
    rw [hs]
    rfl
  have hanswers : ∀ j ∈ [i], s.accepted.count j = 1 := by simpa using hanswered
  cases ok with
  | false =>
    exact inv.giveJob hfits rfl hr hdue hanswers rfl ⟨rfl, rfl⟩ ⟨rfl, rfl, rfl, rfl, rfl⟩
  | true =>
    obtain ⟨hjobs, hreading, hsame⟩ := rest_fields (!stop)
      { s with jobs := .handle i .success :: s.jobs, slot := .registered .read true }
    have hslot := rest_slot (!stop)
      (s := { s with jobs := .handle i .success :: s.jobs, slot := .registered .read true }) rfl
      s.session
    exact inv.giveJob hfits hjobs (hreading.trans hr) hdue hanswers rfl hslot hsame

theorem due_replace {x : Job} (hx : x ∈ s.jobs) (new : List Job) (i : SessionId) :
    State.due { s with jobs := replace x new s.jobs } i + (x.due s.session).count i =
      s.due i + (holdings (Job.due s.session) new).count i := by
  have h := count_holdings_replace (Job.due s.session) hx new i
  simp only [State.due]
  omega

theorem mem_asks {x : Job} (hx : x ∈ s.jobs) (hi : i ∈ x.asks s.session) : i ∈ s.asks :=
  mem_flatMap.mpr ⟨x, hx, hi⟩

section Jobs

variable (inv : Inv s)

include inv

theorem Inv.setJob {x : Job} (hx : x ∈ s.jobs) {new : List Job} (fits : Fits s')
    (hjobs : s'.jobs = replace x new s.jobs)
    (hasks : ∀ i ∈ holdings (Job.asks s.session) new, i ∈ s.asks)
    (hpassive : ∀ i, s'.passive i = 2 → s.accepted.count i = 0)
    (hdue : holdings (Job.due s.session) new = x.due s.session)
    (hanswers : holdings Job.answers new = [])
    (hstate : s.slot.due s'.state s.session = s.slot.due s.state s.session)
    (hsame : s'.slot = s.slot ∧ s'.session = s.session ∧ s'.reading = s.reading ∧
      s'.sessions = s.sessions ∧ s'.accepted = s.accepted ∧ s'.handled = s.handled) : Inv s' := by
  obtain ⟨hslot, hsession, hreading, hsame⟩ := hsame
  refine inv.quiet fits ?_ ?_ ?_ hpassive ?_ hsame
  · intro i
    have h := due_replace hx new i
    rw [hdue] at h
    simp only [State.due] at h
    rw [State.due, State.due, hjobs, hsession, hslot, hstate]
    omega
  · intro i hi
    rw [State.asks, hjobs, hsession] at hi
    rcases mem_holdings_replace hi with hi | hi
    · exact inv.asks i (hasks i hi)
    · exact inv.asks i hi
  · intro i hi
    rw [State.answers, hjobs, hslot, hsession] at hi
    refine inv.answers i ?_
    rcases mem_append.mp hi with hi | hi
    · exact mem_append_left _ hi
    · rcases mem_holdings_replace hi with hi | hi
      · rw [hanswers] at hi
        cases hi
      · exact mem_append_right _ hi
  · rw [hreading, hslot, hsession]
    exact inv.reading

theorem Inv.jobQueued (hx : .queued ∈ s.jobs) : Inv (s.job .queued) := by
  refine inv.setJob hx (inv.fits.job hx) rfl ?_ inv.passive rfl rfl rfl
    ⟨rfl, rfl, rfl, rfl, rfl, rfl⟩
  intro i hi
  exact mem_asks hx (by simpa [holdings, Job.asks] using hi)

theorem Inv.jobLoaded (hx : .loaded i ∈ s.jobs) : Inv (s.job (.loaded i)) := by
  have hfits := inv.fits.job hx
  have hmem : i ∈ s.asks := mem_asks hx mem_cons_self
  have hasks : ∀ j ∈ holdings (Job.asks s.session) [.handle i .toreply], j ∈ s.asks := by
    intro j hj
    obtain rfl : j = i := by simpa [holdings, Job.asks] using hj
    exact hmem
  have hpassive : ∀ j, update s.passive i 2 j = 2 → s.accepted.count j = 0 := by
    intro j hj
    rw [update_apply] at hj
    split_ifs at hj with h
    · rw [h]
      exact inv.asks i hmem
    · exact inv.passive j hj
  by_cases hst : s.state = .success
  · have hjob : s.job (.loaded i) = { s with
        jobs := replace (.loaded i) [.handle i .toreply] s.jobs
        passive := update s.passive i 2
        ref := s.ref + 1, state := .idle, idle := true } := by
      simp only [State.job, if_pos hst]
    obtain ⟨p, r⟩ := inv.fits.exists_running_of_job hx (by simp)
    have hslot : s.slot.due .idle s.session = s.slot.due s.state s.session := by
      rcases r.of_open hx rfl with rfl | rfl
      · rw [Slot.due_reading r.kind, Slot.due_reading r.kind, hst]
        rfl
      · have hallows := r.state
        rw [hst] at hallows
        cases hallows
    rw [hjob] at hfits ⊢
    exact inv.setJob hx hfits rfl hasks hpassive rfl rfl hslot ⟨rfl, rfl, rfl, rfl, rfl, rfl⟩
  · have hjob : s.job (.loaded i) = { s with
        jobs := replace (.loaded i) [.handle i .toreply] s.jobs
        passive := update s.passive i 2 } := by
      simp only [State.job, if_neg hst]
    rw [hjob] at hfits ⊢
    exact inv.setJob hx hfits rfl hasks hpassive rfl rfl rfl ⟨rfl, rfl, rfl, rfl, rfl, rfl⟩

theorem Inv.jobDecref (hx : .decref ∈ s.jobs) : Inv (s.job .decref) := by
  refine inv.setJob hx (inv.fits.job hx) rfl ?_ inv.passive ?_ ?_ rfl ⟨rfl, rfl, rfl, rfl, rfl, rfl⟩
  · intro i hi
    split_ifs at hi <;> cases hi
  · split_ifs <;> rfl
  · split_ifs <;> rfl

theorem Inv.jobReleaseConn (hx : .releaseConn ∈ s.jobs) : Inv (s.job .releaseConn) :=
  inv.setJob hx (inv.fits.job hx) rfl (by rintro i ⟨⟩) inv.passive rfl rfl rfl
    ⟨rfl, rfl, rfl, rfl, rfl, rfl⟩

omit inv in
theorem told_append (i j : SessionId) (cs : CsState) :
    State.told { s with handled := s.handled ++ [(i, cs)] } j =
      if i = j then s.told j ++ [cs] else s.told j := by
  simp only [State.told, filter_append, map_append]
  split_ifs with h <;> simp [h]

omit inv in
theorem Protocol.call {a d : ℕ} {told : List CsState} (h : Protocol a (d + 1) told) {cs : CsState}
    (hfirst : cs = .toreply → a = 0) (hsecond : cs = .success → a = 1) :
    Protocol a d (told ++ [cs]) := by
  cases h with
  | created =>
    refine .ended cs ?_
    intro hcs
    cases hsecond hcs
  | replied =>
    refine .finished cs ?_
    intro hcs
    cases hfirst hcs

theorem Inv.jobHandle {cs : CsState} (hx : .handle i cs ∈ s.jobs) : Inv (s.job (.handle i cs)) := by
  have hdue : ∀ j, (s.job (.handle i cs)).due j + [i].count j = s.due j := by
    intro j
    exact due_replace hx [.decref] j
  have htold : ∀ j, (s.job (.handle i cs)).told j = if i = j then s.told j ++ [cs] else s.told j :=
    fun j => told_append i j cs
  have hborn : i < s.sessions := by
    by_contra hlt
    have hz := (inv.unborn i (Nat.not_lt.mp hlt)).2.1
    have hd := hdue i
    rw [hz, count_singleton_self] at hd
    omega
  exact
    { fits := inv.fits.job hx
      protocol := by
        intro j hj
        have hp := inv.protocol j hj
        have hd := hdue j
        rw [htold]
        by_cases hij : i = j
        · subst hij
          rw [if_pos rfl]
          rw [count_singleton_self] at hd
          rw [← hd] at hp
          refine Protocol.call hp ?_ ?_
          · rintro rfl
            exact inv.asks i (mem_asks hx mem_cons_self)
          · rintro rfl
            refine inv.answers i (mem_append_right _ ?_)
            exact mem_flatMap.mpr ⟨_, hx, mem_cons_self⟩
        · rw [if_neg hij]
          rw [count_singleton, beq_false_of_ne hij, if_neg Bool.false_ne_true,
            Nat.add_zero] at hd
          rw [hd]
          exact hp
      unborn := by
        intro j hj
        have hij : i ≠ j := by
          rintro rfl
          exact absurd hborn (Nat.not_lt.mpr hj)
        obtain ⟨h₁, h₂, h₃⟩ := inv.unborn j hj
        have hd := hdue j
        rw [htold, if_neg hij]
        exact ⟨h₁, by omega, h₃⟩
      asks := by
        intro j hj
        rcases mem_holdings_replace hj with hj | hj
        · cases hj
        · exact inv.asks j hj
      answers := by
        intro j hj
        refine inv.answers j ?_
        rcases mem_append.mp hj with hj | hj
        · exact mem_append_left _ hj
        · rcases mem_holdings_replace hj with hj | hj
          · cases hj
          · exact mem_append_right _ hj
      passive := inv.passive
      reading := inv.reading }

theorem Inv.job {x : Job} (hx : x ∈ s.jobs) : Inv (s.job x) := by
  cases x with
  | queued => exact inv.jobQueued hx
  | loaded i => exact inv.jobLoaded hx
  | handle i cs => exact inv.jobHandle hx
  | decref => exact inv.jobDecref hx
  | releaseConn => exact inv.jobReleaseConn hx

end Jobs

section Replies

variable (inv : Inv s)

include inv

theorem Inv.setState (fits : Fits s') (hk : s.slot.kind = .reading) (hreading : s'.reading = false)
    (hst : s.state ≠ .receiving ∧ s.state ≠ .error)
    (hst' : s'.state ≠ .receiving ∧ s'.state ≠ .error)
    (hsame : s'.slot = s.slot.delete ∧ s'.jobs = s.jobs ∧ s'.session = s.session ∧
      s'.passive = s.passive ∧ s'.sessions = s.sessions ∧ s'.accepted = s.accepted ∧
      s'.handled = s.handled) : Inv s' := by
  obtain ⟨hslot, hjobs, hsession, hpassive, hsame⟩ := hsame
  have hk' : s'.slot.kind = .reading := by rw [hslot, Slot.kind_delete, hk]
  refine inv.quiet fits ?_ ?_ ?_ (hpassive ▸ inv.passive) (by simp [hreading]) hsame
  · intro i
    rw [State.due, State.due, Slot.due_reading hk, Slot.due_reading hk', hjobs, hsession,
      if_neg (by tauto), if_neg (by tauto)]
  · rw [State.asks, hjobs, hsession]
    exact inv.asks
  · rw [State.answers, hjobs, Slot.answers_reading hk']
    have h := inv.answers
    rw [State.answers, Slot.answers_reading hk] at h
    exact h

theorem Inv.shutdown : Inv s.shutdown := by
  have hfits := inv.fits.shutdown
  unfold State.shutdown at hfits ⊢
  split_ifs at hfits ⊢ with hidle
  · obtain ⟨r, hstate, hkind, halive, hreading⟩ := inv.fits.of_idle hidle
    exact inv.setState hfits hkind hreading (by simp [hstate]) (by simp)
      ⟨rfl, rfl, rfl, rfl, rfl, rfl, rfl⟩
  · exact inv

theorem Inv.spend (i : SessionId) :
    Inv { s with passive := update s.passive i 3 } :=
  inv.quiet (inv.fits.spend i) (fun _ => rfl) inv.asks inv.answers
    (fun j hj => inv.passive j (update_three hj).1) inv.reading ⟨rfl, rfl, rfl⟩

theorem Inv.shutdownSession (i : SessionId) : Inv (s.shutdownSession i) := by
  unfold State.shutdownSession
  split_ifs
  · exact (inv.spend i).shutdown
  · exact inv

theorem Inv.drain : Inv s.drain := by
  have hfits := inv.fits.drain
  unfold State.drain at hfits ⊢
  split_ifs at hfits ⊢ with ha
  · obtain ⟨r, hstate, hreading⟩ := inv.fits.of_alive ha
    exact inv.setState hfits r.kind hreading (by simp [hstate]) (by simp)
      ⟨rfl, rfl, rfl, rfl, rfl, rfl, rfl⟩
  · exact inv

omit inv in
theorem due_of_asks (hi : i ∈ s.asks) : 0 < s.due i := by
  obtain ⟨j, hj, hij⟩ := mem_flatMap.mp hi
  have hmem : i ∈ holdings (Job.due s.session) s.jobs := by
    refine mem_flatMap.mpr ⟨j, hj, ?_⟩
    cases j with
    | queued | loaded => exact hij
    | handle k cs =>
      cases cs with
      | toreply => exact hij
      | success | error | stopped => cases hij
    | decref | releaseConn => cases hij
  have hpos := count_pos_iff.mpr hmem
  rw [State.due]
  omega

theorem Inv.toreply (hi : s.passive i = 2) (hmem : (i, .toreply) ∈ s.handled) :
    i < s.sessions ∧ s.accepted.count i = 0 ∧ s.due i = 0 ∧ s.told i = [.toreply] := by
  have ha := inv.passive i hi
  have htold : .toreply ∈ s.told i :=
    mem_map.mpr ⟨(i, .toreply), mem_filter.mpr ⟨hmem, by simp⟩, rfl⟩
  have hborn : i < s.sessions := by
    by_contra hlt
    rw [(inv.unborn i (Nat.not_lt.mp hlt)).2.2] at htold
    cases htold
  have hp := inv.protocol i hborn
  rw [ha] at hp
  generalize hd : s.due i = d at hp
  generalize ht : s.told i = told at hp htold
  cases hp with
  | created => cases htold
  | ended c h =>
    obtain rfl := mem_singleton.mp htold
    exact ⟨hborn, ha, rfl, rfl⟩

theorem Inv.accept (hi : s.passive i = 2) (hmem : (i, .toreply) ∈ s.handled) (fits : Fits s')
    (haccepted : s'.accepted = i :: s.accepted) (hsessions : s'.sessions = s.sessions)
    (hhandled : s'.handled = s.handled) (hdue : ∀ j, s'.due j = s.due j + [i].count j)
    (hasks : s'.asks = s.asks) (hanswers : ∀ j ∈ s'.answers, j = i ∨ j ∈ s.answers)
    (hpassive : s'.passive = update s.passive i 3) (hreading : s'.reading = false) :
    Inv s' := by
  obtain ⟨hborn, ha, hd, ht⟩ := inv.toreply hi hmem
  have hcount : ∀ j, s'.accepted.count j = s.accepted.count j + [i].count j := by
    intro j
    rw [haccepted, ← singleton_append, count_append, Nat.add_comm]
  have hother : ∀ j, j ≠ i → [i].count j = 0 := by
    intro j hj
    rw [count_singleton, beq_false_of_ne hj.symm]
    rfl
  have htold : ∀ j, s'.told j = s.told j := by
    intro j
    rw [State.told, hhandled]
    rfl
  exact
    { fits := fits
      protocol := by
        intro j hj
        rw [hcount, hdue, htold]
        by_cases hji : j = i
        · subst hji
          rw [ha, hd, ht, count_singleton_self]
          exact .replied
        · rw [hother j hji]
          exact inv.protocol j (hsessions ▸ hj)
      unborn := by
        intro j hj
        have hji : j ≠ i := by
          rintro rfl
          exact absurd hborn (Nat.not_lt.mpr (hsessions ▸ hj))
        rw [hcount, hdue, htold, hother j hji]
        exact inv.unborn j (hsessions ▸ hj)
      asks := by
        intro j hj
        rw [hasks] at hj
        have hji : j ≠ i := by
          rintro rfl
          have hpos := due_of_asks hj
          omega
        rw [hcount, hother j hji]
        exact inv.asks j hj
      answers := by
        intro j hj
        rw [hcount]
        by_cases hji : j = i
        · rw [hji, ha, count_singleton_self]
        · rw [hother j hji]
          exact inv.answers j ((hanswers j hj).resolve_left hji)
      passive := by
        intro j hj
        rw [hpassive] at hj
        obtain ⟨h2, hji⟩ := update_three hj
        rw [hcount, hother j hji]
        exact inv.passive j h2
      reading := by
        intro h
        rw [hreading] at h
        cases h }

theorem Inv.acceptSlot (hidle : s.idle = true) (hi : s.passive i = 2)
    (hmem : (i, .toreply) ∈ s.handled) (fits : Fits s')
    (hdue : s'.slot.due s'.state s'.session = [i])
    (hanswers : ∀ j ∈ s'.slot.answers s'.session, j = i)
    (hsame : s'.accepted = i :: s.accepted ∧ s'.sessions = s.sessions ∧ s'.handled = s.handled ∧
      s'.jobs = s.jobs ∧ s'.session = s.session ∧ s'.passive = update s.passive i 3 ∧
      s'.reading = s.reading) : Inv s' := by
  obtain ⟨haccepted, hsessions, hhandled, hjobs, hsession, hpassive, hreading⟩ := hsame
  obtain ⟨r, hstate, hkind, halive, hread⟩ := inv.fits.of_idle hidle
  refine inv.accept hi hmem fits haccepted hsessions hhandled ?_ ?_ ?_ hpassive
    (hreading.trans hread)
  · intro j
    rw [State.due, State.due, hdue, hjobs, hsession, Slot.due_reading hkind, hstate,
      if_neg (by decide), count_nil]
    omega
  · rw [State.asks, State.asks, hjobs, hsession]
  · intro j hj
    rcases mem_append.mp hj with hj | hj
    · exact .inl (hanswers j hj)
    · rw [hjobs] at hj
      exact .inr (mem_append_right _ hj)

theorem Inv.acceptSent (hidle : s.idle = true) (hi : s.passive i = 2)
    (hmem : (i, .toreply) ∈ s.handled) (k : Bool) {t : State}
    (ht : t = State.rest k { s with
      idle := false, passive := update s.passive i 3, ref := s.ref + 1 })
    (fits : Fits (State.accept i { t with jobs := .handle i .success :: t.jobs })) :
    Inv (State.accept i { t with jobs := .handle i .success :: t.jobs }) := by
  obtain ⟨r, hstate, hkind, halive, hread⟩ := inv.fits.of_idle hidle
  obtain ⟨hjobs, hreading, hsession, hpassive, hsessions, haccepted, hhandled⟩ := rest_fields k
    { s with idle := false, passive := update s.passive i 3, ref := s.ref + 1 }
  have hslot := rest_slot k (s := { s with
    idle := false, passive := update s.passive i 3, ref := s.ref + 1 }) hkind
  rw [← ht] at hsessions haccepted hhandled hpassive hreading hjobs hsession hslot
  dsimp only at hsessions haccepted hhandled hpassive hreading hjobs hsession
  refine inv.accept hi hmem fits ?_ hsessions hhandled ?_ ?_ ?_ hpassive (hreading.trans hread)
  · exact congrArg (i :: ·) haccepted
  · intro j
    simp only [State.due, State.accept, count_holdings_cons, (hslot _).1, hjobs, hsession,
      Slot.due_reading hkind, hstate, count_nil]
    rw [if_neg (by decide), count_nil]
    simp only [Job.due]
    omega
  · simp only [State.asks, State.accept, hjobs, hsession]
    rfl
  · intro j hj
    simp only [State.answers, State.accept, (hslot _).2, hjobs, nil_append] at hj
    rcases mem_cons.mp hj with hj | hj
    · exact .inl hj
    · exact .inr (mem_append_right _ hj)

theorem Inv.replyReliable (hi : s.passive i = 2) (hmem : (i, .toreply) ∈ s.handled) (w : Writing)
    (k : Bool) :
    Inv (State.replyReliable i w k { s with passive := update s.passive i 3 }) := by
  have hfits := inv.fits.replyReliable hi w k
  unfold State.replyReliable at hfits ⊢
  dsimp only at hfits ⊢
  split_ifs at hfits ⊢ with hidle
  · obtain ⟨r, hstate, hkind, halive, hread⟩ := inv.fits.of_idle hidle
    have hsession : s.session = i := (r.asker rfl i hi).symm
    have hreadingDue : ∀ (slot : Slot) (st : ConnState), slot.kind = .reading →
        (st = .receiving ∨ st = .error) → slot.due st s.session = [i] := by
      intro slot st hk hst
      rw [Slot.due_reading hk, if_pos hst, hsession]
    have hnone : ∀ slot : Slot, slot.kind = .reading → ∀ j ∈ slot.answers s.session, j = i := by
      intro slot hk j hj
      rw [Slot.answers_reading hk] at hj
      cases hj
    have hdelete : s.slot.delete.kind = .reading := (Slot.kind_delete _).trans hkind
    cases w with
    | failed =>
      exact inv.acceptSlot hidle hi hmem hfits (hreadingDue _ _ hdelete (.inr rfl)) (hnone _ hdelete)
        ⟨rfl, rfl, rfl, rfl, rfl, rfl, rfl⟩
    | complete => exact inv.acceptSent hidle hi hmem k rfl hfits
    | partly ok =>
      rcases sendMessage_partly (s := { s with
        idle := false, passive := update s.passive i 3 }) hstate ok k with h | h | h
      · rw [h] at hfits ⊢
        exact inv.acceptSlot hidle hi hmem hfits (hreadingDue _ _ hdelete (.inr rfl))
          (hnone _ hdelete) ⟨rfl, rfl, rfl, rfl, rfl, rfl, rfl⟩
      · rw [h] at hfits ⊢
        refine inv.acceptSlot hidle hi hmem hfits ?_ ?_ ⟨rfl, rfl, rfl, rfl, rfl, rfl, rfl⟩
        · exact congrArg (fun j => [j]) hsession
        · intro j hj
          exact (mem_singleton.mp hj).trans hsession
      · rw [h] at hfits ⊢
        exact inv.acceptSlot hidle hi hmem hfits (hreadingDue _ _ hkind (.inl rfl)) (hnone _ hkind)
          ⟨rfl, rfl, rfl, rfl, rfl, rfl, rfl⟩
  · exact inv.spend i

theorem Inv.reply (hmem : (i, .toreply) ∈ s.handled) (w : Writing) (k : Bool) :
    Inv (s.reply i w k) := by
  unfold State.reply
  split_ifs with hi
  · exact inv.replyReliable hi hmem w k
  · exact inv

theorem Inv.unbind : Inv { s with listening := false } :=
  inv.quiet inv.fits.unbind (fun _ => rfl) inv.asks inv.answers inv.passive inv.reading
    ⟨rfl, rfl, rfl⟩

end Replies

theorem step_inv {a : Action} (inv : Inv s) (h : step s a = some s') : Inv s' := by
  cases a with
  | createRequest =>
    simp only [step] at h
    split at h
    · split_ifs at h with hst
      cases h
      exact inv.createRequest ‹_› hst
    · cases h
  | message =>
    simp only [step] at h
    split at h
    · split_ifs at h with hr
      cases h
      exact inv.message hr
    · cases h
  | unregister =>
    simp only [step] at h
    split at h
    · cases h
      exact inv.unregister ‹_›
    · cases h
  | terminate t =>
    simp only [step] at h
    split at h
    · cases h
      exact inv.terminate ‹_› t
    · cases h
  | handleResult k =>
    simp only [step] at h
    split at h
    · cases h
      exact inv.handleIncomingRequest ‹_›
    · cases h
      exact inv.handleReplyResult ‹_› k
    · cases h
  | keepAlive ok stop =>
    simp only [step] at h
    split at h
    · cases h
      exact inv.keepAliveSection ‹_› ok stop
    · cases h
  | job j =>
    obtain ⟨hj, rfl⟩ := of_guard h
    exact inv.job hj
  | reply i w k =>
    obtain ⟨hi, rfl⟩ := of_guard h
    exact inv.reply hi w k
  | shutdown =>
    cases h
    exact inv.shutdown
  | shutdownSession i =>
    cases h
    exact inv.shutdownSession i
  | drain =>
    cases h
    exact inv.drain
  | unbind =>
    cases h
    exact inv.unbind

theorem reachable_inv (h : Reachable step State.init s) : Inv s :=
  h.invariant init_inv fun _ _ _ inv _ hstep => step_inv inv hstep

theorem Fits.ref_nonneg (fit : Fits s) : 0 ≤ s.ref := by
  cases fit with
  | running p r => exact r.pos.le
  | freeing _ _ _ _ _ _ ref => exact ref.ge
  | freed _ _ _ _ _ _ ref => exact ref.ge

theorem Fits.released_le_one (fit : Fits s) : s.released ≤ 1 := by
  cases fit with
  | running p r => exact r.notReleased.le.trans (Nat.zero_le 1)
  | freeing _ _ _ _ _ notReleased => exact notReleased.le.trans (Nat.zero_le 1)
  | freed _ _ _ _ _ released => exact released.le

theorem Fits.of_released (fit : Fits s) (h : s.released = 1) :
    s.slot = .none ∧ s.jobs = [] ∧ s.idle = false ∧ s.alive = false := by
  cases fit with
  | running p r =>
    rw [r.notReleased] at h
    cases h
  | freeing _ _ _ _ _ notReleased =>
    rw [notReleased] at h
    cases h
  | freed slot jobs idle alive => exact ⟨slot, jobs, idle, alive⟩

theorem Fits.released_of_settled (fit : Fits s) (hslot : s.slot = .none) (hjobs : s.jobs = []) :
    s.released = 1 := by
  cases fit with
  | running p r =>
    have hkind := r.kind
    have href := r.ref
    have hpos := r.pos
    rw [hslot] at hkind href
    rw [hjobs] at href
    have hopened := r.opened
    rw [hjobs] at hopened
    have hextra : p.extra = 0 := by
      cases p <;> first
        | rfl
        | exact absurd hkind (by decide)
        | exact absurd hopened (by decide)
    rw [hextra] at href
    simp only [Slot.refs, countP_nil] at href
    omega
  | freeing _ jobs =>
    rw [hjobs] at jobs
    cases jobs
  | freed _ _ _ _ _ released => exact released

def Course (accepted : Bool) (told : List CsState) : Prop :=
  match accepted with
  | false => told = [] ∨ ∃ c, c ≠ .success ∧ told = [c]
  | true => told = [.toreply] ∨ ∃ c, c ≠ .toreply ∧ told = [.toreply, c]

theorem Protocol.course {a d : ℕ} {told : List CsState} (h : Protocol a d told) :
    a ≤ 1 ∧ Course (decide (a = 1)) told := by
  cases h with
  | created => exact ⟨Nat.zero_le 1, .inl rfl⟩
  | ended c h => exact ⟨Nat.zero_le 1, .inr ⟨c, h, rfl⟩⟩
  | replied => exact ⟨le_rfl, .inl rfl⟩
  | finished c h => exact ⟨le_rfl, .inr ⟨c, h, rfl⟩⟩

theorem Protocol.complete {a : ℕ} {told : List CsState} (h : Protocol a 0 told) :
    told.length = a + 1 := by
  cases h <;> rfl

/-! ## The steps of the handler threads -/

def Action.handler : Action → Bool
  | .handleResult _ | .keepAlive _ _ | .job _ => true
  | _ => false

def Slot.pending : Slot → ℕ
  | .result .write _ => 5
  | .result .read _ | .keepAlive _ => 4
  | _ => 0

def Job.pending : Job → ℕ
  | .queued => 5
  | .loaded _ => 4
  | .handle _ _ => 3
  | .decref => 2
  | .releaseConn => 1

/-- At most so many steps of handler threads are left until the poller or a reply gives them more
    to do. -/
def State.pending (s : State) : ℕ := s.slot.pending + load Job.pending s.jobs

theorem rest_pending (k : Bool) (s : State) : (s.rest k).pending = s.pending := by
  unfold State.rest
  split_ifs
  · rfl
  · change s.slot.delete.pending + _ = s.slot.pending + _
    cases s.slot <;> rfl

theorem handleIncomingRequest_pending {t : Terminal} (hs : s.slot = .result .read t) :
    (s.handleIncomingRequest t).pending < s.pending := by
  unfold State.handleIncomingRequest
  split
  all_goals
    simp only [State.pending, hs, load_cons, Slot.pending, Job.pending]
    omega

theorem handleReplyResult_pending {t : Terminal} (hs : s.slot = .result .write t) (k : Bool) :
    (s.handleReplyResult t k).pending < s.pending := by
  unfold State.handleReplyResult
  split
  · split_ifs
    · simp only [State.pending, hs, Slot.pending]
      omega
    · simp only [State.pending, hs, load_cons, Slot.pending, Job.pending]
      omega
  · simp only [State.pending, hs, load_cons, Slot.pending, Job.pending]
    omega

theorem keepAliveSection_pending (hs : s.slot = .keepAlive i) (ok stop : Bool) :
    (s.keepAliveSection i ok stop).pending < s.pending := by
  cases ok with
  | true =>
    rw [State.keepAliveSection, if_pos rfl, rest_pending]
    simp only [State.pending, hs, load_cons, Slot.pending, Job.pending]
    omega
  | false =>
    simp only [State.keepAliveSection, Bool.false_eq_true, if_false, State.pending, hs,
      load_cons, Slot.pending, Job.pending]
    omega

theorem job_pending {j : Job} (hj : j ∈ s.jobs) : (s.job j).pending < s.pending := by
  have hslot : (s.job j).slot = s.slot := by
    cases j with
    | loaded i => simp only [State.job]; split_ifs <;> rfl
    | queued | handle | decref | releaseConn => rfl
  have hjobs : ∃ new, (s.job j).jobs = replace j new s.jobs ∧ load Job.pending new < j.pending := by
    cases j with
    | queued => exact ⟨_, rfl, by simp [Job.pending]⟩
    | loaded i =>
      refine ⟨[.handle i .toreply], ?_, by simp [Job.pending]⟩
      simp only [State.job]
      split_ifs <;> rfl
    | handle i cs => exact ⟨_, rfl, by simp [Job.pending]⟩
    | decref =>
      refine ⟨_, rfl, ?_⟩
      split_ifs <;> decide
    | releaseConn => exact ⟨_, rfl, by decide⟩
  obtain ⟨new, hnew, hlt⟩ := hjobs
  have hload := load_replace Job.pending hj new
  rw [State.pending, State.pending, hslot, hnew]
  omega

theorem handler_pending {a : Action} (ha : a.handler = true) (h : step s a = some s') :
    s'.pending < s.pending := by
  cases a with
  | handleResult k =>
    simp only [step] at h
    split at h
    · cases h
      exact handleIncomingRequest_pending ‹_›
    · cases h
      exact handleReplyResult_pending ‹_› k
    · cases h
  | keepAlive ok stop =>
    simp only [step] at h
    split at h
    · cases h
      exact keepAliveSection_pending ‹_› ok stop
    · cases h
  | job j =>
    obtain ⟨hj, rfl⟩ := of_guard h
    exact job_pending hj
  | createRequest | message | unregister | terminate | reply | shutdown | shutdownSession | drain
    | unbind => cases ha

/-- Some handler thread has a step to make. -/
def State.Handling (s : State) : Prop := ∃ a s', a.handler = true ∧ step s a = some s'

theorem handling_of_job {j : Job} (hj : j ∈ s.jobs) : s.Handling :=
  ⟨.job j, s.job j, rfl, if_pos hj⟩

theorem Inv.handling (inv : Inv s) (hslot : s.slot ≠ .none)
    (hregistered : ∀ op live, s.slot ≠ .registered op live) : s.Handling := by
  cases hs : s.slot with
  | none => exact absurd hs hslot
  | registered op live => exact absurd hs (hregistered op live)
  | keepAlive i => exact ⟨.keepAlive false false, _, rfl, by rw [step, hs]⟩
  | result op t =>
    cases op with
    | read | write => exact ⟨.handleResult false, _, rfl, by rw [step, hs]⟩
    | connect =>
      obtain ⟨p, r⟩ := inv.fits.exists_running hslot
      have hkind := r.kind
      rw [hs] at hkind
      cases p <;> cases hkind

theorem Inv.handling_of_due (inv : Inv s) (hregistered : ∀ op live, s.slot ≠ .registered op live)
    (hdue : s.due i ≠ 0) : s.Handling := by
  by_cases hslot : s.slot = .none
  · have hjobs : s.jobs ≠ [] := by
      intro hjobs
      rw [State.due, hslot, hjobs] at hdue
      exact hdue rfl
    obtain ⟨j, hj⟩ := exists_mem_of_ne_nil _ hjobs
    exact handling_of_job hj
  · exact inv.handling hslot hregistered

/-- A connection is freed once, when nothing refers to it any more, and each of its sessions is
    called as the protocol says: completely as soon as no call is due to it. A due call waits for
    the poller or for a handler thread, and handler threads come to an end. -/
theorem server_session_protocol (s : State) (h : Reachable step State.init s) :
    0 ≤ s.ref ∧ s.released ≤ 1 ∧
    (s.released = 1 → s.slot = .none ∧ s.jobs = [] ∧ s.idle = false ∧ s.alive = false) ∧
    (s.slot = .none → s.jobs = [] → s.released = 1) ∧
    (s.slot = .none → s.jobs ≠ [] → s.Handling) ∧
    (∀ a s', a.handler = true → step s a = some s' → s'.pending < s.pending) ∧
    ∀ i < s.sessions, s.accepted.count i ≤ 1 ∧
      Course (decide (s.accepted.count i = 1)) (s.told i) ∧
      (s.due i = 0 → (s.told i).length = s.accepted.count i + 1) ∧
      (s.due i ≠ 0 → (∃ op live, s.slot = .registered op live) ∨ s.Handling) := by
  have inv := reachable_inv h
  refine ⟨inv.fits.ref_nonneg, inv.fits.released_le_one, inv.fits.of_released,
    inv.fits.released_of_settled, ?_, fun a s' => handler_pending, ?_⟩
  · intro _ hjobs
    obtain ⟨j, hj⟩ := exists_mem_of_ne_nil _ hjobs
    exact handling_of_job hj
  · intro i hi
    have hp := inv.protocol i hi
    refine ⟨hp.course.1, hp.course.2, ?_, ?_⟩
    · intro hdue
      rw [hdue] at hp
      exact hp.complete
    · intro hdue
      by_cases hregistered : ∃ op live, s.slot = .registered op live
      · exact .inl hregistered
      · exact .inr (inv.handling_of_due (fun op live hs => hregistered ⟨op, live, hs⟩) hdue)

def sessionRun : List Action :=
  [.createRequest, .message, .job .queued, .job (.loaded 0), .job (.handle 0 .toreply),
    .reply 0 (.partly true) true, .job .decref, .unregister, .terminate .finished,
    .handleResult true, .keepAlive true false, .createRequest, .job (.handle 0 .success)]

/-- The first session is answered while the second one is being received. -/
theorem sessionRun_answered : ∃ s, Reachable step State.init s ∧ s.released = 0 ∧ s.ref = 2 ∧
    s.due 0 = 0 ∧ s.due 1 = 1 ∧ (s.told 0).length = 2 ∧
    ∃ s', step s (.job .decref) = some s' ∧ s'.pending < s.pending := by
  obtain ⟨s, s', hrun, hsessions, haccepted, hreleased, href, h₀, h₁, hstep⟩ :
      ∃ s s', run step State.init sessionRun = some s ∧ s.sessions = 2 ∧ s.accepted = [0] ∧
        s.released = 0 ∧ s.ref = 2 ∧ s.due 0 = 0 ∧ s.due 1 = 1 ∧
        step s (.job .decref) = some s' :=
    ⟨_, _, rfl, rfl, rfl, rfl, rfl, rfl, rfl, rfl⟩
  have hreach := reachable_of_run sessionRun .start hrun
  obtain ⟨-, -, -, -, -, hpending, hsession⟩ := server_session_protocol s hreach
  have htold := (hsession 0 (by rw [hsessions]; decide)).2.2.1 h₀
  rw [haccepted] at htold
  exact ⟨s, hreach, hreleased, href, h₀, h₁, htold, s', hstep, hpending _ _ rfl hstep⟩

end MyWorkflow.Comm.Server
