import MyWorkflow.IoService

set_option autoImplicit false

namespace MyWorkflow.IoService
open Function Bags Runs
open List hiding replace

variable {outcome : SessionId → ℤ} {s s' : State}

@[simp] theorem isSession_self (x : SessionId) : isSession x x = 1 := if_pos rfl

theorem init_inv (outcome : SessionId → ℤ) : Inv outcome State.init where
  once := fun _ => rfl
  linked := fun _ => rfl
  base := rfl
  ref := rfl
  drains := rfl
  res := by rintro x ⟨⟩
  ended := fun _ => rfl
  unlocked := by rintro ⟨⟩
  polling := fun h => absurd rfl h
  registered := fun _ => rfl
  deleted := by rintro ⟨⟩
  signals := fun _ => le_rfl
  awake := fun _ _ => le_rfl
  args := by rintro _ ⟨⟩

/-- A step takes the items `old` away and brings the items `new`. -/
def Moves (s s' : State) (old new : List Item) : Prop :=
  ∀ f, s'.tally f + load f old = s.tally f + load f new

theorem Books.move (b : Books outcome s) (old new : List Item) (moves : Moves s s' old new)
    (once : ∀ x, load (Item.has x) new + (s'.handled.map Prod.fst).count x +
        (if x < s.accepted then 1 else 0) =
      load (Item.has x) old + (s.handled.map Prod.fst).count x + if x < s'.accepted then 1 else 0)
    (linked : ∀ x, s'.sessionList.count x + Option.hasSession x s'.adding +
        load (Item.linked x) old =
      s.sessionList.count x + Option.hasSession x s.adding + load (Item.linked x) new)
    (base : s'.userBase + load Item.base new + (if s.eventFd then 1 else 0) =
      s.userBase + load Item.base old + if s'.eventFd then 1 else 0)
    (ref : s'.ref + (if s.eventFd then 1 else 0 : ℕ) + load Item.counts old =
      s.ref + (if s'.eventFd then 1 else 0 : ℕ) + load Item.counts new)
    (drains : load Item.drains new + s'.unbound + (if s.ref = 0 then 1 else 0) =
      load Item.drains old + s.unbound + if s'.ref = 0 then 1 else 0)
    (res : ∀ x, s'.res x = outcome x ∨
      s'.res x = s.res x ∧ load (Item.carries x) new ≤ load (Item.carries x) old) :
    Books outcome s' where
  once := by
    intro x
    have hold := b.once x
    have hmove := moves (Item.has x)
    have hx := once x
    omega
  linked := by
    intro x
    have hold := b.linked x
    have hmove := moves (Item.linked x)
    have hx := linked x
    omega
  base := by
    have hold := b.base
    have hmove := moves Item.base
    omega
  ref := by
    have hold := b.ref
    have hmove := moves Item.counts
    omega
  drains := by
    have hold := b.drains
    have hmove := moves Item.drains
    omega
  res := by
    intro x hx
    have hmove := moves (Item.carries x)
    rcases res x with hnew | ⟨hsame, hle⟩
    · exact hnew
    · exact hsame.trans (b.res x (by omega))

theorem State.userBase_of_node (h : s.node ≠ .gone) : s.userBase = 1 :=
  if_neg (fun hgone => h hgone.1)

theorem worker_le_tally (f : Item → ℕ) {w : Worker} (hw : w ∈ s.workers) :
    f (.worker w) ≤ s.tally f :=
  (le_load (fun w => f (.worker w)) hw).trans (Nat.le_add_left _ _)

theorem Inv.shut (inv : Inv outcome s) (h : 0 < s.tally Item.drains + s.unbound) :
    s.ref = 0 ∧ s.eventFd = false ∧ s.node = .gone ∧ s.adding = none := by
  have hdrains := inv.drains
  have href : s.ref = 0 := by
    by_contra hne
    rw [if_neg hne] at hdrains
    omega
  have hsum := inv.ref
  have hbase := inv.base
  have hfd : s.eventFd = false := by
    by_contra hne
    rw [if_pos (by simpa using hne)] at hsum
    omega
  have hnode : s.node = .gone := by
    by_contra hne
    have huser := State.userBase_of_node hne
    rw [hfd, if_neg Bool.false_ne_true] at hbase
    omega
  exact ⟨href, hfd, hnode, inv.unlocked hfd⟩

theorem Inv.shut_of_unbound (inv : Inv outcome s) (h : 0 < s.unbound) :
    s.ref = 0 ∧ s.eventFd = false ∧ s.node = .gone ∧ s.adding = none :=
  inv.shut (h.trans_le (Nat.le_add_left _ _))

theorem Inv.shut_of_mem (inv : Inv outcome s) {w : Worker} (hw : w ∈ s.workers)
    (hd : w.drains = 1) :
    s.ref = 0 ∧ s.eventFd = false ∧ s.node = .gone ∧ s.adding = none := by
  have hle : w.drains ≤ _ := worker_le_tally Item.drains hw
  exact inv.shut (by omega)

/-! ## Requests and the kernel -/

theorem isSession_next (x n : ℕ) :
    (if x < n + 1 then 1 else 0) = (if x < n then 1 else 0) + isSession x n := by
  have hx : isSession x n = if n = x then 1 else 0 := rfl
  rw [hx]
  split_ifs <;> omega

theorem Inv.request (inv : Inv outcome s) (hadding : s.adding = none) (ok : Bool) :
    Inv outcome (s.request ok) := by
  unfold State.request
  split_ifs with h
  · refine
      { inv with
        toBooks := inv.move [] [.kernel s.accepted] ?_ ?_ ?_ rfl rfl rfl
          (fun _ => .inr ⟨rfl, le_rfl⟩)
        unlocked := fun hfd => absurd (hfd.symm.trans h.1) (by decide) }
    · intro f
      simp only [State.tally, load_append, load_cons, load_nil]
      omega
    · intro x
      simp only [isSession_next, load_cons, load_nil, Item.has]
      omega
    · intro x
      rw [hadding]
      rfl
  · exact inv

theorem Inv.link (inv : Inv outcome s) {session : SessionId} (h : s.adding = some session) :
    Inv outcome { s with sessionList := s.sessionList ++ [session], adding := none } := by
  refine
    { inv with
      linked := ?_
      ended := ?_
      unlocked := fun _ => rfl }
  · intro x
    refine Eq.trans ?_ (inv.linked x)
    simp only [h, Option.hasSession, isSession, count_append, count_singleton, beq_iff_eq]
    rfl
  · intro hun
    obtain ⟨_, _, _, hnone⟩ := inv.shut_of_unbound hun
    rw [h] at hnone
    cases hnone

theorem Inv.complete (inv : Inv outcome s) {session : SessionId} (h : session ∈ s.inflight) :
    Inv outcome { s with
      inflight := s.inflight.erase session
      ring := s.ring ++ [session]
      unsignalled := s.unsignalled + 1 } := by
  refine
    { inv with
      toBooks := inv.move [.kernel session] [.ring session] ?_ (fun _ => rfl)
        (fun _ => rfl) rfl rfl rfl (fun _ => .inr ⟨rfl, le_rfl⟩)
      signals := ?_
      awake := ?_ }
  · intro f
    have herase := load_erase (fun y => f (.kernel y)) h
    simp only [State.tally, load_append, load_cons, load_nil] at herase ⊢
    omega
  · intro hn
    have hsig := inv.signals hn
    simp only [length_append, length_singleton]
    omega
  · intro hn hl
    have haw := inv.awake hn hl
    simp only [length_append, length_singleton]
    omega

theorem Inv.signal (inv : Inv outcome s) (h : 0 < s.unsignalled) :
    Inv outcome { s with unsignalled := s.unsignalled - 1, eventCount := s.eventCount + 1 } := by
  refine
    { inv with
      signals := ?_
      awake := ?_ }
  · intro hn
    have hsig := inv.signals hn
    simp only
    omega
  · intro hn hl
    have haw := inv.awake hn hl
    simp only
    omega

/-! ## The poller thread -/

def PollerThread.session : PollerThread → Option SessionId
  | .reaped y _ | .counted y _ => some y
  | _ => none

theorem PollerThread.weightless {p : PollerThread} (h : p.session = none) (x : SessionId) :
    p.has x = 0 ∧ p.carries x = 0 ∧ p.counts = 0 := by
  cases p with
  | idle | event | leaving => exact ⟨rfl, rfl, rfl⟩
  | reaped | counted => cases h

theorem Inv.withPoller (inv : Inv outcome s) {p : PollerThread} (eventCount : ℕ)
    (hold : s.poller.session = none) (hnew : p.session = none)
    (hpolling : p ≠ .idle → s.node ≠ .gone)
    (hsignals : s.node ≠ .gone → eventCount + p.cnt ≤ s.eventCount + s.poller.cnt)
    (hawake : s.node = .registered → p.isLeaving = false → s.poller.isLeaving = false ∧
      s.eventCount + s.poller.cnt ≤ eventCount + p.cnt) :
    Inv outcome { s with eventCount := eventCount, poller := p } := by
  have hzero := fun x => PollerThread.weightless hold x
  have hzero' := fun x => PollerThread.weightless hnew x
  refine
    { inv with
      toBooks := inv.move [.poller s.poller] [.poller p] ?_ ?_ ?_ rfl ?_ rfl ?_
      polling := hpolling
      signals := ?_
      awake := ?_ }
  · intro f
    simp only [State.tally, load_cons, load_nil]
    omega
  · intro x
    simp only [load_cons, Item.has, hzero x, hzero' x]
  · intro x
    simp only [load_cons, Item.linked, Item.has, hzero x, hzero' x]
  · simp only [load_cons, Item.counts, hzero 0, hzero' 0]
  · intro x
    refine .inr ⟨rfl, ?_⟩
    simp only [load_cons, Item.carries, hzero x, hzero' x]
    exact le_rfl
  · intro hn
    have hsig := inv.signals hn
    have hle := hsignals hn
    simp only
    omega
  · intro hn hl
    obtain ⟨hl', hle⟩ := hawake hn hl
    have haw := inv.awake hn hl'
    simp only
    omega

theorem Inv.pollRead (inv : Inv outcome s) (hidle : s.poller = .idle) (hnode : s.node ≠ .gone)
    (ok : Bool) :
    Inv outcome { s with
      eventCount := 0
      poller := if ok then .event s.eventCount else .leaving s.eventCount } := by
  refine inv.withPoller _ (by rw [hidle]; rfl) (by cases ok <;> rfl) (fun _ => hnode) ?_ ?_
  · intro _
    rw [hidle]
    cases ok <;> simp [PollerThread.cnt]
  · intro _ hl
    rw [hidle]
    cases ok
    · cases hl
    · simp [PollerThread.cnt, PollerThread.isLeaving]

theorem Inv.aioFinish (inv : Inv outcome s) {session : SessionId} {cnt : ℕ}
    (hp : s.poller = .event (cnt + 1)) (h : session ∈ s.ring) :
    Inv outcome { s with ring := s.ring.erase session, poller := .reaped session cnt } := by
  have hlen := length_erase_of_mem h
  have hpos := length_pos_of_mem h
  refine
    { inv with
      toBooks := inv.move [.ring session, .poller (.event (cnt + 1))]
        [.poller (.reaped session cnt)] ?_ (fun _ => rfl) (fun _ => rfl) rfl rfl rfl
        (fun _ => .inr ⟨rfl, le_rfl⟩)
      polling := fun _ => inv.polling (by simp [hp])
      signals := ?_
      awake := ?_ }
  · intro f
    have herase := load_erase (fun y => f (.ring y)) h
    simp only [State.tally, hp, load_cons, load_nil] at herase ⊢
    omega
  · intro hn
    have hsig := inv.signals hn
    rw [hp] at hsig
    simp only [PollerThread.cnt] at hsig ⊢
    omega
  · intro hn _
    have haw := inv.awake hn (by rw [hp]; rfl)
    rw [hp] at haw
    simp only [PollerThread.cnt] at haw ⊢
    omega

theorem Inv.aioFails (inv : Inv outcome s) {cnt : ℕ} (hp : s.poller = .event (cnt + 1)) :
    Inv outcome { s with poller := .leaving cnt } := by
  refine inv.withPoller s.eventCount (by rw [hp]; rfl) rfl
    (fun _ => inv.polling (by simp [hp])) ?_ (by rintro - ⟨⟩)
  intro _
  rw [hp]
  simp [PollerThread.cnt]

theorem Inv.pollReturn (inv : Inv outcome s) (hp : s.poller = .event 0) :
    Inv outcome { s with poller := .idle } := by
  refine inv.withPoller s.eventCount (by rw [hp]; rfl) rfl
    (fun h => absurd rfl h) ?_ ?_
  · intro _
    rw [hp]
    exact le_rfl
  · intro _ _
    rw [hp]
    exact ⟨rfl, le_rfl⟩

theorem Inv.incref (inv : Inv outcome s) {session : SessionId} {cnt : ℕ}
    (hp : s.poller = .reaped session cnt) :
    Inv outcome { s with
      ref := s.ref + 1
      res := update s.res session (outcome session)
      poller := .counted session cnt } := by
  have hnode : s.node ≠ .gone := inv.polling (by simp [hp])
  -- the poller's node still holds the reference of `io_bind`
  have hpos : 0 < s.ref := by
    have href := inv.ref
    have hbase := inv.base
    have huser := State.userBase_of_node hnode
    omega
  refine
    { inv with
      toBooks := inv.move [.poller (.reaped session cnt)]
        [.poller (.counted session cnt)] ?_ (fun _ => rfl) (fun _ => rfl) rfl ?_ ?_ ?_
      polling := fun _ => hnode
      signals := ?_
      awake := ?_ }
  · intro f
    simp only [State.tally, hp, load_cons, load_nil]
    omega
  · simp only [load_cons, load_nil, Item.counts, PollerThread.counts]
    omega
  · rw [if_neg hpos.ne', if_neg (by simp only; omega)]
    rfl
  · intro x
    by_cases hx : x = session
    · rw [hx]
      exact .inl (update_self _ _ _)
    · refine .inr ⟨update_of_ne hx _ _, ?_⟩
      have hzero : isSession x session = 0 := if_neg (fun h => hx h.symm)
      simp [Item.carries, PollerThread.carries, hzero]
  · intro hn
    have hsig := inv.signals hn
    rw [hp] at hsig
    exact hsig
  · intro hn _
    have haw := inv.awake hn (by rw [hp]; rfl)
    rw [hp] at haw
    exact haw

theorem Inv.callback (inv : Inv outcome s) {session : SessionId} {cnt : ℕ}
    (hp : s.poller = .counted session cnt) (ok : Bool) :
    Inv outcome { s with
      results := s.results ++ [.success session]
      poller := if ok then .event cnt else .leaving cnt } := by
  have hmoves : ∀ p, Moves s { s with results := s.results ++ [.success session], poller := p }
      [.poller (.counted session cnt)] [.result (.success session), .poller p] := by
    intro p f
    simp only [State.tally, hp, load_append, load_cons, load_nil]
    omega
  cases ok
  all_goals
    refine
      { inv with
        toBooks := inv.move _ _ (hmoves _) (fun _ => rfl) (fun _ => rfl) rfl rfl rfl
          (fun _ => .inr ⟨rfl, le_rfl⟩)
        polling := fun _ => inv.polling (by simp [hp])
        signals := ?_
        awake := ?_ }
    · intro hn
      have hsig := inv.signals hn
      rw [hp] at hsig
      exact hsig
    · intro hn _
      have haw := inv.awake hn (by rw [hp]; rfl)
      rw [hp] at haw
      exact haw

theorem Inv.leave (inv : Inv outcome s) (hold : s.poller.session = none) {r : Result}
    (hnode : s.node ≠ .gone)
    (hr : (∀ x, r.has x = 0) ∧ r.counts = 0 ∧ r.base = if s.unbinding then 1 else 0)
    (eventCount : ℕ) :
    Inv outcome { s with
      eventCount := eventCount
      poller := .idle
      node := .gone
      results := s.results ++ [r] } := by
  have hzero := fun x => PollerThread.weightless hold x
  have hidle := fun x => PollerThread.weightless (p := .idle) rfl x
  have huser := State.userBase_of_node hnode
  obtain ⟨hhas, hcounts, hbase⟩ := hr
  refine
    { inv with
      toBooks := inv.move [.poller s.poller] [.poller .idle, .result r]
        ?_ ?_ ?_ ?_ ?_ rfl ?_
      polling := fun h => absurd rfl h
      registered := by simp
      deleted := by simp
      signals := fun h => absurd rfl h
      awake := by simp }
  · intro f
    simp only [State.tally, load_append, load_cons, load_nil]
    omega
  · intro x
    simp only [load_cons, load_nil, Item.has, hzero x, hidle x, hhas x]
  · intro x
    simp only [load_cons, load_nil, Item.linked, Item.has, hzero x, hidle x, hhas x]
  · rw [huser]
    simp only [State.userBase, load_cons, load_nil, Item.base, hbase, true_and]
    split_ifs <;> omega
  · simp only [load_cons, load_nil, Item.counts, hzero 0, hidle 0, hcounts]
  · intro x
    refine .inr ⟨rfl, ?_⟩
    simp only [load_cons, load_nil, Item.carries, hhas x, hidle x]
    omega

theorem Inv.pollLeave (inv : Inv outcome s) {cnt : ℕ} (hp : s.poller = .leaving cnt) :
    Inv outcome (s.pollLeave cnt) := by
  have hold : s.poller.session = none := by rw [hp]; rfl
  unfold State.pollLeave
  cases hnode : s.node with
  | registered =>
    have hr : Result.base .error = if s.unbinding then 1 else 0 := by
      rw [inv.registered hnode]
      rfl
    simpa [hnode] using inv.leave hold (by simp [hnode]) ⟨fun _ => rfl, rfl, hr⟩
      (s.eventCount + cnt)
  | gone => exact absurd hnode (inv.polling (by simp [hp]))
  | deleted =>
    have hinv : Inv outcome { s with eventCount := s.eventCount + cnt, poller := .idle } := by
      refine inv.withPoller _ hold rfl (fun h => absurd rfl h) ?_ (by simp [hnode])
      intro _
      rw [hp]
      exact le_rfl
    simpa [hnode] using hinv

theorem Inv.leaveIdle (inv : Inv outcome s) (hp : s.poller = .idle) (hnode : s.node ≠ .gone)
    {r : Result} (hr : (∀ x, r.has x = 0) ∧ r.counts = 0 ∧ r.base = if s.unbinding then 1 else 0) :
    Inv outcome { s with node := .gone, results := s.results ++ [r] } := by
  have hinv := inv.leave (by rw [hp]; rfl) hnode hr s.eventCount
  rw [← hp] at hinv
  exact hinv

theorem Inv.pollStop (inv : Inv outcome s) (hp : s.poller = .idle) (hnode : s.node = .registered) :
    Inv outcome { s with node := .gone, results := s.results ++ [.stopped] } :=
  inv.leaveIdle hp (by simp [hnode]) ⟨fun _ => rfl, rfl, by rw [inv.registered hnode]; rfl⟩

theorem Inv.pollPipe (inv : Inv outcome s) (hp : s.poller = .idle) (hnode : s.node = .deleted) :
    Inv outcome { s with node := .gone, results := s.results ++ [.deleted] } :=
  inv.leaveIdle hp (by simp [hnode]) ⟨fun _ => rfl, rfl, by rw [inv.deleted hnode]; rfl⟩

/-! ## Unbinding and the handler threads -/

theorem Inv.ioUnbind (inv : Inv outcome s) (h : s.unbinding = false) :
    Inv outcome s.ioUnbind := by
  unfold State.ioUnbind
  cases hnode : s.node with
  | registered =>
    have huser := State.userBase_of_node (s := s) (by simp [hnode])
    have hinv : Inv outcome { s with unbinding := true, node := .deleted } := by
      refine
        { inv with
          base := ?_
          polling := by simp
          registered := by simp
          deleted := fun _ => rfl
          signals := fun _ => inv.signals (by simp [hnode])
          awake := by simp }
      rw [← inv.base, huser]
      rfl
    simpa [hnode] using hinv
  | deleted => exact absurd (inv.deleted hnode) (by rw [h]; decide)
  | gone =>
    have hinv : Inv outcome { s with unbinding := true, workers := .closing :: s.workers } := by
      refine
        { inv with
          toBooks := inv.move [] [.worker .closing] ?_ (fun _ => rfl)
            (fun _ => rfl) ?_ rfl rfl (fun _ => .inr ⟨rfl, le_rfl⟩)
          registered := by intro hr; rw [hnode] at hr; cases hr
          deleted := fun _ => rfl }
      · intro f
        simp only [State.tally, load_cons, load_nil]
        omega
      · simp only [State.userBase, hnode, h]
        rfl
    simpa [hnode] using hinv

theorem Inv.take (inv : Inv outcome s) {r : Result} (h : r ∈ s.results) :
    Inv outcome { s with results := s.results.erase r, workers := r.workers ++ s.workers } := by
  have hmoves : Moves s { s with results := s.results.erase r, workers := r.workers ++ s.workers }
      [.result r] (r.workers.map .worker) := by
    intro f
    have herase := load_erase (fun r => f (.result r)) h
    have hmap : load f (r.workers.map .worker) = load (fun w => f (.worker w)) r.workers := by
      rw [load, map_map]
      rfl
    simp only [State.tally, load_append, load_cons, load_nil, hmap] at herase ⊢
    omega
  refine { inv with toBooks := inv.move _ _ hmoves ?_ ?_ ?_ ?_ ?_ ?_ }
  · cases r <;> exact fun _ => rfl
  · cases r <;> exact fun _ => rfl
  · cases r <;> rfl
  · cases r <;> rfl
  · cases r <;> rfl
  · cases r <;> exact fun _ => .inr ⟨rfl, le_rfl⟩

theorem count_erase_session {y : SessionId} {l : List SessionId} (h : y ∈ l) (x : SessionId) :
    (l.erase y).count x + isSession x y = l.count x := by
  have hp := (perm_cons_erase h).count_eq x
  rw [count_cons] at hp
  simp only [beq_iff_eq] at hp
  rw [hp, isSession]

theorem count_handled (l : List (SessionId × IosState × ℤ)) (y : SessionId) (args : IosState × ℤ)
    (x : SessionId) :
    ((l ++ [(y, args)]).map Prod.fst).count x = (l.map Prod.fst).count x + isSession x y := by
  rw [map_append, count_append, isSession]
  simp [count_singleton]

theorem moves_worker {w : Worker} (hw : w ∈ s.workers) (new : List Worker)
    (hworkers : s'.workers = replace w new s.workers)
    (hsame : s'.inflight = s.inflight ∧ s'.ring = s.ring ∧ s'.poller = s.poller ∧
      s'.results = s.results) : Moves s s' [.worker w] (new.map .worker) := by
  intro f
  obtain ⟨h₁, h₂, h₃, h₄⟩ := hsame
  have hload := load_replace (fun w => f (.worker w)) hw new
  have hmap : load f (new.map .worker) = load (fun w => f (.worker w)) new := by
    rw [load, map_map]
    rfl
  simp only [State.tally, hworkers, h₁, h₂, h₃, h₄, hmap, load_cons, load_nil]
  omega

theorem Inv.mem_sessionList (inv : Inv outcome s) (hadding : s.adding = none) {w : Worker}
    (hw : w ∈ s.workers) {y : SessionId} (hy : 0 < w.linked y) : y ∈ s.sessionList := by
  have hlinked := inv.linked y
  have hle : w.linked y ≤ _ := worker_le_tally (Item.linked y) hw
  rw [hadding] at hlinked
  simp only [Option.hasSession] at hlinked
  exact count_pos_iff.mp (by omega)

theorem Inv.unlinking (inv : Inv outcome s) {y : SessionId} (hadding : s.adding = none)
    (h : .unlinking y ∈ s.workers) :
    Inv outcome { s with
      sessionList := s.sessionList.erase y
      workers := replace (.unlinking y) [.handling y] s.workers } := by
  have hmem := inv.mem_sessionList hadding h (y := y) (by simp [Worker.linked])
  refine
    { inv with
      toBooks := inv.move _ _ (moves_worker h [.handling y] rfl ⟨rfl, rfl, rfl, rfl⟩) (fun _ => rfl) ?_
        rfl rfl rfl (fun _ => .inr ⟨rfl, le_rfl⟩)
      ended := fun hun => by simp only [inv.ended hun, erase_nil] }
  intro x
  have hcount := count_erase_session hmem x
  simp only [map_cons, map_nil, load_cons, load_nil, Item.linked, Worker.linked]
  omega

theorem args_append (inv : Inv outcome s) (y : SessionId) :
    ∀ call ∈ s.handled ++ [(y, handleArgs (outcome y))], call.2 = handleArgs (outcome call.1) := by
  intro call hcall
  rcases mem_append.mp hcall with hold | hnew
  · exact inv.args call hold
  · rw [mem_singleton.mp hnew]

theorem Inv.handling (inv : Inv outcome s) {y : SessionId} (h : .handling y ∈ s.workers) :
    Inv outcome { s with
      handled := s.handled ++ [(y, handleArgs (s.res y))]
      workers := replace (.handling y) [.releasing] s.workers } := by
  have hres : s.res y = outcome y := by
    have hle := worker_le_tally (Item.carries y) h
    simp only [Item.carries, Worker.carries, isSession_self] at hle
    exact inv.res y hle
  rw [hres]
  refine
    { inv with
      toBooks := inv.move _ _ (moves_worker h [.releasing] rfl ⟨rfl, rfl, rfl, rfl⟩) ?_ (fun _ => rfl)
        rfl rfl rfl (fun _ => .inr ⟨rfl, Nat.zero_le _⟩)
      args := args_append inv y }
  intro x
  simp only [count_handled, map_cons, map_nil, load_cons, load_nil, Item.has, Worker.has]
  omega

theorem Inv.closing (inv : Inv outcome s) (hadding : s.adding = none) (h : .closing ∈ s.workers) :
    Inv outcome { s with eventFd := false, workers := replace .closing [.releasing] s.workers } := by
  -- the reference of `io_bind` is in the hands of this thread, so nobody else has shut down
  have hfd : s.eventFd = true := by
    have hbase := inv.base
    have hle := worker_le_tally Item.base h
    simp only [Item.base, Worker.base] at hle
    by_contra hne
    rw [if_neg hne] at hbase
    omega
  exact
    { inv with
      toBooks := inv.move _ _ (moves_worker h [.releasing] rfl ⟨rfl, rfl, rfl, rfl⟩) (fun _ => rfl)
        (fun _ => rfl) (by rw [hfd]; rfl) (by simp [hfd, Item.counts, Worker.counts]) rfl
        (fun _ => .inr ⟨rfl, le_rfl⟩)
      unlocked := fun _ => hadding }

theorem Inv.releasing (inv : Inv outcome s) (h : .releasing ∈ s.workers) :
    Inv outcome { s with
      ref := s.ref - 1
      workers := replace .releasing (if s.ref - 1 = 0 then [.draining] else []) s.workers } := by
  have hpos : 0 < s.ref := by
    have href := inv.ref
    have hle := worker_le_tally Item.counts h
    simp only [Item.counts, Worker.counts] at hle
    omega
  by_cases hlast : s.ref - 1 = 0
  · rw [if_pos hlast]
    refine { inv with
      toBooks := inv.move _ _ (moves_worker h [.draining] rfl ⟨rfl, rfl, rfl, rfl⟩) (fun _ => rfl)
        (fun _ => rfl) rfl ?_ ?_ (fun _ => .inr ⟨rfl, le_rfl⟩) }
    · simp only [map_cons, map_nil, load_cons, load_nil, Item.counts, Worker.counts]
      omega
    · rw [if_neg hpos.ne', if_pos hlast]
      simp only [map_cons, map_nil, load_cons, load_nil, Item.drains, Worker.drains]
      omega
  · rw [if_neg hlast]
    refine { inv with
      toBooks := inv.move _ _ (moves_worker h [] rfl ⟨rfl, rfl, rfl, rfl⟩) (fun _ => rfl)
        (fun _ => rfl) rfl ?_ ?_ (fun _ => .inr ⟨rfl, le_rfl⟩) }
    · simp only [map_nil, load_cons, load_nil, Item.counts, Worker.counts]
      omega
    · rw [if_neg hpos.ne', if_neg hlast]
      rfl

theorem Inv.draining (inv : Inv outcome s) (h : .draining ∈ s.workers)
    (hlist : s.sessionList = []) :
    Inv outcome { s with
      unbound := s.unbound + 1
      workers := replace .draining [] s.workers } := by
  refine
    { inv with
      toBooks := inv.move _ _ (moves_worker h [] rfl ⟨rfl, rfl, rfl, rfl⟩) (fun _ => rfl)
        (fun _ => rfl) rfl rfl ?_ (fun _ => .inr ⟨rfl, le_rfl⟩)
      ended := fun _ => hlist }
  simp only [map_nil, load_cons, load_nil, Item.drains, Worker.drains]
  omega

theorem Inv.drained (inv : Inv outcome s) {y : SessionId} (h : .drained y ∈ s.workers) :
    Inv outcome { s with
      sessionList := s.sessionList.erase y
      res := update s.res y (outcome y)
      handled := s.handled ++ [(y, handleArgs (outcome y))]
      workers := replace (.drained y) [.draining] s.workers } := by
  obtain ⟨_, _, _, hadding⟩ := inv.shut_of_mem h rfl
  have hmem := inv.mem_sessionList hadding h (y := y) (by simp [Worker.linked])
  refine
    { inv with
      toBooks := inv.move _ _ (moves_worker h [.draining] rfl ⟨rfl, rfl, rfl, rfl⟩) ?_ ?_ rfl rfl rfl ?_
      ended := fun hun => by simp only [inv.ended hun, erase_nil]
      args := args_append inv y }
  · intro x
    simp only [count_handled, map_cons, map_nil, load_cons, load_nil, Item.has, Worker.has]
    omega
  · intro x
    have hcount := count_erase_session hmem x
    simp only [map_cons, map_nil, load_cons, load_nil, Item.linked, Worker.linked]
    omega
  · intro x
    by_cases hx : x = y
    · rw [hx]
      exact .inl (update_self _ _ _)
    · exact .inr ⟨update_of_ne hx _ _, Nat.zero_le _⟩

theorem Inv.drain (inv : Inv outcome s) {y : SessionId} (h : .draining ∈ s.workers)
    (hring : y ∈ s.ring) :
    Inv outcome { s with
      ring := s.ring.erase y
      workers := replace .draining [.drained y] s.workers } := by
  obtain ⟨_, _, hnode, _⟩ := inv.shut_of_mem h rfl
  refine
    { inv with
      toBooks := inv.move [.ring y, .worker .draining] [.worker (.drained y)] ?_
        (fun _ => rfl) (fun _ => rfl) rfl rfl rfl (fun _ => .inr ⟨rfl, le_rfl⟩)
      signals := fun hn => absurd hnode hn
      awake := by intro hn; rw [hnode] at hn; cases hn }
  intro f
  have herase := load_erase (fun y => f (.ring y)) hring
  have hload := load_replace (fun w => f (.worker w)) h [.drained y]
  simp only [State.tally, load_cons, load_nil] at herase hload ⊢
  omega

theorem Inv.work (inv : Inv outcome s) {w : Worker} (hw : w ∈ s.workers)
    (h : s.work outcome w = some s') : Inv outcome s' := by
  cases w with
  | unlinking y =>
    obtain ⟨hadding, rfl⟩ := of_guard h
    exact inv.unlinking hadding hw
  | handling y =>
    cases h
    exact inv.handling hw
  | closing =>
    obtain ⟨hadding, rfl⟩ := of_guard h
    exact inv.closing hadding hw
  | releasing =>
    cases h
    exact inv.releasing hw
  | draining =>
    obtain ⟨hlist, rfl⟩ := of_guard h
    exact inv.draining hw hlist
  | drained y =>
    cases h
    exact inv.drained hw

theorem step_inv (inv : Inv outcome s) {op : Op} (h : step outcome s op = some s') :
    Inv outcome s' := by
  cases op with
  | request ok =>
    obtain ⟨hadding, rfl⟩ := of_guard h
    exact inv.request hadding ok
  | link =>
    simp only [step] at h
    split at h
    · next hadding =>
      cases h
      exact inv.link hadding
    · cases h
  | complete session =>
    obtain ⟨hmem, rfl⟩ := of_guard h
    exact inv.complete hmem
  | signal =>
    obtain ⟨hpos, rfl⟩ := of_guard h
    exact inv.signal hpos
  | pollRead ok =>
    simp only [step] at h
    split at h
    · next hguard =>
      cases h
      exact inv.pollRead hguard.1 hguard.2.1 ok
    · cases h
  | aioFinish session =>
    cases session with
    | some y =>
      simp only [step] at h
      split at h
      · next hp =>
        split_ifs at h with hmem
        cases h
        exact inv.aioFinish hp hmem
      · cases h
    | none =>
      simp only [step] at h
      split at h
      · next hp =>
        cases h
        exact inv.aioFails hp
      · cases h
  | incref =>
    simp only [step] at h
    split at h
    · next hp =>
      cases h
      exact inv.incref hp
    · cases h
  | callback ok =>
    simp only [step] at h
    split at h
    · next hp =>
      cases h
      exact inv.callback hp ok
    · cases h
  | pollReturn =>
    obtain ⟨hp, rfl⟩ := of_guard h
    exact inv.pollReturn hp
  | pollLeave =>
    simp only [step] at h
    split at h
    · next hp =>
      cases h
      exact inv.pollLeave hp
    · cases h
  | pollPipe =>
    obtain ⟨hguard, rfl⟩ := of_guard h
    exact inv.pollPipe hguard.1 hguard.2
  | pollStop =>
    obtain ⟨hguard, rfl⟩ := of_guard h
    exact inv.pollStop hguard.1 hguard.2
  | ioUnbind =>
    obtain ⟨hun, rfl⟩ := of_guard h
    exact inv.ioUnbind hun
  | take r =>
    obtain ⟨hmem, rfl⟩ := of_guard h
    exact inv.take hmem
  | work w =>
    simp only [step] at h
    split_ifs at h with hmem
    exact inv.work hmem h
  | drain y =>
    obtain ⟨hguard, rfl⟩ := of_guard h
    exact inv.drain hguard.1 hguard.2.2

theorem reachable_inv (h : Reachable (step outcome) State.init s) : Inv outcome s :=
  h.invariant (init_inv outcome) fun _ _ _ inv _ hs => step_inv inv hs

/-! ## Shutdown is final -/

theorem step_closed (hfd : s.eventFd = false) {op : Op} (h : step outcome s op = some s') :
    s'.accepted = s.accepted ∧ s'.eventFd = false := by
  cases op with
  | request ok =>
    obtain ⟨-, rfl⟩ := of_guard h
    simp [State.request, hfd]
  | link =>
    simp only [step] at h
    split at h <;> cases h
    exact ⟨rfl, hfd⟩
  | pollRead ok =>
    simp only [step] at h
    split at h <;> cases h
    exact ⟨rfl, hfd⟩
  | aioFinish session =>
    cases session with
    | some y =>
      simp only [step] at h
      split at h
      · split_ifs at h
        cases h
        exact ⟨rfl, hfd⟩
      · cases h
    | none =>
      simp only [step] at h
      split at h <;> cases h
      exact ⟨rfl, hfd⟩
  | incref =>
    simp only [step] at h
    split at h <;> cases h
    exact ⟨rfl, hfd⟩
  | callback ok =>
    simp only [step] at h
    split at h <;> cases h
    exact ⟨rfl, hfd⟩
  | pollLeave =>
    simp only [step] at h
    split at h
    · cases h
      simp only [State.pollLeave]
      split <;> exact ⟨rfl, hfd⟩
    · cases h
  | ioUnbind =>
    obtain ⟨-, rfl⟩ := of_guard h
    simp only [State.ioUnbind]
    split <;> exact ⟨rfl, hfd⟩
  | work w =>
    simp only [step] at h
    split_ifs at h
    cases w <;> simp only [State.work] at h <;> (try split_ifs at h) <;> cases h <;>
      first | exact ⟨rfl, hfd⟩ | exact ⟨rfl, rfl⟩
  | _ =>
    obtain ⟨-, rfl⟩ := of_guard h
    exact ⟨rfl, hfd⟩

/-! ## Every run of the threads ends -/

def Op.own : Op → Bool
  | .request _ => false
  | .pollRead ok => ok
  | .aioFinish session => session.isSome
  | .callback ok => ok
  | .pollStop => false
  | .ioUnbind => false
  | _ => true

def Result.rank : Result → ℕ
  | .success _ => 7
  | .deleted => 4
  | .error => 1
  | .stopped => 1

def Worker.rank : Worker → ℕ
  | .unlinking _ => 6
  | .handling _ => 5
  | .closing => 3
  | .releasing => 2
  | .draining => 1
  | .drained _ => 5

def PollerThread.rank : PollerThread → ℕ
  | .idle => 0
  | .event cnt => cnt + 1
  | .reaped _ cnt => cnt + 10
  | .counted _ cnt => cnt + 9
  | .leaving cnt => 3 * cnt + 10

def Node.rank : Node → ℕ
  | .deleted => 5
  | _ => 0

def State.potential (s : State) : ℕ :=
  15 * s.inflight.length + 10 * s.ring.length + 4 * s.unsignalled + 3 * s.eventCount +
    s.node.rank + s.poller.rank + load Result.rank s.results + load Worker.rank s.workers +
    s.adding.toList.length

theorem Result.workers_rank (r : Result) : load Worker.rank r.workers < r.rank := by
  cases r <;> simp [Result.workers, Worker.rank, Result.rank]

theorem work_descends {w : Worker} (hw : w ∈ s.workers) (h : s.work outcome w = some s') :
    s'.potential < s.potential := by
  obtain ⟨new, hnew, hworkers⟩ : ∃ new, load Worker.rank new < w.rank ∧ s'.potential +
      load Worker.rank s.workers = s.potential + load Worker.rank (replace w new s.workers) := by
    cases w with
    | unlinking y =>
      obtain ⟨-, rfl⟩ := of_guard h
      exact ⟨[.handling y], by simp [Worker.rank], by simp only [State.potential]; omega⟩
    | handling y =>
      cases h
      exact ⟨[.releasing], by simp [Worker.rank], by simp only [State.potential]; omega⟩
    | closing =>
      obtain ⟨-, rfl⟩ := of_guard h
      exact ⟨[.releasing], by decide, by simp only [State.potential]; omega⟩
    | releasing =>
      cases h
      refine ⟨if s.ref - 1 = 0 then [.draining] else [], ?_, by simp only [State.potential]; omega⟩
      split_ifs <;> decide
    | draining =>
      obtain ⟨-, rfl⟩ := of_guard h
      exact ⟨[], by decide, by simp only [State.potential]; omega⟩
    | drained y =>
      cases h
      exact ⟨[.draining], by simp [Worker.rank], by simp only [State.potential]; omega⟩
  have hload := load_replace Worker.rank hw new
  omega

theorem length_erase_lt {α : Type} [BEq α] [LawfulBEq α] {x : α} {l : List α} (h : x ∈ l) :
    (l.erase x).length + 1 = l.length := by
  have hlen := length_erase_of_mem h
  have hpos := length_pos_of_mem h
  omega

theorem own_descends {op : Op} (hown : op.own = true) (h : step outcome s op = some s') :
    s'.potential < s.potential := by
  cases op with
  | request | pollStop | ioUnbind => cases hown
  | link =>
    simp only [step] at h
    split at h
    · next hadding =>
      cases h
      simp [State.potential, hadding]
    · cases h
  | complete y =>
    obtain ⟨hmem, rfl⟩ := of_guard h
    have hlen := length_erase_lt hmem
    simp only [State.potential, length_append, length_singleton]
    omega
  | signal =>
    obtain ⟨hpos, rfl⟩ := of_guard h
    simp only [State.potential]
    omega
  | pollRead ok =>
    obtain rfl : ok = true := hown
    obtain ⟨hguard, rfl⟩ := of_guard h
    obtain ⟨hidle, _, hpos⟩ := hguard
    simp only [State.potential, hidle, PollerThread.rank, ↓reduceIte]
    omega
  | aioFinish session =>
    cases session with
    | none => cases hown
    | some y =>
      simp only [step] at h
      split at h
      · next hp =>
        split_ifs at h with hmem
        cases h
        have hlen := length_erase_lt hmem
        simp only [State.potential, hp, PollerThread.rank]
        omega
      · cases h
  | incref =>
    simp only [step] at h
    split at h
    · next hp =>
      cases h
      simp only [State.potential, hp, PollerThread.rank]
      omega
    · cases h
  | callback ok =>
    obtain rfl : ok = true := hown
    simp only [step] at h
    split at h
    · next hp =>
      cases h
      simp only [State.potential, hp, PollerThread.rank, load_append, load_cons, load_nil,
        Result.rank, ↓reduceIte]
      omega
    · cases h
  | pollReturn =>
    obtain ⟨hp, rfl⟩ := of_guard h
    simp only [State.potential, hp, PollerThread.rank]
    omega
  | pollLeave =>
    simp only [step] at h
    split at h
    · next hp =>
      cases h
      cases hnode : s.node <;>
        simp only [State.pollLeave, State.potential, hp, hnode, PollerThread.rank, Node.rank,
          load_append, load_cons, load_nil, Result.rank] <;> omega
    · cases h
  | pollPipe =>
    obtain ⟨hguard, rfl⟩ := of_guard h
    simp only [State.potential, hguard.2, Node.rank, load_append, load_cons, load_nil, Result.rank]
    omega
  | take r =>
    obtain ⟨hmem, rfl⟩ := of_guard h
    have herase := load_erase Result.rank hmem
    have hlt := r.workers_rank
    simp only [State.potential, load_append]
    omega
  | work w =>
    simp only [step] at h
    split_ifs at h with hmem
    exact work_descends hmem h
  | drain y =>
    obtain ⟨hguard, rfl⟩ := of_guard h
    have hlen := length_erase_lt hguard.2.2
    have hload := load_replace Worker.rank hguard.1 [.drained y]
    simp only [load_cons, load_nil, Worker.rank] at hload
    simp only [State.potential]
    omega

/-! ## Settled states -/

section Settled

theorem Inv.handled_all (inv : Inv outcome s) (h : ∀ x, s.tally (Item.has x) = 0)
    {x : SessionId} (hx : x < s.accepted) : (s.handled.map Prod.fst).count x = 1 := by
  have honce := inv.once x
  rw [h x, if_pos hx] at honce
  omega

theorem Inv.handled_of_unbound (inv : Inv outcome s) (h : 0 < s.unbound) {x : SessionId}
    (hx : x < s.accepted) : (s.handled.map Prod.fst).count x = 1 := by
  obtain ⟨href, hfd, _, hadding⟩ := inv.shut_of_unbound h
  apply inv.handled_all _ hx
  intro x
  have hlinked := inv.linked x
  have hsum := inv.ref
  rw [inv.ended h, hadding] at hlinked
  rw [href, hfd] at hsum
  -- with the count at 0 no thread is between `list_del` and `decref`
  have hworkers : load (Worker.has x) s.workers = load (Worker.linked x) s.workers := by
    rw [load, load]
    congr 1
    apply map_congr_left
    intro w hw
    have hle := worker_le_tally Item.counts hw
    cases w with
    | handling y => simp only [Item.counts, Worker.counts] at hle; omega
    | _ => rfl
  simp only [State.tally, Item.linked, Item.has] at hlinked ⊢
  rw [hworkers]
  exact hlinked.symm

variable (inv : Inv outcome s) (hquiet : ∀ op : Op, op.own = true → step outcome s op = none)

include hquiet in
theorem adding_of_quiet : s.adding = none := by
  have h := hquiet .link rfl
  simp only [step] at h
  split at h
  · cases h
  · assumption

include hquiet in
theorem inflight_of_quiet : s.inflight = [] := by
  apply eq_nil_iff_forall_not_mem.mpr
  intro y hy
  have h := hquiet (.complete y) rfl
  simp [step, hy] at h

include hquiet in
theorem results_of_quiet : s.results = [] := by
  apply eq_nil_iff_forall_not_mem.mpr
  intro r hr
  have h := hquiet (.take r) rfl
  simp [step, hr] at h

include inv hquiet in
theorem poller_of_quiet : s.poller = .idle := by
  cases hp : s.poller with
  | idle => rfl
  | event cnt =>
    cases cnt with
    | zero =>
      have h := hquiet .pollReturn rfl
      simp [step, hp] at h
    | succ cnt =>
      -- the events that were signalled are still in the ring
      have hsig := inv.signals (inv.polling (by simp [hp]))
      rw [hp, PollerThread.cnt] at hsig
      obtain ⟨y, hy⟩ := exists_mem_of_length_pos (by omega : 0 < s.ring.length)
      have h := hquiet (.aioFinish (some y)) rfl
      simp [step, hp, hy] at h
  | reaped y cnt =>
    have h := hquiet .incref rfl
    simp [step, hp] at h
  | counted y cnt =>
    have h := hquiet (.callback true) rfl
    simp [step, hp] at h
  | leaving cnt =>
    have h := hquiet .pollLeave rfl
    simp [step, hp] at h

include inv hquiet in
theorem workers_of_quiet : s.workers = [] := by
  have hadding := adding_of_quiet hquiet
  have hstuck : ∀ w ∈ s.workers, w = .draining ∧ s.sessionList ≠ [] := by
    intro w hw
    have h := hquiet (.work w) rfl
    cases w <;> simp [step, hw, State.work, hadding] at h
    exact ⟨rfl, h⟩
  apply eq_nil_iff_forall_not_mem.mpr
  intro w hw
  obtain ⟨rfl, hlist⟩ := hstuck w hw
  obtain ⟨y, hy⟩ := exists_mem_of_ne_nil _ hlist
  have hlinked := inv.linked y
  have hworkers : load (fun w => Worker.linked y w) s.workers = 0 := by
    apply load_eq_zero
    intro w hw
    rw [(hstuck w hw).1]
    rfl
  have hcount := count_pos_iff.mpr hy
  simp only [State.tally, hworkers, inflight_of_quiet hquiet, results_of_quiet hquiet,
    poller_of_quiet inv hquiet, Item.linked, Item.has, PollerThread.has, load_nil] at hlinked
  have hring : y ∈ s.ring := by
    by_contra hnot
    have hzero : load (fun z => isSession y z) s.ring = 0 := by
      apply load_eq_zero
      intro z hz
      exact if_neg (fun h : z = y => hnot (h ▸ hz))
    omega
  have h := hquiet (.drain y) rfl
  simp [step, hw, hlist, hring] at h

theorem settled_of_quiet (inv : Inv outcome s)
    (hquiet : ∀ op : Op, op.own = true → step outcome s op = none)
    (h : s.node = .registered ∨ s.unbinding = true) :
    (∀ x < s.accepted, (s.handled.map Prod.fst).count x = 1) ∧
      (s.unbinding = true → s.unbound = 1) := by
  have hpoller := poller_of_quiet inv hquiet
  have hresults := results_of_quiet hquiet
  have hworkers := workers_of_quiet inv hquiet
  have hnode : s.node ≠ .deleted := by
    intro hn
    have hpipe := hquiet .pollPipe rfl
    simp [step, hpoller, hn] at hpipe
  by_cases hreg : s.node = .registered
  · have hun := inv.registered hreg
    refine ⟨fun x hx => inv.handled_all ?_ hx, fun ht => absurd (ht.symm.trans hun) (by decide)⟩
    intro x
    have hunsignalled : s.unsignalled = 0 := by
      by_contra hne
      have hsig := hquiet .signal rfl
      simp [step, Nat.pos_of_ne_zero hne] at hsig
    have hevents : s.eventCount = 0 := by
      by_contra hne
      have hread := hquiet (.pollRead true) rfl
      simp [step, hpoller, hreg, Nat.pos_of_ne_zero hne] at hread
    have haw := inv.awake hreg (by rw [hpoller]; rfl)
    rw [hunsignalled, hevents, hpoller, PollerThread.cnt] at haw
    have hring : s.ring = [] := length_eq_zero_iff.mp (by omega)
    simp only [State.tally, inflight_of_quiet hquiet, hring, hpoller, hresults, hworkers, load_nil]
    rfl
  · have hun : s.unbinding = true := h.resolve_left hreg
    have hgone : s.node = .gone := by
      cases hn : s.node with
      | registered => exact absurd hn hreg
      | deleted => exact absurd hn hnode
      | gone => rfl
    -- neither the kernel nor the ring holds a reference
    have hzero : ∀ f : Item → ℕ, (∀ y, f (.kernel y) = 0) → (∀ y, f (.ring y) = 0) →
        f (.poller .idle) = 0 → s.tally f = 0 := by
      intro f hkernel hring hidle
      simp only [State.tally, hpoller, hresults, hworkers, load_nil, hidle,
        load_eq_zero fun y _ => hkernel y, load_eq_zero fun y _ => hring y]
    have hbase := inv.base
    have hsum := inv.ref
    have hdrains := inv.drains
    rw [hzero _ (fun _ => rfl) (fun _ => rfl) rfl] at hbase hsum hdrains
    have huser : s.userBase = 0 := if_pos ⟨hgone, hun⟩
    have href : s.ref = 0 := by omega
    have hunbound : s.unbound = 1 := by
      rw [if_pos href] at hdrains
      omega
    exact ⟨fun x hx => inv.handled_of_unbound (by omega) hx, fun _ => hunbound⟩

end Settled

/-- Every accepted session is handled once, with the result of the kernel, and `handle_unbound` is
    called once, behind all of them. -/
theorem io_sessions_handled_once (h : Reachable (step outcome) State.init s) :
    (s.handled.map Prod.fst).Nodup ∧
    (∀ call ∈ s.handled, call.1 < s.accepted ∧ call.2 = handleArgs (outcome call.1)) ∧
    (s.eventFd = false → ∀ op s', step outcome s op = some s' →
      s'.accepted = s.accepted ∧ s'.eventFd = false) ∧
    s.unbound ≤ 1 ∧
    (0 < s.unbound → s.eventFd = false ∧ ∀ x < s.accepted, x ∈ s.handled.map Prod.fst) ∧
    (∀ op s', op.own = true → step outcome s op = some s' → s'.potential < s.potential) ∧
    ((∀ op : Op, op.own = true → step outcome s op = none) →
      s.node = .registered ∨ s.unbinding = true →
        (∀ x < s.accepted, (s.handled.map Prod.fst).count x = 1) ∧
          (s.unbinding = true → s.unbound = 1)) := by
  have inv := reachable_inv h
  have hcount : ∀ x, (s.handled.map Prod.fst).count x ≤ if x < s.accepted then 1 else 0 := by
    intro x
    have honce := inv.once x
    omega
  refine ⟨?_, ?_, fun hfd op s' hs => step_closed hfd hs, ?_, ?_,
    fun op s' hown hs => own_descends hown hs, settled_of_quiet inv⟩
  · apply nodup_iff_count_le_one.mpr
    intro x
    have hx := hcount x
    split_ifs at hx <;> omega
  · intro call hcall
    refine ⟨?_, inv.args call hcall⟩
    by_contra hnot
    have hx := hcount call.1
    rw [if_neg hnot] at hx
    have hpos := count_pos_iff.mpr (mem_map_of_mem (f := Prod.fst) hcall)
    omega
  · have hdrains := inv.drains
    split_ifs at hdrains <;> omega
  · intro hun
    obtain ⟨_, hfd, _, _⟩ := inv.shut_of_unbound hun
    refine ⟨hfd, fun x hx => count_pos_iff.mp ?_⟩
    rw [inv.handled_of_unbound hun hx]
    decide

def lateRun : List Op :=
  [.request true, .link, .request true, .link, .complete 0, .signal, .pollRead true,
    .aioFinish (some 0), .ioUnbind, .incref, .callback true, .pollReturn, .pollPipe,
    .take .deleted, .work .closing, .request true, .work .releasing, .take (.success 0),
    .work (.unlinking 0), .work (.handling 0), .work .releasing, .complete 1, .drain 1,
    .work (.drained 1), .work .draining]

theorem lateRun_handled : ∃ s, run (step (fun _ => -5)) State.init lateRun = some s ∧
    s.accepted = 2 ∧ s.unbound = 1 ∧ s.handled = [(0, .error, 5), (1, .error, 5)] ∧
    (∀ x < s.accepted, x ∈ s.handled.map Prod.fst) := by
  have hrun : (run (step (fun _ => -5)) State.init lateRun).map
      (fun s => (s.accepted, s.unbound, s.handled)) =
        some (2, 1, [(0, .error, 5), (1, .error, 5)]) := by decide +kernel
  obtain ⟨s, hs, he⟩ := Option.map_eq_some_iff.mp hrun
  obtain ⟨haccepted, hrest⟩ := Prod.mk.inj he
  obtain ⟨hunbound, hhandled⟩ := Prod.mk.inj hrest
  have h := io_sessions_handled_once (reachable_of_run lateRun .start hs)
  exact ⟨s, hs, haccepted, hunbound, hhandled, (h.2.2.2.2.1 (by omega)).2⟩

end MyWorkflow.IoService
