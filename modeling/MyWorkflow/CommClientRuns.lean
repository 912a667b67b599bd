import MyWorkflow.CommClientConn

set_option autoImplicit false

namespace MyWorkflow.Comm.Client
open Function Bags Runs
open List hiding replace

def State.waiting (s : State) (i : SessionId) : ℕ := (s.requests.map Request.session).count i

def State.handles (s : State) (i : SessionId) : ℕ := (s.handled.map Prod.fst).count i

structure Inv (s : State) : Prop where
  fits : ∀ e < s.entries, Fits (s.conns e) (decide (e ∈ s.idle))
  idleNodup : s.idle.Nodup
  idleLt : ∀ e ∈ s.idle, e < s.entries
  owned : ∀ i, total s.entries (fun e => (s.conns e).owned i) + s.waiting i + s.handles i +
    s.refused.count i = if i < s.sessions then 1 else 0
  midway : ∀ i, s.released.count i =
    total s.entries (fun e => (s.conns e).midway i) + s.handles i + s.refused.count i
  calls : ∀ i, total s.entries (fun e => (s.conns e).calls i) + s.waiting i + s.returned.count i +
    s.refused.count i = if i < s.sessions then 1 else 0

variable {s s' : State} {i : SessionId} {e : EntryId}

theorem init_inv : Inv State.init where
  fits := by
    intro e he
    cases he
  idleNodup := nodup_nil
  idleLt := by
    intro e he
    cases he
  owned := fun _ => rfl
  midway := fun _ => rfl
  calls := fun _ => rfl

theorem total_update (s : State) (he : e < s.entries) (c : Conn) (f : Conn → ℕ) :
    total s.entries (fun d => f (update s.conns e c d)) + f (s.conns e) =
      total s.entries (fun d => f (s.conns d)) + f c := by
  have h := total_change he (f := fun d => f (s.conns d))
    (g := fun d => f (update s.conns e c d))
    (fun d hd => by rw [update_of_ne hd])
  simpa using h

theorem mem_apply (op : IdleList) (idle : List EntryId) (hn : idle.Nodup)
    (hl : op.Linked (decide (e ∈ idle))) :
    (op.apply e idle).Nodup ∧ decide (e ∈ op.apply e idle) = op.after (decide (e ∈ idle)) ∧
      ∀ d, d ≠ e → (d ∈ op.apply e idle ↔ d ∈ idle) := by
  cases op with
  | same => exact ⟨hn, rfl, fun _ _ => Iff.rfl⟩
  | add =>
    have hnot : e ∉ idle := by simpa [IdleList.Linked] using hl
    refine ⟨nodup_cons.mpr ⟨hnot, hn⟩, by simp [IdleList.apply, IdleList.after], ?_⟩
    intro d hd
    simp [IdleList.apply, hd]
  | del =>
    refine ⟨hn.erase e, ?_, ?_⟩
    · simp [IdleList.apply, IdleList.after, hn.not_mem_erase]
    · intro d hd
      exact mem_erase_of_ne hd

theorem Inv.conn (inv : Inv s) (he : e < s.entries) {c : Conn} {eff : Effect}
    (lands : Lands (s.conns e) (decide (e ∈ s.idle)) c eff) : Inv (s.apply e c eff) := by
  obtain ⟨hnodup, hself, hother⟩ := mem_apply eff.idle s.idle inv.idleNodup lands.linked
  have hwaiting : ∀ i, (s.apply e c eff).waiting i =
      (eff.requests.map Request.session).count i + s.waiting i := by
    intro i
    simp [State.waiting, State.apply]
  have hhandles : ∀ i, (s.apply e c eff).handles i =
      (eff.handled.map Prod.fst).count i + s.handles i := by
    intro i
    simp [State.handles, State.apply]
  exact
    { fits := by
        intro d hd
        by_cases hde : d = e
        · subst hde
          change Fits (update s.conns d c d) (decide (d ∈ eff.idle.apply d s.idle))
          rw [update_self, hself]
          exact lands.fits
        · change Fits (update s.conns e c d) (decide (d ∈ eff.idle.apply e s.idle))
          rw [update_of_ne hde, decide_eq_decide.mpr (hother d hde)]
          exact inv.fits d hd
      idleNodup := hnodup
      idleLt := by
        intro d hd
        by_cases hde : d = e
        · rw [hde]
          exact he
        · exact inv.idleLt d ((hother d hde).mp hd)
      owned := by
        intro i
        have h := inv.owned i
        have hc := lands.owned i
        have ht := total_update s he c (fun c => c.owned i)
        refine Eq.trans ?_ h
        rw [hwaiting, hhandles]
        simp only [State.apply]
        omega
      midway := by
        intro i
        have h := inv.midway i
        have hc := lands.midway i
        have ht := total_update s he c (fun c => c.midway i)
        rw [hhandles]
        simp only [State.apply, count_append]
        omega
      calls := by
        intro i
        have h := inv.calls i
        have hc := lands.calls i
        have ht := total_update s he c (fun c => c.calls i)
        refine Eq.trans ?_ h
        rw [hwaiting]
        simp only [State.apply, count_append]
        omega }

theorem Inv.move (inv : Inv s) {x : Request} (hx : x ∈ s.requests) {y : Request}
    (hy : y.session = x.session) : Inv { s with requests := replace x [y] s.requests } := by
  have hwaiting : ∀ i, State.waiting { s with requests := replace x [y] s.requests } i =
      s.waiting i := by
    intro i
    have h := count_map_replace Request.session hx [y] i
    simp only [map_cons, map_nil, hy] at h
    simp only [State.waiting]
    omega
  refine { inv with owned := ?_, calls := ?_ }
  · intro i
    rw [hwaiting]
    exact inv.owned i
  · intro i
    rw [hwaiting]
    exact inv.calls i

theorem Inv.acquire (inv : Inv s) (stage : Stage) :
    Inv { s with requests := ⟨s.sessions, stage⟩ :: s.requests, sessions := s.sessions + 1 } := by
  have hone : ∀ i, [s.sessions].count i + (if i < s.sessions then 1 else 0) =
      if i < s.sessions + 1 then 1 else 0 := by
    intro i
    rw [count_singleton]
    by_cases hi : s.sessions = i
    · simp [hi]
    · have hlt : i < s.sessions + 1 ↔ i < s.sessions := by omega
      simp [hi, hlt]
  have hwaiting : ∀ i, State.waiting
      { s with requests := ⟨s.sessions, stage⟩ :: s.requests, sessions := s.sessions + 1 } i =
      [s.sessions].count i + s.waiting i := by
    intro i
    simp only [State.waiting, map_cons]
    rw [← singleton_append, count_append]
  refine { inv with owned := ?_, calls := ?_ }
  · intro i
    refine Eq.trans ?_ (hone i)
    rw [hwaiting, ← inv.owned i]
    simp only [State.handles]
    omega
  · intro i
    refine Eq.trans ?_ (hone i)
    rw [hwaiting, ← inv.calls i]
    dsimp only
    omega

theorem waiting_remove {x : Request} (hx : x ∈ s.requests) (i : SessionId) :
    ((replace x [] s.requests).map Request.session).count i + [x.session].count i =
      s.waiting i := by
  have h := count_map_replace Request.session hx [] i
  simpa [State.waiting] using h

theorem Inv.refuse (inv : Inv s) (hx : ⟨i, .failed⟩ ∈ s.requests) :
    Inv { s with
      requests := replace ⟨i, .failed⟩ [] s.requests
      released := i :: s.released
      refused := i :: s.refused } := by
  refine { inv with owned := ?_, midway := ?_, calls := ?_ }
  · intro j
    have h := waiting_remove hx j
    refine Eq.trans ?_ (inv.owned j)
    simp only [State.waiting, State.handles, count_cons, count_nil] at h ⊢
    omega
  · intro j
    have h := inv.midway j
    simp only [State.handles, count_cons] at h ⊢
    omega
  · intro j
    have h := waiting_remove hx j
    refine Eq.trans ?_ (inv.calls j)
    simp only [State.waiting, count_cons, count_nil] at h ⊢
    omega

theorem Inv.launch (inv : Inv s) (hx : ⟨i, .fresh⟩ ∈ s.requests) :
    Inv { s with
      conns := update s.conns s.entries (.launch i)
      entries := s.entries + 1
      requests := replace ⟨i, .fresh⟩ [] s.requests } := by
  have hold : ∀ d < s.entries, update s.conns s.entries (.launch i) d = s.conns d :=
    fun d hd => update_of_ne (Nat.ne_of_lt hd) _ _
  have hnot : s.entries ∉ s.idle := fun h => absurd (inv.idleLt _ h) (lt_irrefl _)
  have htotal : ∀ f : Conn → ℕ,
      total (s.entries + 1) (fun d => f (update s.conns s.entries (.launch i) d)) =
        total s.entries (fun d => f (s.conns d)) + f (.launch i) := by
    intro f
    rw [total_succ, update_self, total_congr (fun d hd => by rw [hold d hd])]
  exact
    { fits := by
        intro d hd
        dsimp only at hd ⊢
        rcases Nat.lt_succ_iff_lt_or_eq.mp hd with hd | rfl
        · rw [hold d hd]
          exact inv.fits d hd
        · rw [update_self, decide_eq_false hnot]
          exact launch_fits i
      idleNodup := inv.idleNodup
      idleLt := fun d hd => Nat.lt_succ_of_lt (inv.idleLt d hd)
      owned := by
        intro j
        have h := waiting_remove hx j
        have hl : (Conn.launch i).owned j = [i].count j := by
          simp [Conn.owned, Conn.launch, Slot.sessions, holdings, holderSessions]
        refine Eq.trans ?_ (inv.owned j)
        rw [htotal (fun c => c.owned j), hl]
        simp only [State.waiting, State.handles] at h ⊢
        omega
      midway := by
        intro j
        refine (inv.midway j).trans ?_
        rw [htotal (fun c => c.midway j)]
        rfl
      calls := by
        intro j
        have h := waiting_remove hx j
        have hl : (Conn.launch i).calls j = [i].count j := by
          simp [Conn.calls, Conn.launch, Slot.calls, holderCalls]
        refine Eq.trans ?_ (inv.calls j)
        rw [htotal (fun c => c.calls j), hl]
        simp only [State.waiting] at h ⊢
        omega }

theorem Fits.take {c : Conn} (fit : Fits c true) (i : SessionId) : Fits (c.take i) false := by
  cases fit with
  | freeing h => cases h
  | freed h => cases h
  | running p r h =>
    cases p with
    | idle =>
      exact .running .taken
        { r with
          holder := ⟨i, .taken, rfl, by decide, .inl rfl⟩
          passed := by rintro ⟨⟩
          unreplied := by rintro ⟨⟩ } rfl
    | connecting | writing | busy | taken | closing | success | passed | dropping => cases h

theorem Inv.take (inv : Inv s) (hx : ⟨i, .looking⟩ ∈ s.requests) {idle : List EntryId}
    (hidle : s.idle = e :: idle) (hm : (s.conns e).mutex = none) :
    Inv { s with
      conns := update s.conns e ((s.conns e).take i)
      idle := idle
      requests := replace ⟨i, .looking⟩ [] s.requests } := by
  have hmem : e ∈ s.idle := by
    rw [hidle]
    exact mem_cons_self
  have he := inv.idleLt e hmem
  have hnodup := inv.idleNodup
  rw [hidle, nodup_cons] at hnodup
  have hother : ∀ d, d ≠ e → (d ∈ idle ↔ d ∈ s.idle) := by
    intro d hd
    rw [hidle, mem_cons]
    tauto
  have htotal := fun f => total_update s he ((s.conns e).take i) f
  exact
    { fits := by
        intro d hd
        dsimp only at hd ⊢
        by_cases hde : d = e
        · subst hde
          have hfit := inv.fits d hd
          rw [decide_eq_true hmem] at hfit
          rw [update_self, decide_eq_false hnodup.1]
          exact hfit.take i
        · rw [update_of_ne hde, decide_eq_decide.mpr (hother d hde)]
          exact inv.fits d hd
      idleNodup := hnodup.2
      idleLt := by
        intro d hd
        refine inv.idleLt d ?_
        rw [hidle]
        exact mem_cons_of_mem _ hd
      owned := by
        intro j
        have h := waiting_remove hx j
        have ht := htotal (fun c => c.owned j)
        have hc : ((s.conns e).take i).owned j =
            (s.conns e).owned j + [i].count j := by
          simp only [Conn.owned, Conn.take, hm, holderSessions, count_nil, Nat.add_zero]
        refine Eq.trans ?_ (inv.owned j)
        simp only [State.waiting, State.handles] at h ⊢
        omega
      midway := by
        intro j
        have ht := htotal (fun c => c.midway j)
        have h := inv.midway j
        have hc : ((s.conns e).take i).midway j = (s.conns e).midway j := rfl
        simp only [State.handles] at h ⊢
        omega
      calls := by
        intro j
        have h := waiting_remove hx j
        have ht := htotal (fun c => c.calls j)
        have hc : ((s.conns e).take i).calls j =
            (s.conns e).calls j + [i].count j := by
          simp [Conn.calls, Conn.take, hm, holderCalls]
        refine Eq.trans ?_ (inv.calls j)
        simp only [State.waiting] at h ⊢
        omega }

theorem step_inv (inv : Inv s) {a : Action} (h : step s a = some s') : Inv s' := by
  cases a with
  | acquire passive =>
    cases h
    exact inv.acquire _
  | take i =>
    simp only [step] at h
    split_ifs at h with hx
    split at h
    · cases h
      exact inv.move hx rfl
    · next e idle hidle =>
      split_ifs at h with hm
      cases h
      exact inv.take hx hidle hm
  | launch i ok =>
    simp only [step] at h
    split_ifs at h with hx hok
    · cases h
      exact inv.launch hx
    · cases h
      exact inv.move hx rfl
  | refuse i =>
    simp only [step] at h
    split_ifs at h with hx
    cases h
    exact inv.refuse hx
  | conn e a =>
    simp only [step] at h
    split_ifs at h with he
    obtain ⟨r, hr, rfl⟩ := Option.map_eq_some_iff.mp h
    exact inv.conn he (step_lands (inv.fits e he) hr)

theorem reachable_inv (h : Reachable step State.init s) : Inv s :=
  h.invariant init_inv (fun _ _ _ inv _ hs => step_inv inv hs)

theorem Conn.stuck {c : Conn} (h : ∀ a, c.step a = none) :
    c.slot = .none ∧ c.replies = [] ∧ c.mutex = none := by
  have hmutex : c.mutex = none := by
    cases hm : c.mutex with
    | none => rfl
    | some holder =>
      obtain ⟨i, hold⟩ := holder
      cases hold with
      | taken =>
        have := h .setTimeout
        simp only [Conn.step, hm] at this
        split at this <;> cases this
      | lost => simpa [Conn.step, hm] using h .giveUp
      | sending => simpa [Conn.step, hm, Conn.sendMessage] using h (.send .failed)
      | failing =>
        have := h .delete
        simp only [Conn.step, hm] at this
        split at this <;> cases this
      | failed => simpa [Conn.step, hm] using h .setError
      | leaving => simpa [Conn.step, hm] using h .unlock
  refine ⟨?_, ?_, hmutex⟩
  · cases hs : c.slot with
    | none => rfl
    | launched i => simpa [Conn.step, hs] using h (.register true)
    | registered op live =>
      cases live with
      | true => simpa [Conn.step, hs] using h .unregister
      | false => simpa [Conn.step, hs] using h (.terminate .error)
    | result op t => cases op <;> simpa [Conn.step, hs, hmutex] using h (.handleResult .failed)
    | addRead i new => simpa [Conn.step, hs] using h (.addRead true)
    | release | handle | decref | releaseConn =>
      simpa [Conn.step, Conn.finish, hs] using h .finish
    | lock => simpa [Conn.step, Conn.finish, hs, hmutex] using h .finish
  · rw [eq_nil_iff_forall_not_mem]
    intro r hr
    simpa [Conn.step, hr] using h (.reply r)

theorem Conn.midway_le_owned (c : Conn) (i : SessionId) : c.midway i ≤ c.owned i := by
  have hslot : c.slot.midway.count i ≤ (c.slot.sessions c.state c.session).count i := by
    cases c.slot <;> simp [Slot.midway, Slot.sessions]
  have hreplies : (holdings Reply.midway c.replies).count i ≤
      (holdings (Reply.sessions c.session) c.replies).count i := by
    induction c.replies with
    | nil => exact le_rfl
    | cons r l ih =>
      have hr : r.midway.count i ≤ (r.sessions c.session).count i := by
        cases r <;> simp [Reply.midway, Reply.sessions]
      rw [count_holdings_cons, count_holdings_cons]
      omega
  rw [Conn.midway, Conn.owned]
  omega

section Completion

variable (inv : Inv s)

include inv

theorem Inv.released_le_one (i : SessionId) : s.released.count i ≤ 1 ∧ s.handles i ≤ 1 := by
  have ho := inv.owned i
  have hm := inv.midway i
  have hle := total_le (n := s.entries) (fun e => (s.conns e).midway_le_owned i)
  split_ifs at ho <;> omega

theorem Inv.refused_once (hi : i ∈ s.refused) : s.released.count i = 1 ∧ s.handles i = 0 := by
  have ho := inv.owned i
  have hm := inv.midway i
  have hle := total_le (n := s.entries) (fun e => (s.conns e).midway_le_owned i)
  have hpos := count_pos_iff.mpr hi
  split_ifs at ho <;> omega

theorem Inv.returned_once (hown : ∀ e < s.entries, (s.conns e).owned i = 0) (hi : i ∈ s.returned) :
    s.released.count i = 1 ∧ s.handles i = 1 := by
  have hzero := total_eq_zero hown
  have ho := inv.owned i
  have hm := inv.midway i
  have hc := inv.calls i
  have hle := total_le (n := s.entries) (fun e => (s.conns e).midway_le_owned i)
  have hpos := count_pos_iff.mpr hi
  split_ifs at ho hc <;> omega

theorem Inv.entry_released_once (he : e < s.entries) : (s.conns e).released ≤ 1 ∧
    ((s.conns e).released = 1 → (s.conns e).slot = .none ∧ (s.conns e).replies = [] ∧
      (s.conns e).mutex = none ∧ e ∉ s.idle) := by
  cases inv.fits e he with
  | running p r h =>
    have hr := r.notReleased
    exact ⟨by omega, fun h1 => by omega⟩
  | freeing h mutex notReleased last => exact ⟨by omega, fun h1 => by omega⟩
  | freed h mutex released slot replies =>
    exact ⟨by omega, fun _ => ⟨slot, replies, mutex, by simpa using h⟩⟩

end Completion

/-! ## The steps on a connection come to an end -/

/-- At most so many steps are left on the connections until a request takes one or makes a new one. -/
def State.rank (s : State) : ℕ := total s.entries (fun e => (s.conns e).rank)

theorem Inv.conn_rank (inv : Inv s) {a : ConnAction} (h : step s (.conn e a) = some s') :
    s'.rank < s.rank := by
  simp only [step] at h
  split_ifs at h with he
  obtain ⟨r, hr, rfl⟩ := Option.map_eq_some_iff.mp h
  have hlt := (step_lands (inv.fits e he) hr).rank
  have ht := total_update s he r.1 Conn.rank
  simp only [State.rank, State.apply]
  omega

theorem conn_enabled (he : e < s.entries) (hown : (s.conns e).owned i ≠ 0) :
    ∃ a s', step s (.conn e a) = some s' := by
  by_contra hnone
  refine hown ?_
  obtain ⟨h₁, h₂, h₃⟩ := Conn.stuck (c := s.conns e) (by
    intro a
    cases hc : (s.conns e).step a with
    | none => rfl
    | some r => exact absurd ⟨a, _, by rw [step, if_pos he, hc]; rfl⟩ hnone)
  rw [Conn.owned, h₁, h₂, h₃]
  rfl

/-- No request is released or handled twice, and one that `request` returned 0 for is released and
    handled as soon as no connection has a slot, a reply or its mutex in use for it. Until then that
    connection has a step to make, and every step on a connection lowers a rank. A connection is
    given to `__release_conn` at most once, when nobody uses it any more. -/
theorem request_completed_once (s : State) (h : Reachable step State.init s) :
    (∀ i, s.released.count i ≤ 1 ∧ (s.handled.map Prod.fst).count i ≤ 1) ∧
    (∀ i ∈ s.refused, s.released.count i = 1 ∧ (s.handled.map Prod.fst).count i = 0) ∧
    (∀ i ∈ s.returned, (∀ e < s.entries, (s.conns e).owned i = 0) →
      s.released.count i = 1 ∧ (s.handled.map Prod.fst).count i = 1) ∧
    (∀ e < s.entries, ∀ i, (s.conns e).owned i ≠ 0 → ∃ a s', step s (.conn e a) = some s') ∧
    (∀ e a s', step s (.conn e a) = some s' → s'.rank < s.rank) ∧
    ∀ e < s.entries, (s.conns e).released ≤ 1 ∧
      ((s.conns e).released = 1 → (s.conns e).slot = .none ∧ (s.conns e).replies = [] ∧
        (s.conns e).mutex = none ∧ e ∉ s.idle) := by
  have inv := reachable_inv h
  refine ⟨inv.released_le_one, ?_, ?_, ?_, ?_, ?_⟩
  · intro i hi
    exact inv.refused_once hi
  · intro i hi hown
    exact inv.returned_once hown hi
  · intro e he i hown
    exact conn_enabled he hown
  · intro e a s' hstep
    exact inv.conn_rank hstep
  · intro e he
    exact inv.entry_released_once he

def requestRun : List Action :=
  [.acquire false, .take 0, .launch 0 true, .conn 0 (.register true), .conn 0 .unregister,
    .conn 0 (.terminate .finished), .conn 0 (.handleResult .complete), .conn 0 (.addRead true),
    .conn 0 (.message true), .conn 0 (.reply (.queued true)), .conn 0 (.reply (.loaded 0 true)),
    .acquire false, .take 1, .conn 0 .setTimeout, .conn 0 (.send (.partly true)),
    .conn 0 (.reply (.release 0)), .conn 0 (.reply (.handle 0)), .acquire true, .refuse 2]

/-- The first request is complete while the second one is being sent on the same connection. -/
theorem requestRun_completed : ∃ s, Reachable step State.init s ∧ s.refused = [2] ∧
    s.handled = [(0, .success)] ∧ s.released.count 0 = 1 ∧ s.released.count 2 = 1 ∧
    (s.conns 0).owned 1 = 1 ∧ ∃ s', step s (.conn 0 .unlock) = some s' ∧ s'.rank < s.rank := by
  obtain ⟨s, s', hrun, hrefused, hreturned, hhandled, hentries, hzero, hone, hstep⟩ :
      ∃ s s', run step State.init requestRun = some s ∧ s.refused = [2] ∧ s.returned = [0] ∧
        s.handled = [(0, .success)] ∧ s.entries = 1 ∧ (s.conns 0).owned 0 = 0 ∧
        (s.conns 0).owned 1 = 1 ∧ step s (.conn 0 .unlock) = some s' :=
    ⟨_, _, rfl, rfl, rfl, rfl, rfl, rfl, rfl, rfl⟩
  have hreach := reachable_of_run requestRun .start hrun
  have hown : ∀ e < s.entries, (s.conns e).owned 0 = 0 := by
    intro e he
    obtain rfl : e = 0 := Nat.lt_one_iff.mp (hentries ▸ he)
    exact hzero
  obtain ⟨-, hrefuse, hreturn, -, hrank, -⟩ := request_completed_once s hreach
  exact ⟨s, hreach, hrefused, hhandled, (hreturn 0 (by simp [hreturned]) hown).1,
    (hrefuse 2 (by simp [hrefused])).1, hone, s', hstep, hrank _ _ _ hstep⟩

end MyWorkflow.Comm.Client
