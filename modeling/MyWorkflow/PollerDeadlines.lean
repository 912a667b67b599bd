import MyWorkflow.PollerInvariant

set_option autoImplicit false

namespace MyWorkflow.Poller
open Function List RedBlack SearchTree Runs

variable {maxOpenFiles capacity : ℕ} {s s' : State} {n : NodeId}

def State.Live (s : State) (n : NodeId) : Prop := n < s.accepted ∧ n ∉ s.departed

theorem Inv.live_iff (inv : Inv capacity s) : s.Live n ↔ n ∈ s.members := by
  have hp := inv.placed n
  rw [State.Live, ← count_eq_zero, ← count_pos_iff]
  split_ifs at hp with hlt
  · simp only [hlt, true_and]
    omega
  · simp only [hlt, false_and, false_iff]
    omega

theorem Inv.live_count (inv : Inv capacity s) (h : s.Live n) :
    s.registry.queues.timeoTree.list.count n + s.registry.queues.timeoList.count n +
      s.registry.queues.noTimeoList.count n = 1 := by
  rw [← count_append, ← count_append]
  exact count_eq_one_of_mem inv.registry.nodup (inv.live_iff.mp h)

section Expiring

variable (maxOpenFiles capacity : ℕ)

theorem step_expireCallback {due : List NodeId} (h : s.thread = .expiring (n :: due)) :
    ∃ s', step maxOpenFiles capacity s .expireCallback = some s' ∧
      s'.thread = .expiring due ∧ s'.registry = s.registry ∧
      s'.reported = s.reported ++ [expiryResult s.registry n] := by
  refine ⟨_, step_of_moves rfl rfl (.expireCallback h), rfl, rfl, ?_⟩
  simp only [State.callback, State.setResult, update_self, expiryResult]
  split_ifs <;> rfl

theorem run_expireCallback (due : List NodeId) (h : s.thread = .expiring due) :
    ∃ s', run (step maxOpenFiles capacity) s (List.replicate due.length .expireCallback) =
        some s' ∧ s'.registry = s.registry ∧
      s'.reported = s.reported ++ due.map (expiryResult s.registry) := by
  induction due generalizing s with
  | nil => exact ⟨s, rfl, rfl, by simp⟩
  | cons n due ih =>
    obtain ⟨s₁, hstep, hthread, hregistry, hreported⟩ := step_expireCallback maxOpenFiles capacity h
    obtain ⟨s₂, hrun, hregistry', hreported'⟩ := ih hthread
    refine ⟨s₂, ?_, hregistry'.trans hregistry, ?_⟩
    · rw [length_cons, replicate_succ, run, hstep]
      exact hrun
    · rw [hreported', hreported, hregistry, append_assoc]
      rfl

end Expiring

theorem Registry.Wf.expire_due {r : Registry} (wf : r.Wf) (t : Timespec) :
    (r.expire t).1.Nodup ∧
      ∀ n, n ∈ (r.expire t).1 ↔ n ∈ r.queues.timed ∧ (r.queues.timeout n).key ≤ t.key := by
  have h : Queues.Expired t r.queues (r.expire t).1 (r.queues.expire t).2 :=
    Queues.expire_spec wf.queues t
  have htimed : r.queues.timed.Nodup := (nodup_append.mp wf.queues.nodup).1
  refine ⟨(nodup_append.mp (h.perm.nodup_iff.mp htimed)).1, ?_⟩
  intro n
  rw [h.perm.mem_iff, mem_append]
  constructor
  · intro hn
    exact ⟨.inl hn, h.due n hn⟩
  · rintro ⟨hn | hn, hle⟩
    · exact hn
    · exact absurd (h.rest n hn) hle.not_gt

theorem Registry.Wf.expire_members {r : Registry} (wf : r.Wf) (t : Timespec) (n : NodeId) :
    n ∈ (r.expire t).2.members ↔ n ∈ r.members ∧ n ∉ (r.expire t).1 := by
  have taken : r.Taken (r.expire t).1 (r.expire t).2 := Registry.expire_taken wf t
  have hdisj := (nodup_append.mp (taken.perm.nodup_iff.mp wf.nodup)).2.2
  rw [taken.perm.mem_iff, mem_append]
  constructor
  · intro hn
    exact ⟨.inr hn, fun hd => hdisj n hd n hn rfl⟩
  · rintro ⟨hd | hn, hnot⟩
    · exact absurd hd hnot
    · exact hn

/-! ## Deadlines -/

def Queues.Deadlines (P : Timespec → Prop) (q : Queues) : Prop := ∀ n ∈ q.timed, P (q.timeout n)

def Action.deadline : Action → Option Timespec
  | .add _ _ timeout now _ | .mod _ _ timeout now _ | .setTimeout _ timeout now =>
    nodeSetTimeout timeout now
  | .addTimer value now => some (timerDeadline value now)
  | _ => none

theorem timerDeadline_fits {value now : Timespec} (hvalue : value.inRange = true)
    (hnow : now.inRange = true) : (timerDeadline value now).Fits := by
  simp only [Timespec.inRange, Bool.and_eq_true, decide_eq_true_eq] at hvalue hnow
  simp only [timerDeadline, Timespec.Fits]
  split_ifs <;> dsimp only <;> omega

theorem nodeSetTimeout_eq {timeout : ℤ} (h : 0 ≤ timeout) (now : Timespec) :
    nodeSetTimeout timeout now =
      some (timerDeadline ⟨timeout / 1000, timeout % 1000 * 1000000⟩ now) := by
  rw [nodeSetTimeout, if_neg (by omega), timerDeadline]

theorem nodeSetTimeout_fits {timeout : ℤ} {now t : Timespec}
    (hr : (timeout < 2 ^ 31 && now.inRange) = true) (h : nodeSetTimeout timeout now = some t) :
    t.Fits := by
  simp only [Bool.and_eq_true, decide_eq_true_eq] at hr
  by_cases hneg : timeout < 0
  · rw [nodeSetTimeout, if_pos hneg] at h
    cases h
  · rw [nodeSetTimeout_eq (by omega)] at h
    cases h
    refine timerDeadline_fits ?_ hr.2
    simp only [Timespec.inRange, Bool.and_eq_true, decide_eq_true_eq]
    omega

theorem Action.deadline_fits {a : Action} (hr : a.inRange = true) {t : Timespec}
    (h : a.deadline = some t) : t.Fits := by
  cases a with
  | add | mod | setTimeout => exact nodeSetTimeout_fits hr h
  | addTimer value now =>
    cases h
    rw [Action.inRange, Bool.and_eq_true] at hr
    exact timerDeadline_fits hr.1 hr.2
  | _ => cases h

variable {P : Timespec → Prop}

section Deadlines

variable {q : Queues}

theorem enqueue_deadlines (wf : q.Wf) (hn : n ∉ q.members) {deadline : Option Timespec}
    (hP : ∀ t, deadline = some t → P t) (h : q.Deadlines P) :
    (enqueue n deadline q).Deadlines P := by
  cases deadline with
  | none => exact h
  | some t =>
    have ins := enqueue_inserted n t q
    intro m hm
    rw [ins.timeout]
    rcases mem_cons.mp ((ins.timed_perm (Queues.setTimeout_wf wf hn t)).mem_iff.mp hm) with
      rfl | hm
    · simp only [update_self]
      exact hP t rfl
    · have hne : m ≠ n := fun he => hn (he ▸ mem_append_left _ hm)
      simp only [update_of_ne hne]
      exact h m hm

theorem enqueue_armed (wf : q.Wf) (hn : n ∉ q.members) {deadline : Option Timespec}
    (hpos : deadline ≠ some .zero) (h : q.Armed) : (enqueue n deadline q).Armed := by
  cases deadline with
  | none => exact h
  | some t =>
    have ins := enqueue_inserted n t q
    refine ins.armed (Queues.setTimeout_wf wf hn t) hn (h.mono rfl ?_) ?_
    · intro m hm
      have hne : m ≠ n := fun he => hn (he ▸ mem_append_left _ hm)
      exact ⟨hm, update_of_ne hne _ _⟩
    · simp only [update_self]
      exact fun ht => hpos (congrArg some ht)

theorem unlink_subset (wf : q.Wf) (hn : n ∈ q.members) (m : NodeId)
    (hm : m ∈ (q.unlink n).timed) :
    m ∈ q.timed ∧ (q.unlink n).timeout m = q.timeout m := by
  rw [Queues.unlink_timed wf hn] at hm
  exact ⟨mem_of_mem_erase hm, by rw [Queues.unlink_timeout]⟩

theorem setTimer_deadlines (h : q.Deadlines P) : q.setTimer.Deadlines P := by
  unfold Queues.setTimer
  cases q.nearest <;> exact h

end Deadlines

/-- All deadlines are of a kind, and the timerfd is armed for them if none is (0, 0), which would
    disarm it. -/
structure State.Guarded (P : Timespec → Prop) (s : State) : Prop where
  deadlines : s.registry.queues.Deadlines P
  armed : ¬P .zero → s.thread = .waiting → s.registry.queues.Armed

def Keeps (P : Timespec → Prop) (q q' : Queues) : Prop :=
  (q.Deadlines P → q'.Deadlines P) ∧ (¬P .zero → q.Armed → q'.Armed)

theorem Keeps.refl (q : Queues) : Keeps P q q := ⟨id, fun _ => id⟩

theorem Keeps.trans {q q' q'' : Queues} (h : Keeps P q q') (h' : Keeps P q' q'') : Keeps P q q'' :=
  ⟨h'.1 ∘ h.1, fun hz => h'.2 hz ∘ h.2 hz⟩

theorem Keeps.enqueue {q : Queues} (wf : q.Wf) (hn : n ∉ q.members) {deadline : Option Timespec}
    (hP : ∀ t, deadline = some t → P t) : Keeps P q (enqueue n deadline q) :=
  ⟨enqueue_deadlines wf hn hP, fun hz => enqueue_armed wf hn fun ht => hz (hP _ ht)⟩

theorem Keeps.unlink {q : Queues} (wf : q.Wf) (hn : n ∈ q.members) : Keeps P q (q.unlink n) := by
  have hsub := unlink_subset wf hn
  refine ⟨fun h m hm => ?_, fun _ h => h.mono Queues.unlink_timerfd hsub⟩
  rw [(hsub m hm).2]
  exact h m (hsub m hm).1

theorem State.Guarded.keeps (g : s.Guarded P) (hthread : s'.thread = s.thread)
    (h : Keeps P s.registry.queues s'.registry.queues) : s'.Guarded P :=
  ⟨h.1 g.deadlines, fun hz hw => h.2 hz (g.armed hz (hthread ▸ hw))⟩

theorem State.Guarded.move (g : s.Guarded P) (hthread : s'.thread ≠ .waiting)
    (h : Keeps P s.registry.queues s'.registry.queues) : s'.Guarded P :=
  ⟨h.1 g.deadlines, fun _ hw => absurd hw hthread⟩

theorem Registry.Wf.register_keeps {r : Registry} (wf : r.Wf) (hn : n ∉ r.members)
    (op : Operation) (fd : ℤ) {deadline : Option Timespec} (hP : ∀ t, deadline = some t → P t) :
    Keeps P r.queues (r.register n op fd deadline).queues :=
  Keeps.enqueue (wf.newNode hn op fd).queues hn hP

theorem Registry.Wf.setTimeout_keeps {r : Registry} (wf : r.Wf) (hn : n ∈ r.members)
    {deadline : Option Timespec} (hP : ∀ t, deadline = some t → P t) :
    Keeps P r.queues (r.setTimeout n deadline).queues := by
  have hnot : n ∉ (r.queues.unlink n).members := by
    rw [Queues.unlink_members wf.queues hn]
    exact wf.queues.nodup.not_mem_erase
  exact (Keeps.unlink wf.queues hn).trans
    (Keeps.enqueue (Queues.unlink_wf wf.queues hn) hnot hP)

theorem Registry.Wf.expire_deadlines {r : Registry} (wf : r.Wf) (t : Timespec)
    (h : r.queues.Deadlines P) : (r.expire t).2.queues.Deadlines P := by
  have hexp : Queues.Expired t r.queues (r.expire t).1 (r.queues.expire t).2 :=
    Queues.expire_spec wf.queues t
  have hqueues : (r.expire t).2.queues = (r.queues.expire t).2 :=
    foldl_release_queues (r.expire t).1 _
  rw [hqueues]
  intro n hn
  rw [hexp.timeout]
  exact h n (hexp.perm.mem_iff.mpr (mem_append_right _ hn))

theorem Registry.drain_deadlines (r : Registry) : r.drain.2.queues.Deadlines P := by
  intro n hn
  have hmem : n ∈ r.drain.2.members := mem_append_left _ hn
  rw [Registry.drain_members] at hmem
  cases hmem

theorem dismiss_queues (s : State) (n : NodeId) (state : ResultState) :
    (s.dismiss n state).registry.queues = s.registry.queues.unlink n ∧
      (s.dismiss n state).thread = s.thread := by
  unfold State.dismiss State.passOn
  split <;> exact ⟨rfl, rfl⟩

section Step

variable {a : Action} (inv : Inv capacity s) (g : s.Guarded P)

include inv g

theorem State.Guarded.called (hP : ∀ t, a.deadline = some t → P t) (h : Called s a s')
    (hroom : s'.pipe.length ≤ capacity) : s'.Guarded P := by
  cases h with
  | add => exact g.keeps rfl (inv.registry.register_keeps inv.accepted_notMem _ _ hP)
  | del hn =>
    obtain ⟨hqueues, hthread⟩ := dismiss_queues s _ .deleted
    refine g.keeps hthread ?_
    rw [hqueues]
    exact Keeps.unlink inv.registry.queues (mem_of_nodes inv hn).1
  | mod hn =>
    obtain ⟨hm, rfl, h0⟩ := mem_of_nodes inv hn
    have inv' := inv.dismiss .modified hm h0 hroom
    obtain ⟨hqueues, hthread⟩ := dismiss_queues s _ .modified
    refine g.keeps hthread (Keeps.trans ?_
      (inv'.registry.register_keeps inv'.accepted_notMem _ _ hP))
    rw [hqueues]
    exact Keeps.unlink inv.registry.queues hm
  | setTimeout hn => exact g.keeps rfl (inv.registry.setTimeout_keeps (mem_of_nodes inv hn).1 hP)
  | addTimer =>
    exact g.keeps rfl (Keeps.enqueue (inv.registry.newNode inv.accepted_notMem .timer (-1)).queues
      inv.accepted_notMem hP)
  | delTimer hn hr =>
    obtain ⟨hlt, hfd⟩ := inv.handles _ hn
    exact g.keeps rfl (Keeps.unlink inv.registry.queues (inv.timers _ hlt hfd hr))

theorem State.Guarded.moves (h : Moves s a s') : s'.Guarded P := by
  cases h with
  | setTimer =>
    refine ⟨setTimer_deadlines g.deadlines, fun hz _ => ?_⟩
    exact Queues.setTimer_armed inv.registry.queues fun m hm ht => hz (ht ▸ g.deadlines m hm)
  | handle => exact g.keeps rfl (Keeps.refl _)
  | remove ht _ hr =>
    exact g.move (by rintro ⟨⟩) (Keeps.unlink inv.registry.queues (inv.handled_mem ht hr))
  | @pipeEnd stop => cases stop <;> exact g.move (by rintro ⟨⟩) (Keeps.refl _)
  | handleTimeout => exact ⟨inv.registry.expire_deadlines _ g.deadlines, by rintro - ⟨⟩⟩
  | _ => exact g.move (by rintro ⟨⟩) (Keeps.refl _)

theorem State.Guarded.stops (h : Stops capacity s a s') : s'.Guarded P := by
  cases h with
  | critical hstop =>
    have hthread : s.thread = .exited := by
      apply inv.exited
      rw [inv.joined, hstop]
      rfl
    refine ⟨Registry.drain_deadlines s.registry, fun _ hw => ?_⟩
    rw [hthread] at hw
    cases hw
  | _ => exact g.keeps rfl (Keeps.refl _)

theorem step_guarded (hP : ∀ t, a.deadline = some t → P t)
    (h : step maxOpenFiles capacity s a = some s') : s'.Guarded P := by
  cases steps_of_step h with
  | refused => exact g
  | called _ h hroom => exact g.called inv hP h hroom
  | moves h => exact g.moves inv h
  | stops h => exact g.stops inv h

end Step

theorem init_guarded : State.init.Guarded P where
  deadlines := by
    intro n hn
    cases hn
  armed := by rintro - ⟨⟩

theorem reaches_guarded {allowed : State → Action → Prop} (hcap : capacity ≤ pipeRead)
    (h : Reaches (step maxOpenFiles capacity) allowed State.init s)
    (hP : ∀ s a, allowed s a → a.inRange = true → ∀ t, a.deadline = some t → P t) :
    Inv capacity s ∧ s.Guarded P := by
  refine h.invariant (P := fun s => Inv capacity s ∧ s.Guarded P) ⟨init_inv, init_guarded⟩ ?_
  rintro s a s' ⟨inv, g⟩ ha hstep
  exact ⟨step_inv inv hcap hstep, step_guarded inv g (hP s a ha (inRange_of_step hstep)) hstep⟩

/-- What holds of the deadline structures, and what `__poller_handle_timeout` takes. -/
theorem deadline_structures_exact_expiry (maxOpenFiles capacity : ℕ)
    (hcap : capacity ≤ pipeRead) (s : State)
    (h : Reachable (step maxOpenFiles capacity) State.init s) :
    let q := s.registry.queues
    (∀ a ∈ q.timed, ∀ b ∈ q.timed, -2 ^ 63 ≤ q.cmp a b ∧ q.cmp a b < 2 ^ 63) ∧
    q.Sorted q.timeoList ∧
    (q.treeFirst = q.timeoTree.list.head? ∧ q.treeLast = q.timeoTree.list.getLast?) ∧
    ((q.treeFirst = none ↔ q.timeoTree.nodes = .nil) ∧ (q.treeLast = none ↔ q.timeoTree.nodes = .nil)) ∧
    (∀ n, s.Live n →
      q.timeoTree.list.count n + q.timeoList.count n + q.noTimeoList.count n = 1 ∧
      (q.inRbtree n = true ↔ n ∈ q.timeoTree.list)) ∧
    (∀ fd n, s.registry.nodes fd = some n ↔ s.Live n ∧ s.registry.fd n = fd ∧ 0 ≤ fd) ∧
    ∀ t, s.thread = .timing t → ∃ (due : List NodeId) (s' : State), due.Nodup ∧
      (∀ n, n ∈ due ↔ n ∈ q.timed ∧ (q.timeout n).key ≤ t.key) ∧
      run (step maxOpenFiles capacity) s
        (.handleTimeout :: List.replicate due.length .expireCallback) = some s' ∧
      s'.reported = s.reported ++ due.map (expiryResult s.registry) ∧
      ∀ n, n ∈ s'.members ↔ n ∈ s.members ∧ n ∉ due := by
  obtain ⟨inv, g⟩ := reaches_guarded (P := Timespec.Fits) hcap h fun _ _ _ => Action.deadline_fits
  have wf := inv.registry.queues
  refine ⟨?_, wf.listSorted, ⟨wf.first, wf.last⟩, ⟨?_, wf.treeLast_eq_none⟩, ?_, ?_, ?_⟩
  · exact fun a ha b hb => timeoutCmp_long (g.deadlines a ha) (g.deadlines b hb)
  · rw [wf.first, List.head?_eq_none_iff, RbRoot.list, inorder_eq_nil]
  · intro n hn
    exact ⟨inv.live_count hn, wf.flag n (inv.live_iff.mp hn)⟩
  · intro fd n
    rw [inv.live_iff]
    exact inv.registry.table fd n
  · intro t ht
    set due := (s.registry.expire t).1 with hdue
    set s₁ : State := { s with registry := (s.registry.expire t).2, thread := .expiring due }
    obtain ⟨hnodup, hmem⟩ : due.Nodup ∧ _ := inv.registry.expire_due t
    have taken : s.registry.Taken due s₁.registry := Registry.expire_taken inv.registry t
    have hstep : step maxOpenFiles capacity s .handleTimeout = some s₁ :=
      step_of_moves rfl rfl (.handleTimeout ht)
    have hthread : s₁.thread = .expiring due := rfl
    obtain ⟨s', hrun, hregistry, hreported⟩ :=
      run_expireCallback maxOpenFiles capacity due hthread
    refine ⟨due, s', hnodup, hmem, ?_, ?_, ?_⟩
    · rw [run, hstep]
      exact hrun
    · have hresult : expiryResult s₁.registry = expiryResult s.registry := by
        funext n
        rw [expiryResult, expiryResult, taken.fd]
      rw [hreported, hresult]
    · intro n
      rw [State.members, hregistry]
      exact inv.registry.expire_members t n

def expiryRun : List Action :=
  [.addTimer ⟨9, 0⟩ ⟨5, 0⟩, .addTimer ⟨1, 0⟩ ⟨5, 0⟩, .setTimer, .wake [.timerfd] ⟨6, 1⟩,
    .skipEvent, .skipEvent]

theorem expiryRun_takes_first : ∃ s, Reachable (step 4 8) State.init s ∧
    s.registry.queues.timeoTree.list = [1] ∧ s.registry.queues.timeoList = [0] ∧
    ∃ (due : List NodeId) (s' : State), 1 ∈ due ∧ 0 ∉ due ∧
      run (step 4 8) s (.handleTimeout :: List.replicate due.length .expireCallback) = some s' ∧
      1 ∉ s'.members ∧ 0 ∈ s'.members := by
  obtain ⟨s, hrun, hthread, htree, hlist, h0, h1⟩ : ∃ s, run (step 4 8) State.init expiryRun =
      some s ∧ s.thread = .timing ⟨6, 1⟩ ∧ s.registry.queues.timeoTree.list = [1] ∧
      s.registry.queues.timeoList = [0] ∧ s.registry.queues.timeout 0 = ⟨14, 0⟩ ∧
      s.registry.queues.timeout 1 = ⟨6, 0⟩ :=
    ⟨_, rfl, rfl, rfl, rfl, rfl, rfl⟩
  have hreach := reachable_of_run expiryRun .start hrun
  obtain ⟨due, s', -, hdue, hrun', -, hmem⟩ :=
    (deadline_structures_exact_expiry 4 8 (by decide) s hreach).2.2.2.2.2.2 _ hthread
  have hd1 : 1 ∈ due := by
    rw [hdue, Queues.timed, htree, hlist, h1]
    decide
  have hd0 : 0 ∉ due := by
    rw [hdue, Queues.timed, htree, hlist, h0]
    decide
  refine ⟨s, hreach, htree, hlist, due, s', hd1, hd0, hrun', ?_, ?_⟩
  · rw [hmem]
    exact fun h => h.2 hd1
  · rw [hmem]
    refine ⟨?_, hd0⟩
    rw [State.members, Registry.members, Queues.members, Queues.timed, htree, hlist]
    simp

/-- No deadline is (0, 0), as it is when the monotonic clock has started. -/
def Action.Clocked (a : Action) : Prop := a.deadline ≠ some .zero

/-- While the poller waits the timerfd is armed if there is a deadline, and not later than the
    earliest; `__poller_set_timer` sets it to that one. -/
theorem timerfd_never_late (maxOpenFiles capacity : ℕ) (hcap : capacity ≤ pipeRead) (s : State)
    (h : Reaches (step maxOpenFiles capacity) (fun _ a => a.Clocked) State.init s) :
    (s.thread = .waiting → ∀ n ∈ s.registry.queues.timed, s.registry.queues.timerfd ≠ .zero ∧
      s.registry.queues.timerfd.key ≤ (s.registry.queues.timeout n).key) ∧
    ∀ s', step maxOpenFiles capacity s .setTimer = some s' →
      (s.registry.queues.timed = [] → s'.registry.queues.timerfd = .zero) ∧
      (s.registry.queues.timed ≠ [] → ∃ n ∈ s.registry.queues.timed,
        s'.registry.queues.timerfd = s.registry.queues.timeout n ∧
        ∀ m ∈ s.registry.queues.timed,
          (s.registry.queues.timeout n).key ≤ (s.registry.queues.timeout m).key) := by
  obtain ⟨inv, g⟩ := reaches_guarded (P := (· ≠ .zero)) hcap h
    fun _ a ha _ t ht hz => ha (hz ▸ ht)
  refine ⟨g.armed (not_not.mpr rfl), ?_⟩
  intro s' hstep
  obtain ⟨hnone, hsome⟩ := Queues.nearest_spec inv.registry.queues
  cases steps_of_step hstep with
  | moves hmoves =>
    cases hmoves with
    | setTimer =>
      simp only [Queues.setTimer]
      cases hm : s.registry.queues.nearest with
      | none => exact ⟨fun _ => rfl, fun hne => absurd (hnone hm) hne⟩
      | some n =>
        obtain ⟨hmem, hle⟩ := hsome n hm
        exact ⟨fun hnil => absurd hmem (hnil ▸ not_mem_nil), fun _ => ⟨n, hmem, rfl, hle⟩⟩
  | refused hcall => cases hcall
  | called _ hcalled => cases hcalled
  | stops hstops => cases hstops

def rearmRun : List Action :=
  [.addTimer ⟨9, 0⟩ ⟨5, 0⟩, .setTimer, .addTimer ⟨1, 0⟩ ⟨5, 7⟩]

theorem rearmRun_armed : ∃ s,
    Reaches (step 4 8) (fun _ a => a.Clocked) State.init s ∧
    s.thread = .waiting ∧ s.registry.queues.timerfd ≠ .zero ∧
    s.registry.queues.timerfd.key ≤ (s.registry.queues.timeout 1).key := by
  obtain ⟨s, hrun, hthread, htimed⟩ : ∃ s, run (step 4 8) State.init rearmRun =
      some s ∧ s.thread = .waiting ∧ 1 ∈ s.registry.queues.timed :=
    ⟨_, rfl, rfl, by decide⟩
  have hclocked : ∀ a ∈ rearmRun, a.Clocked := by
    intro a ha
    rcases ha with _ | ⟨_, _ | ⟨_, _ | ⟨_, ⟨⟩⟩⟩⟩
    all_goals
      rintro ⟨⟩
  have hreach := reaches_of_run rearmRun hclocked .start hrun
  exact ⟨s, hreach, hthread, (timerfd_never_late 4 8 (by decide) s hreach).1 hthread 1 htimed⟩

end MyWorkflow.Poller
