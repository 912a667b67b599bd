import MyWorkflow.PollerFrame
import MyWorkflow.PollerInvariant

set_option autoImplicit false

/-!
# Terminal callbacks

Behind its terminal callback a node belongs to the client, and the poller lets go of it.
-/
namespace MyWorkflow.Poller
open Function List Runs

variable {maxOpenFiles capacity : ℕ} {s s' : State} {n : NodeId}

section Unreported

variable (inv : Inv capacity s)

include inv

theorem Inv.reported_le_one (n : NodeId) : s.reportedNodes.count n ≤ 1 := by
  have hp := inv.placed n
  rw [count_departed] at hp
  split_ifs at hp <;> omega

theorem Inv.not_reported (h : 1 ≤ s.members.count n + s.pipe.reduceOption.count n +
    s.thread.nodes.count n + s.calls.count n + s.stop.nodes.count n) : n ∉ s.reportedNodes := by
  rw [← count_eq_zero]
  have hp := inv.placed n
  rw [count_departed] at hp
  split_ifs at hp <;> omega

theorem Inv.member_not_reported (h : n ∈ s.members) : n ∉ s.reportedNodes := by
  have hc := count_pos_iff.mpr h
  exact inv.not_reported (by omega)

theorem Inv.pipe_not_reported (h : n ∈ s.pipe.reduceOption) : n ∉ s.reportedNodes := by
  have hc := count_pos_iff.mpr h
  exact inv.not_reported (by omega)

theorem Inv.thread_not_reported (h : n ∈ s.thread.nodes) : n ∉ s.reportedNodes := by
  have hc := count_pos_iff.mpr h
  exact inv.not_reported (by omega)

theorem Inv.call_not_reported (h : n ∈ s.calls) : n ∉ s.reportedNodes := by
  have hc := count_pos_iff.mpr h
  exact inv.not_reported (by omega)

theorem Inv.stop_not_reported (h : n ∈ s.stop.nodes) : n ∉ s.reportedNodes := by
  have hc := count_pos_iff.mpr h
  exact inv.not_reported (by omega)

theorem Inv.current_not_reported {events : List Event} {p : Bool} {now : Timespec}
    (ht : s.thread = .handling (.node n :: events) p now) : n ∉ s.reportedNodes := by
  have hbatch : n ∈ s.thread.batch := by
    rw [ht]
    exact mem_eventNodes.mpr (by simp)
  rcases (inv.batch n hbatch).2 with hm | ⟨hp, -⟩
  · exact inv.member_not_reported hm
  · exact inv.pipe_not_reported (reduceOption_mem_iff.mpr hp)

theorem Inv.all_reported (hstop : s.stop = .returned) (hcalls : s.calls = [])
    (hn : n < s.acceptedAtStop) : s.reportedNodes.count n = 1 := by
  obtain ⟨hpipe, hmembers⟩ := inv.closed (by rw [hstop]; rfl)
  have hthread : s.thread = .exited := by
    apply inv.exited
    rw [inv.joined, hstop]
    rfl
  have hm : s.members.count n = 0 := by
    rw [count_eq_zero]
    intro h
    exact absurd (hmembers n h) (Nat.not_le.mpr hn)
  have hp := inv.placed n
  rw [count_departed, hm, hpipe, hthread, hcalls, hstop, if_pos (hn.trans_le inv.marked)] at hp
  change 0 + (0 + (0 + (0 + (0 + s.reportedNodes.count n)))) = 1 at hp
  omega

end Unreported

/-! ## The steps -/

section Frame

variable {maxOpenFiles capacity : ℕ} {s s' : State} {a : Action} {n m : NodeId} (x : Node)

theorem setNode_setResult (state : ResultState) (error : ℕ) (hm : m ≠ n) :
    (s.setNode n x).setResult m state error = (s.setResult m state error).setNode n x := by
  simp only [State.setResult, State.setNode, update_comm hm]

theorem setNode_callback (hm : m ≠ n) :
    (s.setNode n x).callback m = (s.callback m).setNode n x := by
  simp only [State.callback, State.setNode, update_of_ne hm]

theorem setNode_passOn (hm : m ≠ n) : (s.setNode n x).passOn m = (s.passOn m).setNode n x := by
  cases hs : s.stopped with
  | true => simp only [State.passOn, State.setNode, hs, ↓reduceIte]
  | false =>
    simp only [State.passOn, State.setNode, Registry.setNode, hs, Bool.false_eq_true, ↓reduceIte,
      update_comm hm]

theorem setNode_dismiss (state : ResultState) (hm : m ≠ n) :
    (s.setNode n x).dismiss m state = (s.dismiss m state).setNode n x := by
  have hremove : { s.setNode n x with registry := (s.setNode n x).registry.remove m } =
      { s with registry := s.registry.remove m }.setNode n x := by
    simp only [State.setNode, Registry.setNode_remove x hm]
  rw [State.dismiss, hremove, setNode_setResult x _ _ hm, setNode_passOn x hm, State.dismiss]

omit x in
theorem Stops.threadStep_eq_none (h : Stops capacity s a s') : s.threadStep a = none := by
  refine Option.eq_none_iff_forall_ne_some.mpr fun t ht => ?_
  have hmoves := threadStep_iff.mp ht
  cases h <;> cases hmoves

variable (inv : Inv capacity s) (hn : n ∈ s.reportedNodes)

include inv hn

theorem Inv.ne_accepted : s.accepted ≠ n := by
  have hlt := inv.lt_of_placed (n := n) (.inr (by simp [State.departed, hn]))
  exact Ne.symm (Nat.ne_of_lt hlt)

theorem Inv.setNode_register (op : Operation) (fd : ℤ) (deadline : Option Timespec) :
    (s.setNode n x).register op fd deadline = (s.register op fd deadline).setNode n x := by
  have hr := Registry.setNode_register x inv.registry (fun h => inv.member_not_reported h hn)
    op fd deadline (inv.ne_accepted hn) inv.accepted_notMem
  simp only [State.register, State.setNode, hr]

theorem Inv.setNode_addTimer (value now : Timespec) :
    pollerAddTimer value now (s.setNode n x) = (pollerAddTimer value now s).setNode n x := by
  have hr := Registry.setNode_addTimer x inv.registry (fun h => inv.member_not_reported h hn)
    (timerDeadline value now) (inv.ne_accepted hn) inv.accepted_notMem
  simp only [pollerAddTimer, State.setNode, hr]

theorem Inv.ne_of_member (h : m ∈ s.members) : m ≠ n := by
  rintro rfl
  exact inv.member_not_reported h hn

theorem Inv.setNode_mod (op : Operation) (fd : ℤ) (deadline : Option Timespec)
    (hm : m ∈ s.members) (hfd : 0 ≤ s.registry.fd m) :
    ((s.setNode n x).dismiss m .modified).register op fd deadline =
      ((s.dismiss m .modified).register op fd deadline).setNode n x := by
  have hlen : (s.dismiss m .modified).pipe.length ≤ s.pipe.length + 1 := by
    unfold State.dismiss State.passOn
    split <;> simp [State.setResult]
  have inv' : Inv (s.pipe.length + 1) s := { inv with room := Nat.le_succ _ }
  have hn' : n ∈ (s.dismiss m .modified).reportedNodes := by
    unfold State.dismiss State.passOn
    split <;> exact hn
  rw [setNode_dismiss x .modified (inv.ne_of_member hn hm)]
  exact (inv'.dismiss .modified hm hfd hlen).setNode_register x hn' op fd deadline

variable (maxOpenFiles) in
theorem Inv.call_setNode (hx : a = .delTimer n → x.removed = s.registry.removed n) :
    (s.setNode n x).call maxOpenFiles a =
      (s.call maxOpenFiles a).map (Except.map (State.setNode n x)) := by
  have hnodes : (s.setNode n x).registry.nodes = s.registry.nodes := rfl
  have hok : ∀ {t t' : State}, t = t' →
      some (Except.ok t : Except Errno State) = some (Except.ok t') := fun h => by rw [h]
  cases a with
  | add op fd timeout now ok =>
    simp only [State.call, pollerAdd, hnodes, Option.map_some]
    cases checkData maxOpenFiles op fd with
    | error e => rfl
    | ok u =>
      cases s.registry.nodes fd with
      | some m => rfl
      | none =>
        cases ok with
        | false => rfl
        | true => exact hok (inv.setNode_register x hn op fd _)
  | del fd =>
    simp only [State.call, pollerDel, hnodes, Option.map_some]
    cases checkFd maxOpenFiles fd with
    | error e => rfl
    | ok u =>
      cases hm : s.registry.nodes fd with
      | some m =>
        exact hok (setNode_dismiss x .deleted (inv.ne_of_member hn (mem_of_nodes inv hm).1))
      | none => rfl
  | mod op fd timeout now ok =>
    simp only [State.call, pollerMod, hnodes, Option.map_some]
    cases checkData maxOpenFiles op fd with
    | error e => rfl
    | ok u =>
      cases hm : s.registry.nodes fd with
      | some m =>
        obtain ⟨hmem, rfl, hfd⟩ := mem_of_nodes inv hm
        cases ok with
        | false => rfl
        | true => exact hok (inv.setNode_mod x hn op _ _ hmem hfd)
      | none => rfl
  | setTimeout fd timeout now =>
    simp only [State.call, pollerSetTimeout, hnodes, Option.map_some]
    cases checkFd maxOpenFiles fd with
    | error e => rfl
    | ok u =>
      cases hm : s.registry.nodes fd with
      | some m =>
        have hr := Registry.setNode_setTimeout x inv.registry
          (fun h => inv.member_not_reported h hn) (nodeSetTimeout timeout now)
          (mem_of_nodes inv hm).1
        exact hok (by simp only [State.setNode, hr])
      | none => rfl
  | addTimer value now => exact hok (inv.setNode_addTimer x hn value now)
  | delTimer m =>
    have hremoved : (s.setNode n x).registry.removed m = s.registry.removed m := by
      by_cases hm : m = n
      · subst hm
        exact (update_self _ _ _).trans (hx rfl)
      · exact update_of_ne hm _ _
    change (if m ∈ s.handles then some (pollerDelTimer m (s.setNode n x)) else none) =
      (if m ∈ s.handles then some (pollerDelTimer m s) else none).map _
    by_cases hh : m ∈ s.handles
    · rw [if_pos hh, if_pos hh, Option.map_some, pollerDelTimer, pollerDelTimer, hremoved]
      by_cases hr : s.registry.removed m = true
      · rw [if_pos hr, if_pos hr]
        rfl
      · -- an unmarked timer is queued
        obtain ⟨hlt, hfd⟩ := inv.handles m hh
        have hm := inv.ne_of_member hn (inv.timers m hlt hfd (by simpa using hr))
        rw [if_neg hr, if_neg hr]
        refine hok ?_
        simp only [State.setNode, State.setResult, Registry.setNode_removeTimer x hm,
          update_comm hm]
    · rw [if_neg hh, if_neg hh]
      rfl
  | _ => rfl

theorem Inv.moves_setNode (h : Moves s a s') : Moves (s.setNode n x) a (s'.setNode n x) := by
  have hmembers : n ∉ s.members := fun h => inv.member_not_reported h hn
  have hcurrent : ∀ {m events p now}, s.thread = .handling (.node m :: events) p now → m ≠ n := by
    rintro m events p now ht rfl
    exact inv.current_not_reported ht hn
  have hthread : ∀ {m}, m ∈ s.thread.nodes → m ≠ n := by
    rintro m hm rfl
    exact inv.thread_not_reported hm hn
  cases h with
  | setTimer ht =>
    convert Moves.setTimer (s := s.setNode n x) ht using 1
    simp only [State.setNode, Registry.setNode,
      Queues.setNode_setTimer x inv.registry.queues hmembers]
  | wake ht hok =>
    refine .wake ht ?_
    simp only [wakeOk, Bool.and_eq_true, all_eq_true] at hok ⊢
    refine hok.imp_right fun hok e he => ?_
    have hev := hok e he
    cases e with
    | timerfd | pipe => exact hev
    | node m =>
      simp only [Bool.and_eq_true, decide_eq_true_eq, beq_iff_eq] at hev ⊢
      have hm := inv.ne_of_member hn (mem_of_nodes inv hev.2).1
      simpa only [State.setNode, Registry.setNode, update_of_ne hm] using hev
  | timerfd ht => exact .timerfd ht
  | pipeEvent ht => exact .pipeEvent ht
  | noPipe ht => exact .noPipe ht
  | handle ht =>
    convert Moves.handle (s := s.setNode n x) ht using 1
    simp only [State.setNode, update_comm (hcurrent ht)]
  | handlerReturn ht => exact .handlerReturn ht
  | wasRemoved ht hend hr =>
    refine .wasRemoved (s := s.setNode n x) ht ?_ ?_
    · exact (congrArg (canEnd · _) (update_of_ne (hcurrent ht) _ _)).trans hend
    · exact (update_of_ne (hcurrent ht) _ _).trans hr
  | remove ht hend hr =>
    convert Moves.remove (s := s.setNode n x) ht
      ((congrArg (canEnd · _) (update_of_ne (hcurrent ht) _ _)).trans hend)
      ((update_of_ne (hcurrent ht) _ _).trans hr) using 1
    simp only [State.setNode, State.setResult, Registry.setNode_remove x (hcurrent ht),
      update_comm (hcurrent ht)]
  | finishCallback ht =>
    convert Moves.finishCallback (s := s.setNode n x) ht using 1
    exact (setNode_callback x (hthread (by simp [ht, Thread.nodes]))).symm
  | handlePipe ht hne => exact .handlePipe ht hne
  | pipeEntry ht =>
    convert Moves.pipeEntry (s := s.setNode n x) ht using 1
    exact (setNode_callback x (hthread (by simp [ht, Thread.nodes]))).symm
  | pipeNull ht => exact .pipeNull ht
  | pipeEnd ht => exact .pipeEnd ht
  | handleTimeout ht =>
    convert Moves.handleTimeout (s := s.setNode n x) ht using 1
    simp only [State.setNode, Registry.setNode_expire x inv.registry hmembers]
  | @expireCallback m due ht =>
    have hm : m ≠ n := hthread (by simp [ht, Thread.nodes])
    have hresult : expiryResult (s.setNode n x).registry m = expiryResult s.registry m := by
      simp only [expiryResult, State.setNode, Registry.setNode, update_of_ne hm]
    convert Moves.expireCallback (s := s.setNode n x) ht using 1
    rw [hresult, setNode_setResult x _ _ hm]
    exact (setNode_callback x hm).symm
  | expireEnd ht => exact .expireEnd ht

theorem Inv.stops_setNode (h : Stops capacity s a s') :
    Stops capacity (s.setNode n x) a (s'.setNode n x) := by
  cases h with
  | callCallback hm =>
    convert Stops.callCallback (s := s.setNode n x) hm using 1
    exact (setNode_callback x (fun h => inv.call_not_reported (h ▸ hm) hn)).symm
  | write hstop hroom => exact .write hstop hroom
  | join hstop ht => exact .join hstop ht
  | critical hstop =>
    have hmembers : n ∉ s.members := fun h => inv.member_not_reported h hn
    have hpipe : ∀ m ∈ (s.pipe.take pipeRead).reduceOption, m ≠ n := by
      rintro m hm rfl
      refine inv.pipe_not_reported ?_ hn
      rw [reduceOption_mem_iff] at hm ⊢
      exact mem_of_mem_take hm
    convert Stops.critical (s := s.setNode n x) hstop using 1
    simp only [State.setNode, Registry.setNode_drain x inv.registry hmembers]
    congr 2
    refine map_congr_left fun m hm => ?_
    rw [update_of_ne (hpipe m hm), update_of_ne (hpipe m hm)]
  | @callback m nodes hstop =>
    have hm : m ≠ n := by
      rintro rfl
      exact inv.stop_not_reported (by simp [hstop, Stop.nodes]) hn
    convert Stops.callback (s := s.setNode n x) hstop using 1
    rw [setNode_setResult x _ _ hm]
    exact (setNode_callback x hm).symm
  | done hstop => exact .done hstop

theorem Inv.step_setNode (h : step maxOpenFiles capacity s a = some s')
    (hx : a = .delTimer n → x.removed = s.registry.removed n) :
    step maxOpenFiles capacity (s.setNode n x) a = some (s'.setNode n x) := by
  have hcall := inv.call_setNode maxOpenFiles x hn hx
  unfold step at h ⊢
  rw [hcall]
  split_ifs at h ⊢ with hr
  split at h
  next t ht =>
    obtain ⟨hroom, rfl⟩ := of_guard h
    rw [ht]
    exact if_pos hroom
  next ht =>
    cases h
    rw [ht]
    rfl
  next ht =>
    rw [ht]
    refine Option.or_eq_some_iff.mpr ?_
    rcases Option.or_eq_some_iff.mp h with h | ⟨-, h⟩
    · exact .inl (threadStep_iff.mpr (inv.moves_setNode x hn (threadStep_iff.mp h)))
    · have hstops := inv.stops_setNode x hn (stopStep_iff.mp h)
      exact .inr ⟨hstops.threadStep_eq_none, stopStep_iff.mpr hstops⟩

end Frame

/-- Every accepted node has at most one terminal callback. After it no step writes a field of the
    node, and none but `poller_del_timer` of that timer, which looks at `removed`, does anything else
    if the fields hold something else. Behind `poller_stop` all have had their callback. -/
theorem terminal_callback_once (maxOpenFiles capacity : ℕ) (hcap : capacity ≤ pipeRead) (s : State)
    (h : Reachable (step maxOpenFiles capacity) State.init s) :
    (∀ n, s.reportedNodes.count n ≤ 1) ∧
    (∀ n ∈ s.reportedNodes, ∀ a s', step maxOpenFiles capacity s a = some s' →
      s'.node n = s.node n ∧
      ∀ x : Node, (a = .delTimer n → x.removed = (s.node n).removed) →
        step maxOpenFiles capacity (s.setNode n x) a = some (s'.setNode n x)) ∧
    (s.stop = .returned → s.calls = [] → ∀ n < s.acceptedAtStop,
      s.reportedNodes.count n = 1) := by
  have inv := reachable_inv hcap h
  refine ⟨inv.reported_le_one, ?_, ?_⟩
  · intro n hn a s' hstep
    refine ⟨?_, fun x hx => inv.step_setNode x hn hstep hx⟩
    -- the step that starts from the fields as they are
    have hsame := inv.step_setNode (s.node n) hn hstep fun _ => rfl
    rw [setNode_node, hstep] at hsame
    rw [Option.some.inj hsame, node_setNode]
  · intro hstop hcalls n hn
    exact inv.all_reported hstop hcalls hn

def timerRun : List Action :=
  [.addTimer ⟨1, 0⟩ ⟨5, 0⟩, .setTimer, .wake [.timerfd] ⟨6, 1⟩, .skipEvent, .skipEvent,
    .handleTimeout, .expireCallback]

/-- What `poller_del_timer` does with a timer that has had its callback depends on `removed`: if the
    client had written there, it would be called back again. -/
theorem timer_used_after_callback : ∃ s x t, Reachable (step 4 8) State.init s ∧
    s.reported = [⟨0, .finished, 0⟩] ∧ step 4 8 s (.delTimer 0) = some s ∧ s.calls = [] ∧
    step 4 8 (s.setNode 0 x) (.delTimer 0) = some t ∧ t.calls = [0] := by
  refine ⟨_, ⟨-1, .timer, false, false, .zero, .finished, 0, 0⟩, _,
    reachable_of_run timerRun .start rfl, rfl, rfl, rfl, rfl, rfl⟩

def stopRun : List Action :=
  [.add .read 3 (-1) ⟨5, 0⟩ true, .addTimer ⟨1, 0⟩ ⟨5, 0⟩, .stopWrite, .setTimer,
    .wake [.node 0, .pipe] ⟨5, 5⟩, .handle 1, .handlerReturn, .skipEvent, .handlePipe, .pipeEntry,
    .pipeEnd, .stopJoin, .stopCritical, .stopCallback, .stopCallback, .stopReturn]

theorem stopRun_reported : ∃ s, Reachable (step 4 8) State.init s ∧
    s.stop = .returned ∧ s.acceptedAtStop = 2 ∧ s.reportedNodes.count 0 = 1 ∧
    s.reportedNodes.count 1 = 1 := by
  obtain ⟨s, hrun, hstop, hcalls, haccepted⟩ : ∃ s, run (step 4 8) State.init
      stopRun = some s ∧ s.stop = .returned ∧ s.calls = [] ∧ s.acceptedAtStop = 2 :=
    ⟨_, rfl, rfl, rfl, rfl⟩
  have hreach := reachable_of_run stopRun .start hrun
  have hall := (terminal_callback_once 4 8 (by decide) s hreach).2.2 hstop hcalls
  exact ⟨s, hreach, hstop, haccepted, hall 0 (by omega), hall 1 (by omega)⟩

end MyWorkflow.Poller
