import MyWorkflow.PollerRegistry
import MyWorkflow.PollerSteps

set_option autoImplicit false

/-!
# Where the nodes of a poller are

Every accepted node is in exactly one place, and each step moves nodes from one to another.
-/
namespace MyWorkflow.Poller
open Function List RedBlack SearchTree Runs

def eventNodes (events : List Event) : List NodeId :=
  events.filterMap fun
    | .node n => some n
    | _ => none

def Thread.batch : Thread → List NodeId
  | .handling events _ _ => eventNodes events
  | .finishing _ events _ _ => eventNodes events
  | _ => []

def Thread.nodes : Thread → List NodeId
  | .finishing n _ _ _ => [n]
  | .piping entries _ _ => entries.reduceOption
  | .expiring due => due
  | _ => []

def Stop.nodes : Stop → List NodeId
  | .stopping nodes => nodes
  | _ => []

def Stop.threadJoined : Stop → Bool
  | .notCalled | .joining => false
  | _ => true

def Stop.closed : Stop → Bool
  | .stopping _ | .returned => true
  | _ => false

def State.reportedNodes (s : State) : List NodeId := s.reported.map Result.node

def State.departed (s : State) : List NodeId :=
  s.pipe.reduceOption ++ (s.thread.nodes ++ (s.calls ++ (s.stop.nodes ++ s.reportedNodes)))

def Placed (members departed : List NodeId) (accepted : ℕ) : Prop :=
  ∀ n, members.count n + departed.count n = if n < accepted then 1 else 0

theorem Placed.congr {members departed members' departed' : List NodeId} {accepted : ℕ}
    (h : Placed members departed accepted)
    (hc : ∀ n, members'.count n + departed'.count n = members.count n + departed.count n) :
    Placed members' departed' accepted := fun n => (hc n).trans (h n)

structure Inv (capacity : ℕ) (s : State) : Prop where
  registry : s.registry.Wf
  placed : Placed s.members s.departed s.accepted
  timers : ∀ n < s.accepted, s.registry.fd n < 0 → s.registry.removed n = false → n ∈ s.members
  batch : ∀ n ∈ s.thread.batch, 0 ≤ s.registry.fd n ∧
    (n ∈ s.members ∨ some n ∈ s.pipe ∧ s.registry.removed n = true)
  batchNodup : s.thread.batch.Nodup
  exited : s.stopped = true → s.thread = .exited
  joined : s.stopped = s.stop.threadJoined
  closed : s.stop.closed = true → s.pipe = [] ∧ ∀ n ∈ s.members, s.acceptedAtStop ≤ n
  marked : s.acceptedAtStop ≤ s.accepted
  room : s.pipe.length ≤ capacity
  handles : ∀ n ∈ s.handles, n < s.accepted ∧ s.registry.fd n < 0

variable {maxOpenFiles capacity : ℕ} {s s' : State} {n : NodeId}

theorem init_inv : Inv capacity State.init where
  registry :=
    { queues := Queues.empty_wf
      table := by
        intro f n
        constructor
        · rintro ⟨⟩
        · rintro ⟨h, -⟩
          cases h
      unremoved := by intro n h; cases h }
  placed := fun _ => rfl
  timers := by intro n h; cases h
  batch := by intro n h; cases h
  batchNodup := nodup_nil
  exited := by rintro ⟨⟩
  joined := rfl
  closed := by rintro ⟨⟩
  marked := le_rfl
  room := Nat.zero_le _
  handles := by intro n h; cases h

theorem count_cons_add (n m : NodeId) (l : List NodeId) :
    (n :: l).count m = [n].count m + l.count m := by
  rw [← singleton_append, count_append]

theorem count_departed (s : State) (n : NodeId) : s.departed.count n =
    s.pipe.reduceOption.count n + (s.thread.nodes.count n + (s.calls.count n +
      (s.stop.nodes.count n + s.reportedNodes.count n))) := by
  simp only [State.departed, count_append]

def State.places (s : State) (n : NodeId) : ℕ :=
  s.registry.members.count n + (s.pipe.reduceOption.count n + (s.thread.nodes.count n +
    (s.calls.count n + (s.stop.nodes.count n + (s.reported.map Result.node).count n))))

theorem Placed.moved (h : Placed s.members s.departed s.accepted)
    (hc : ∀ m, s'.places m = s.places m) : Placed s'.members s'.departed s.accepted := by
  refine h.congr fun m => ?_
  rw [count_departed, count_departed]
  exact hc m

section Facts

variable (inv : Inv capacity s)

include inv

theorem Inv.lt_of_placed (h : n ∈ s.members ∨ n ∈ s.departed) : n < s.accepted := by
  have hp := inv.placed n
  have hc := h.imp count_pos_iff.mpr count_pos_iff.mpr
  split_ifs at hp with hlt
  · exact hlt
  · omega

theorem Inv.lt_of_member (h : n ∈ s.members) : n < s.accepted := inv.lt_of_placed (.inl h)

theorem Inv.accepted_notMem : s.accepted ∉ s.members := fun h =>
  absurd (inv.lt_of_member h) (lt_irrefl _)

theorem Inv.lt_of_batch (h : n ∈ s.thread.batch) : n < s.accepted := by
  rcases (inv.batch n h).2 with hm | ⟨hp, -⟩
  · exact inv.lt_of_member hm
  · refine inv.lt_of_placed (.inr ?_)
    rw [State.departed]
    exact mem_append_left _ (reduceOption_mem_iff.mpr hp)

theorem Inv.runs {thread : Thread} (h : s.thread ≠ .exited) :
    s.stopped = true → thread = .exited := fun hs => absurd (inv.exited hs) h

theorem Inv.closed_of_subset {members : List NodeId} (h : ∀ m ∈ members, m ∈ s.members)
    (hc : s.stop.closed = true) : s.pipe = [] ∧ ∀ m ∈ members, s.acceptedAtStop ≤ m :=
  ⟨(inv.closed hc).1, fun m hm => (inv.closed hc).2 m (h m hm)⟩

end Facts

theorem Inv.accept (inv : Inv capacity s) {r : Registry} (hwf : r.Wf)
    (hperm : r.members.Perm (s.accepted :: s.members))
    (hfd : ∀ m, m ≠ s.accepted → r.fd m = s.registry.fd m)
    (hremoved : ∀ m, m ≠ s.accepted → r.removed m = s.registry.removed m) {handles : List NodeId}
    (hhandles : ∀ m ∈ handles, m ∈ s.handles ∨ m = s.accepted ∧ r.fd m < 0) :
    Inv capacity { s with registry := r, accepted := s.accepted + 1, handles := handles } where
  registry := hwf
  placed := by
    intro m
    have hp := inv.placed m
    change r.members.count m + s.departed.count m = _
    rw [hperm.count_eq, count_cons]
    by_cases hm : m = s.accepted
    · subst hm
      rw [if_neg (lt_irrefl _)] at hp
      rw [if_pos (Nat.lt_succ_self _), beq_self_eq_true, if_pos rfl]
      omega
    · have hm' : (s.accepted == m) = false := by simpa using Ne.symm hm
      have hlt : m < s.accepted + 1 ↔ m < s.accepted :=
        Nat.lt_succ_iff_lt_or_eq.trans (or_iff_left hm)
      simp only [hm', Bool.false_eq_true, if_false, Nat.add_zero, hlt]
      exact hp
  timers := by
    intro m hm hf hr
    change m ∈ r.members
    rw [hperm.mem_iff, mem_cons]
    by_cases hmn : m = s.accepted
    · exact .inl hmn
    · refine .inr (inv.timers m (by simp only at hm; omega) ?_ ?_)
      · rw [← hfd m hmn]
        exact hf
      · rw [← hremoved m hmn]
        exact hr
  batch := by
    intro m hm
    have hne : m ≠ s.accepted := (inv.lt_of_batch hm).ne
    obtain ⟨h0, hplace⟩ := inv.batch m hm
    change 0 ≤ r.fd m ∧ (m ∈ r.members ∨ some m ∈ s.pipe ∧ r.removed m = true)
    rw [hfd m hne, hremoved m hne, hperm.mem_iff, mem_cons]
    tauto
  batchNodup := inv.batchNodup
  exited := inv.exited
  joined := inv.joined
  closed := by
    intro hc
    refine ⟨(inv.closed hc).1, fun m hm => ?_⟩
    rcases mem_cons.mp (hperm.mem_iff.mp hm) with rfl | hm
    · exact inv.marked
    · exact (inv.closed hc).2 m hm
  marked := Nat.le_succ_of_le inv.marked
  room := inv.room
  handles := by
    intro m hm
    rcases hhandles m hm with hold | ⟨rfl, hfd'⟩
    · obtain ⟨hlt, hneg⟩ := inv.handles m hold
      exact ⟨Nat.lt_succ_of_lt hlt, (hfd m hlt.ne).symm ▸ hneg⟩
    · exact ⟨Nat.lt_succ_self _, hfd'⟩

theorem Inv.register (inv : Inv capacity s) (op : Operation) {fd : ℤ} (hfd : 0 ≤ fd)
    (hfree : s.registry.nodes fd = none) (deadline : Option Timespec) :
    Inv capacity (s.register op fd deadline) :=
  inv.accept (Registry.register_wf inv.registry inv.accepted_notMem op hfd hfree deadline)
    (Registry.register_perm inv.registry inv.accepted_notMem op fd deadline)
    (fun _ hm => update_of_ne hm _ _) (fun _ hm => update_of_ne hm _ _)
    (fun _ => .inl)

theorem Inv.addTimer (inv : Inv capacity s) (value now : Timespec) :
    Inv capacity (pollerAddTimer value now s) :=
  inv.accept (Registry.addTimer_wf inv.registry inv.accepted_notMem _)
    (Registry.addTimer_perm inv.registry inv.accepted_notMem _)
    (fun _ hm => update_of_ne hm _ _) (fun _ hm => update_of_ne hm _ _) (by
      intro m hm
      refine (mem_cons.mp hm).symm.imp_right ?_
      rintro rfl
      exact ⟨rfl, by simp [Registry.addTimer, Registry.newNode]⟩)

theorem Inv.setTimeout (inv : Inv capacity s) (hn : n ∈ s.members) (deadline : Option Timespec) :
    Inv capacity { s with registry := s.registry.setTimeout n deadline } := by
  have hperm : (s.registry.setTimeout n deadline).members.Perm s.members :=
    Registry.setTimeout_perm inv.registry hn deadline
  exact
    { inv with
      registry := Registry.setTimeout_wf inv.registry hn deadline
      placed := inv.placed.congr (fun m => congrArg (· + _) (hperm.count_eq m))
      timers := fun m hm hf hr => hperm.mem_iff.mpr (inv.timers m hm hf hr)
      batch := fun m hm => (inv.batch m hm).imp_right (·.imp_left hperm.mem_iff.mpr)
      closed := inv.closed_of_subset fun m => hperm.mem_iff.mp }

theorem Inv.depart (inv : Inv capacity s) (hn : n ∈ s.members) {r : Registry}
    {pipe : List (Option NodeId)} {thread : Thread} {calls : List NodeId}
    {state : NodeId → ResultState} {error : NodeId → ℕ} (hwf : r.Wf)
    (hmembers : r.members = s.members.erase n) (hfd : r.fd = s.registry.fd)
    (hremoved : ∀ m, m ≠ n → r.removed m = s.registry.removed m)
    (hmarked : 0 ≤ s.registry.fd n ∨ r.removed n = true)
    (hcount : ∀ m, pipe.reduceOption.count m + (thread.nodes.count m + calls.count m) =
      s.pipe.reduceOption.count m + (s.thread.nodes.count m + s.calls.count m) + [n].count m)
    (hbatch : ∀ m ∈ thread.batch, m ∈ s.thread.batch ∧
      (m = n → some n ∈ pipe ∧ r.removed n = true)) (hnodup : thread.batch.Nodup)
    (hpipe : s.pipe ⊆ pipe) (hexited : s.stopped = true → thread = .exited)
    (hclosed : s.stop.closed = true → pipe = []) (hroom : pipe.length ≤ capacity) :
    Inv capacity { s with
      registry := r, pipe := pipe, thread := thread, calls := calls, state := state
      error := error } := by
  have hkeep : ∀ m, m ≠ n → m ∈ s.members → m ∈ r.members := by
    intro m hm hmem
    rw [hmembers]
    exact (mem_erase_of_ne hm).mpr hmem
  have hsub : ∀ m ∈ r.members, m ∈ s.members := by
    intro m hm
    rw [hmembers] at hm
    exact mem_of_mem_erase hm
  exact
    { registry := hwf
      placed := by
        refine inv.placed.moved fun m => ?_
        have herase := (perm_cons_erase hn).count_eq m
        have hmove := hcount m
        rw [count_cons_add, ← hmembers, State.members] at herase
        dsimp only [State.places]
        omega
      timers := by
        intro m hm hf hr
        change r.fd m < 0 at hf
        change r.removed m = false at hr
        have hne : m ≠ n := by
          rintro rfl
          rcases hmarked with h | h
          · rw [hfd] at hf
            omega
          · rw [h] at hr
            cases hr
        rw [hfd] at hf
        rw [hremoved m hne] at hr
        exact hkeep m hne (inv.timers m hm hf hr)
      batch := by
        intro m hm
        obtain ⟨hold, hself⟩ := hbatch m hm
        obtain ⟨h0, hplace⟩ := inv.batch m hold
        refine ⟨by rwa [← hfd] at h0, ?_⟩
        by_cases hmn : m = n
        · rw [hmn]
          exact .inr (hself hmn)
        · refine hplace.imp (hkeep m hmn) fun h => ⟨hpipe h.1, ?_⟩
          exact (hremoved m hmn).trans h.2
      batchNodup := hnodup
      exited := hexited
      joined := inv.joined
      closed := fun hc => ⟨hclosed hc, (inv.closed_of_subset hsub hc).2⟩
      marked := inv.marked
      room := hroom
      handles := fun m hm => by
        have hold := inv.handles m hm
        rwa [← hfd] at hold }

theorem Inv.dismiss (inv : Inv capacity s) (state : ResultState) (hn : n ∈ s.members)
    (hfd : 0 ≤ s.registry.fd n) (hroom : (s.dismiss n state).pipe.length ≤ capacity) :
    Inv capacity (s.dismiss n state) := by
  have hmembers : (s.registry.remove n).members = s.members.erase n :=
    Registry.remove_members inv.registry hn
  have hwf : (s.registry.remove n).Wf := Registry.remove_wf inv.registry hn hfd
  have hnot : n ∉ (s.registry.remove n).members := by
    rw [hmembers]
    exact inv.registry.nodup.not_mem_erase
  unfold State.dismiss State.passOn at hroom ⊢
  by_cases hs : s.stopped = true
  · rw [if_pos (by exact hs)]
    have hb : s.thread.batch = [] := by rw [inv.exited hs]; rfl
    refine inv.depart hn hwf hmembers rfl (fun _ _ => rfl) (.inl hfd) ?_ ?_ inv.batchNodup
      (List.Subset.refl _) inv.exited (fun hc => (inv.closed hc).1) inv.room
    · intro m
      have := count_cons_add n m s.calls
      dsimp only [State.setResult]
      omega
    · dsimp only [State.setResult]
      rw [hb]
      simp
  · rw [if_neg (by exact hs)] at hroom ⊢
    have hclosed : s.stop.closed ≠ true := by
      have hj := inv.joined
      cases hstop : s.stop <;> simp_all [Stop.threadJoined, Stop.closed]
    refine inv.depart hn (hwf.mark hnot true) hmembers rfl
      (fun _ hm => update_of_ne hm _ _) (.inl hfd) ?_ ?_ inv.batchNodup
      (subset_append_left _ _) inv.exited (fun hc => absurd hc hclosed) hroom
    · intro m
      have hpipe : (s.pipe ++ [some n]).reduceOption = s.pipe.reduceOption ++ [n] :=
        reduceOption_append _ _
      dsimp only [State.setResult]
      rw [hpipe, count_append]
      omega
    · exact fun m hm => ⟨hm, fun _ => ⟨by simp, update_self _ _ _⟩⟩

theorem Inv.delTimer (inv : Inv capacity s) (hn : n ∈ s.handles)
    (hr : s.registry.removed n = false) :
    Inv capacity { { s with registry := s.registry.removeTimer n }.setResult n .deleted 0 with
      calls := n :: s.calls } := by
  obtain ⟨hlt, hfd⟩ := inv.handles n hn
  have hmem : n ∈ s.members := inv.timers n hlt hfd hr
  refine inv.depart hmem (Registry.removeTimer_wf inv.registry hmem hfd)
    (Registry.removeTimer_members inv.registry hmem) rfl
    (fun _ hm => update_of_ne hm _ _) (.inr (update_self _ _ _)) ?_ ?_
    inv.batchNodup (List.Subset.refl _) inv.exited (fun hc => (inv.closed hc).1) inv.room
  · intro m
    have := count_cons_add n m s.calls
    dsimp only [State.setResult]
    omega
  · refine fun m hm => ⟨hm, ?_⟩
    rintro rfl
    have := (inv.batch m hm).1
    omega

theorem mem_of_nodes (inv : Inv capacity s) {fd : ℤ} (h : s.registry.nodes fd = some n) :
    n ∈ s.members ∧ s.registry.fd n = fd ∧ 0 ≤ fd :=
  (inv.registry.table fd n).mp h

/-! ## The poller thread -/

theorem Inv.moveThread (inv : Inv capacity s) {thread : Thread} (hrun : s.thread ≠ .exited)
    (hnodes : ∀ m, thread.nodes.count m = s.thread.nodes.count m)
    (hbatch : thread.batch.Sublist s.thread.batch) : Inv capacity { s with thread := thread } :=
  { inv with
    placed := by
      refine inv.placed.moved fun m => ?_
      dsimp only [State.places]
      rw [hnodes]
    batch := fun m hm => inv.batch m (hbatch.subset hm)
    batchNodup := inv.batchNodup.sublist hbatch
    exited := inv.runs hrun }

theorem count_callback (n m : NodeId) (s : State) :
    ((s.callback n).reported.map Result.node).count m =
      (s.reported.map Result.node).count m + [n].count m := by
  rw [State.callback, map_append, count_append]
  rfl

theorem Inv.threadCallback (inv : Inv capacity s) {thread : Thread} (hrun : s.thread ≠ .exited)
    (hnodes : ∀ m, thread.nodes.count m + [n].count m = s.thread.nodes.count m)
    (hbatch : thread.batch.Sublist s.thread.batch) (state : NodeId → ResultState)
    (error : NodeId → ℕ) :
    Inv capacity ({ s with thread := thread, state := state, error := error }.callback n) :=
  { inv with
    placed := by
      refine inv.placed.moved fun m => ?_
      have := hnodes m
      rw [State.places, count_callback]
      dsimp only [State.places, State.callback]
      omega
    batch := fun m hm => inv.batch m (hbatch.subset hm)
    batchNodup := inv.batchNodup.sublist hbatch
    exited := inv.runs hrun }

theorem Inv.setTimer (inv : Inv capacity s) (hthread : s.thread = .ready) :
    Inv capacity { s with
      registry := { s.registry with queues := s.registry.queues.setTimer }
      thread := .waiting } := by
  have hq : s.registry.queues.setTimer =
      { s.registry.queues with timerfd := s.registry.queues.setTimer.timerfd } := by
    unfold Queues.setTimer
    split <;> rfl
  have hmove : Inv capacity { s with thread := .waiting } :=
    inv.moveThread (by rw [hthread]; decide) (by intro m; rw [hthread]; rfl)
      (by rw [hthread]; exact List.Sublist.refl _)
  have wf := inv.registry.queues
  rw [hq]
  exact
    { hmove with
      registry :=
        { queues := { wf with }
          table := inv.registry.table
          unremoved := inv.registry.unremoved } }

theorem eventNodes_nodup {events : List Event} (h : events.Nodup) : (eventNodes events).Nodup := by
  refine h.filterMap ?_
  intro a b n ha hb
  cases a <;> cases b <;> simp_all

theorem mem_eventNodes {events : List Event} : n ∈ eventNodes events ↔ .node n ∈ events := by
  simp only [eventNodes, mem_filterMap]
  constructor
  · rintro ⟨e, he, hn⟩
    cases e <;> simp_all
  · intro h
    exact ⟨_, h, rfl⟩

theorem Inv.wake (inv : Inv capacity s) (hthread : s.thread = .waiting) {events : List Event}
    (hok : wakeOk events s = true) (now : Timespec) :
    Inv capacity { s with thread := .handling events false now } := by
  simp only [wakeOk, Bool.and_eq_true, decide_eq_true_eq, all_eq_true] at hok
  obtain ⟨⟨hnodup, -⟩, hall⟩ := hok
  have hbatch : ∀ m ∈ eventNodes events, 0 ≤ s.registry.fd m ∧ m ∈ s.members := by
    intro m hm
    have h := hall _ (mem_eventNodes.mp hm)
    simp only [Bool.and_eq_true, decide_eq_true_eq, beq_iff_eq] at h
    exact ⟨h.1, (mem_of_nodes inv h.2).1⟩
  exact
    { inv with
      placed := inv.placed.moved fun m => by rw [State.places, State.places, hthread]; rfl
      batch := fun m hm => ⟨(hbatch m hm).1, .inl (hbatch m hm).2⟩
      batchNodup := eventNodes_nodup hnodup
      exited := inv.runs (by simp [hthread]) }

theorem Inv.handled_mem (inv : Inv capacity s) {events : List Event} {p : Bool} {now : Timespec}
    (hthread : s.thread = .handling (.node n :: events) p now)
    (hr : s.registry.removed n = false) : n ∈ s.members := by
  have hbatch : n ∈ s.thread.batch := by
    rw [hthread]
    exact mem_cons_self
  rcases (inv.batch n hbatch).2 with h | ⟨-, h⟩
  · exact h
  · rw [hr] at h
    cases h

theorem Inv.removeNode (inv : Inv capacity s) {events : List Event} {p : Bool} {now : Timespec}
    (hthread : s.thread = .handling (.node n :: events) p now)
    (hr : s.registry.removed n = false) (state : ResultState) (error : ℕ) :
    Inv capacity { { s with registry := s.registry.remove n }.setResult n state error with
      thread := .finishing n events p now } := by
  have hbatch : s.thread.batch = n :: eventNodes events := by rw [hthread]; rfl
  have h0 := (inv.batch n (by simp [hbatch])).1
  have hmem := inv.handled_mem hthread hr
  have hnodup := inv.batchNodup
  rw [hbatch, nodup_cons] at hnodup
  refine inv.depart hmem (Registry.remove_wf inv.registry hmem h0)
    (Registry.remove_members inv.registry hmem) rfl (fun _ _ => rfl) (.inl h0) ?_ ?_ hnodup.2
    (List.Subset.refl _) (inv.runs (by simp [hthread])) (fun hc => (inv.closed hc).1) inv.room
  · intro m
    dsimp only [State.setResult]
    rw [hthread]
    change _ + ([n].count m + _) = _ + (0 + _) + _
    omega
  · intro m hm
    refine ⟨by rw [hbatch]; exact mem_cons_of_mem _ hm, ?_⟩
    rintro rfl
    exact absurd hm hnodup.1

theorem Inv.handlePipe (inv : Inv capacity s) {now : Timespec}
    (hthread : s.thread = .handling [] true now) :
    Inv capacity { s with
      pipe := s.pipe.drop pipeRead, thread := .piping (s.pipe.take pipeRead) false now } :=
  { inv with
    placed := by
      refine inv.placed.moved fun m => ?_
      have hsplit : s.pipe.reduceOption.count m =
          (s.pipe.take pipeRead).reduceOption.count m +
            (s.pipe.drop pipeRead).reduceOption.count m := by
        rw [← count_append, ← reduceOption_append, take_append_drop]
      rw [State.places, State.places, hthread]
      change _ + (_ + ((s.pipe.take pipeRead).reduceOption.count m + _)) = _ + (_ + (0 + _))
      dsimp only
      omega
    batch := by intro m hm; cases hm
    batchNodup := nodup_nil
    exited := inv.runs (by simp [hthread])
    closed := by
      refine fun hc => ⟨?_, (inv.closed hc).2⟩
      change s.pipe.drop pipeRead = []
      rw [(inv.closed hc).1]
      rfl
    room := by
      change (s.pipe.drop pipeRead).length ≤ capacity
      rw [length_drop]
      exact (Nat.sub_le _ _).trans inv.room }

theorem Inv.timers_taken (inv : Inv capacity s) {l : List NodeId} {r : Registry}
    (taken : s.registry.Taken l r) :
    ∀ n < s.accepted, r.fd n < 0 → r.removed n = false → n ∈ r.members := by
  intro m hm hf hr
  rw [taken.fd] at hf
  rw [taken.removed] at hr
  split_ifs at hr with hdue
  rcases mem_append.mp (taken.perm.mem_iff.mp (inv.timers m hm hf hr)) with h | h
  · exact absurd ⟨h, hf⟩ hdue
  · exact h

theorem Inv.handleTimeout (inv : Inv capacity s) {now : Timespec}
    (hthread : s.thread = .timing now) :
    Inv capacity { s with
      registry := (s.registry.expire now).2
      thread := .expiring (s.registry.expire now).1 } := by
  have taken : s.registry.Taken (s.registry.expire now).1 (s.registry.expire now).2 :=
    Registry.expire_taken inv.registry now
  exact
    { inv with
      registry := taken.wf
      placed := by
        refine inv.placed.moved fun m => ?_
        have hc := taken.perm.count_eq m
        rw [count_append] at hc
        rw [State.places, State.places, hthread]
        change _ + (_ + ((s.registry.expire now).1.count m + _)) = _ + (_ + (0 + _))
        dsimp only
        omega
      timers := inv.timers_taken taken
      handles := fun m hm => taken.fd ▸ inv.handles m hm
      batch := by intro m hm; cases hm
      batchNodup := nodup_nil
      exited := inv.runs (by simp [hthread])
      closed := inv.closed_of_subset fun m hm => taken.perm.mem_iff.mpr (mem_append_right _ hm) }

/-! ## Callbacks of calls, and stopping -/

theorem Inv.callCallback (inv : Inv capacity s) (h : n ∈ s.calls) :
    Inv capacity ({ s with calls := s.calls.erase n }.callback n) :=
  { inv with
    placed := by
      refine inv.placed.moved fun m => ?_
      have hc := (perm_cons_erase h).count_eq m
      rw [count_cons_add] at hc
      rw [State.places, count_callback]
      dsimp only [State.places, State.callback]
      omega }

theorem Inv.stopWrite (inv : Inv capacity s) (hstop : s.stop = .notCalled)
    (hroom : s.pipe.length < capacity) :
    Inv capacity { s with pipe := s.pipe ++ [none], stop := .joining } :=
  { inv with
    placed := by
      refine inv.placed.moved fun m => ?_
      have hp : (s.pipe ++ [none]).reduceOption = s.pipe.reduceOption := by
        rw [reduceOption_append]
        exact append_nil _
      rw [State.places, State.places, hstop, hp]
      rfl
    batch := fun m hm =>
      (inv.batch m hm).imp_right (·.imp_right fun h => ⟨mem_append_left _ h.1, h.2⟩)
    joined := by
      have := inv.joined
      rwa [hstop] at this
    closed := by rintro ⟨⟩
    room := by
      change (s.pipe ++ [none]).length ≤ capacity
      rw [length_append]
      exact hroom }

theorem Inv.stopJoin (inv : Inv capacity s) (hstop : s.stop = .joining)
    (hthread : s.thread = .exited) :
    Inv capacity { s with stopped := true, stop := .joined } :=
  { inv with
    placed := inv.placed.moved fun m => by rw [State.places, State.places, hstop]; rfl
    exited := fun _ => hthread
    joined := rfl
    closed := by rintro ⟨⟩ }

theorem Inv.stopCritical (inv : Inv capacity s) (hcap : capacity ≤ pipeRead)
    (hstop : s.stop = .joined) : Inv capacity { s with
      pipe := []
      registry := s.registry.drain.2
      stop := .stopping s.registry.drain.1
      acceptedAtStop := s.accepted
      reported := s.reported ++
        (s.pipe.take pipeRead).reduceOption.map fun n => ⟨n, s.state n, s.error n⟩ } := by
  have taken : s.registry.Taken s.registry.drain.1 s.registry.drain.2 :=
    Registry.drain_taken inv.registry
  have hstopped : s.stopped = true := by
    rw [inv.joined, hstop]
    rfl
  have hthread : s.thread = .exited := inv.exited hstopped
  have hpipe : s.pipe.take pipeRead = s.pipe := take_of_length_le (inv.room.trans hcap)
  exact
    { inv with
      registry := taken.wf
      placed := by
        refine inv.placed.moved fun m => ?_
        have hc := taken.perm.count_eq m
        have hr : (s.reported ++ (s.pipe.take pipeRead).reduceOption.map fun n =>
            (⟨n, s.state n, s.error n⟩ : Result)).map Result.node =
              s.reported.map Result.node ++ s.pipe.reduceOption := by
          rw [hpipe]
          simp [comp_def]
        rw [count_append] at hc
        rw [State.places, State.places, hstop, hr, count_append]
        change _ + (0 + (_ + (_ + (s.registry.drain.1.count m + _)))) =
          _ + (_ + (_ + (_ + (0 + _))))
        dsimp only
        omega
      timers := inv.timers_taken taken
      handles := fun m hm => taken.fd ▸ inv.handles m hm
      batch := by
        intro m hm
        change m ∈ s.thread.batch at hm
        rw [hthread] at hm
        cases hm
      joined := hstopped
      closed := by
        refine fun _ => ⟨rfl, fun m hm => ?_⟩
        have hmembers : s.registry.drain.2.members = [] := Registry.drain_members
        change m ∈ s.registry.drain.2.members at hm
        rw [hmembers] at hm
        cases hm
      marked := le_rfl
      room := Nat.zero_le _ }

theorem Inv.stopCallback (inv : Inv capacity s) {nodes : List NodeId}
    (hstop : s.stop = .stopping (n :: nodes)) :
    Inv capacity ({ s.setResult n .stopped 0 with stop := .stopping nodes }.callback n) :=
  { inv with
    placed := by
      refine inv.placed.moved fun m => ?_
      have hc := count_cons_add n m nodes
      rw [State.places, count_callback, State.places, hstop]
      change _ + (_ + (_ + (_ + (nodes.count m + _)))) =
        _ + (_ + (_ + (_ + ((n :: nodes).count m + _))))
      dsimp only [State.callback, State.setResult]
      omega
    joined := by
      have := inv.joined
      rwa [hstop] at this
    closed := fun _ => inv.closed (by rw [hstop]; rfl) }

theorem Inv.stopReturn (inv : Inv capacity s) (hstop : s.stop = .stopping []) :
    Inv capacity { s with stop := .returned } :=
  { inv with
    placed := inv.placed.moved fun m => by rw [State.places, State.places, hstop]; rfl
    joined := by
      have := inv.joined
      rwa [hstop] at this
    closed := fun _ => inv.closed (by rw [hstop]; rfl) }

theorem dismiss_nodes (state : ResultState) :
    (s.dismiss n state).registry.nodes (s.registry.fd n) = none := by
  have hremove : (s.registry.remove n).nodes (s.registry.fd n) = none :=
    update_self _ _ _
  unfold State.dismiss State.passOn
  split <;> exact hremove

section Step

variable {a : Action} (inv : Inv capacity s)

include inv

theorem Inv.called (h : Called s a s') (hroom : s'.pipe.length ≤ capacity) : Inv capacity s' := by
  cases h with
  | add hfd hfree => exact inv.register _ hfd hfree _
  | del hn =>
    obtain ⟨hm, rfl, h0⟩ := mem_of_nodes inv hn
    exact inv.dismiss _ hm h0 hroom
  | mod hn =>
    obtain ⟨hm, rfl, h0⟩ := mem_of_nodes inv hn
    exact (inv.dismiss _ hm h0 hroom).register _ h0 (dismiss_nodes .modified) _
  | setTimeout hn => exact inv.setTimeout (mem_of_nodes inv hn).1 _
  | addTimer => exact inv.addTimer _ _
  | delTimer hn hr => exact inv.delTimer hn hr

theorem Inv.moves (h : Moves s a s') : Inv capacity s' := by
  cases h with
  | setTimer ht => exact inv.setTimer ht
  | wake ht hok => exact inv.wake ht hok _
  | handle ht => exact { inv with }
  | remove ht _ hr => exact inv.removeNode ht hr _ _
  | finishCallback ht =>
    exact inv.threadCallback (by simp [ht]) (by simp [ht, Thread.nodes])
      (by simp [ht, Thread.batch]) s.state s.error
  | handlePipe ht => exact inv.handlePipe ht
  | @pipeEntry n entries stop now ht =>
    refine inv.threadCallback (by simp [ht]) ?_ (by simp [Thread.batch]) s.state s.error
    intro m
    rw [ht, Thread.nodes, Thread.nodes, reduceOption_cons_of_some,
      count_cons_add n m entries.reduceOption, Nat.add_comm]
  | @pipeEnd stop now ht =>
    cases stop <;> exact inv.moveThread (by simp [ht]) (by intro m; rw [ht]; rfl)
      (by simp [Thread.batch])
  | handleTimeout ht => exact inv.handleTimeout ht
  | @expireCallback n due ht =>
    refine inv.threadCallback (by simp [ht]) ?_ (by simp [Thread.batch]) _ _
    intro m
    rw [ht, Thread.nodes, Thread.nodes, count_cons_add n m due, Nat.add_comm]
  | timerfd ht | pipeEvent ht | handlerReturn ht | wasRemoved ht =>
    exact inv.moveThread (by simp [ht]) (by simp [ht, Thread.nodes])
      (by simp [ht, Thread.batch, eventNodes])
  | noPipe ht | pipeNull ht | expireEnd ht =>
    exact inv.moveThread (by simp [ht]) (by simp [ht, Thread.nodes]) (by simp [Thread.batch])

theorem Inv.stops (hcap : capacity ≤ pipeRead) (h : Stops capacity s a s') : Inv capacity s' := by
  cases h with
  | callCallback hn => exact inv.callCallback hn
  | write hstop hroom => exact inv.stopWrite hstop hroom
  | join hstop ht => exact inv.stopJoin hstop ht
  | critical hstop => exact inv.stopCritical hcap hstop
  | callback hstop => exact inv.stopCallback hstop
  | done hstop => exact inv.stopReturn hstop

theorem step_inv (hcap : capacity ≤ pipeRead)
    (h : step maxOpenFiles capacity s a = some s') : Inv capacity s' := by
  cases steps_of_step h with
  | refused => exact inv
  | called _ h hroom => exact inv.called h hroom
  | moves h => exact inv.moves h
  | stops h => exact inv.stops hcap h

end Step

theorem reachable_inv (hcap : capacity ≤ pipeRead)
    (h : Reachable (step maxOpenFiles capacity) State.init s) : Inv capacity s :=
  h.invariant init_inv (fun _ _ _ inv _ hs => step_inv inv hcap hs)

end MyWorkflow.Poller
