import MyWorkflow.Poller

set_option autoImplicit false

namespace MyWorkflow.Poller
open Function List RedBlack SearchTree

structure Registry.Wf (r : Registry) : Prop where
  queues : r.queues.Wf
  table : ∀ f n, r.nodes f = some n ↔ n ∈ r.members ∧ r.fd n = f ∧ 0 ≤ f
  unremoved : ∀ n ∈ r.members, r.removed n = false

variable {r : Registry} {n : NodeId}

theorem Registry.Wf.nodup (wf : r.Wf) : r.members.Nodup := wf.queues.nodup

theorem enqueue_inserted (n : NodeId) (t : Timespec) (q : Queues) :
    Queues.Inserted { q with timeout := update q.timeout n t } n (enqueue n (some t) q) :=
  Queues.insertNode_inserted

section Enqueue

variable {q : Queues} (wf : q.Wf) (hn : n ∉ q.members) (hf : q.inRbtree n = false)
  (deadline : Option Timespec)

include wf hn hf

theorem enqueue_wf : (enqueue n deadline q).Wf := by
  cases deadline with
  | none => exact Queues.addNoTimeout_wf wf hn hf
  | some t => exact (enqueue_inserted n t q).wf (Queues.setTimeout_wf wf hn t) hn hf

omit hf in
theorem enqueue_perm : (enqueue n deadline q).members.Perm (n :: q.members) := by
  cases deadline with
  | none =>
    change (q.timed ++ (q.noTimeoList ++ [n])).Perm (n :: (q.timed ++ q.noTimeoList))
    rw [← append_assoc]
    exact perm_append_singleton _ _
  | some t =>
    have ins := enqueue_inserted n t q
    have hperm := ins.timed_perm (Queues.setTimeout_wf wf hn t)
    rw [Queues.members, ins.noTimeoList]
    exact hperm.append_right _

end Enqueue

theorem Registry.Wf.mark (wf : r.Wf) (hn : n ∉ r.members) (b : Bool) :
    Registry.Wf { r with removed := update r.removed n b } where
  queues := wf.queues
  table := wf.table
  unremoved := by
    intro m hm
    have hne : m ≠ n := fun h => hn (h ▸ hm)
    change update r.removed n b m = false
    rw [update_of_ne hne]
    exact wf.unremoved m hm

theorem Registry.Wf.unremoved_cons (wf : r.Wf) (m : NodeId) (hm : m ∈ n :: r.members) :
    update r.removed n false m = false := by
  by_cases hmn : m = n
  · rw [hmn, update_self]
  · rw [update_of_ne hmn]
    exact wf.unremoved m (mem_of_ne_of_mem hmn hm)

theorem Registry.Wf.newNode (wf : r.Wf) (hn : n ∉ r.members) (op : Operation) (fd : ℤ) :
    (r.newNode n op fd).Wf where
  queues :=
    { wf.queues with
      flag := by
        intro m hm
        have hne : m ≠ n := fun h => hn (h ▸ hm)
        change update r.queues.inRbtree n false m = true ↔ _
        rw [update_of_ne hne]
        exact wf.queues.flag m hm }
  table := by
    intro f m
    refine (wf.table f m).trans (and_congr_right ?_)
    intro hm
    have hne : m ≠ n := fun h => hn (h ▸ hm)
    change _ ↔ update r.fd n fd m = f ∧ 0 ≤ f
    rw [update_of_ne hne]
  unremoved := (wf.mark hn false).unremoved

section Register

variable (wf : r.Wf) (hn : n ∉ r.members) (op : Operation)

include wf hn

theorem Registry.register_perm (fd : ℤ) (deadline : Option Timespec) :
    (r.register n op fd deadline).members.Perm (n :: r.members) :=
  enqueue_perm (wf.newNode hn op fd).queues hn deadline

theorem Registry.register_wf {fd : ℤ} (hfd : 0 ≤ fd) (hfree : r.nodes fd = none)
    (deadline : Option Timespec) : (r.register n op fd deadline).Wf where
  queues := enqueue_wf (wf.newNode hn op fd).queues hn (by simp [newNode]) deadline
  table := by
    intro f m
    change update r.nodes fd (some n) f = some m ↔
      m ∈ (r.register n op fd deadline).members ∧ update r.fd n fd m = f ∧ 0 ≤ f
    rw [(register_perm wf hn op fd deadline).mem_iff, mem_cons]
    by_cases hm : m = n
    · rw [hm, update_self]
      by_cases hff : f = fd
      · simp [hff, hfd]
      · rw [update_of_ne hff]
        have hno : r.nodes f ≠ some n := fun h => hn ((wf.table f n).mp h).1
        simp [hno, Ne.symm hff]
    · rw [update_of_ne hm]
      by_cases hff : f = fd
      · have hno : ¬ (m ∈ r.members ∧ r.fd m = fd ∧ 0 ≤ fd) := by
          rw [← wf.table, hfree]
          simp
        rw [hff, update_self]
        simp only [hm, false_or, hno, iff_false]
        simpa using Ne.symm hm
      · rw [update_of_ne hff, wf.table]
        simp [hm]
  unremoved m hm := wf.unremoved_cons m ((register_perm wf hn op fd deadline).mem_iff.mp hm)

omit op in
theorem Registry.addTimer_perm (deadline : Timespec) :
    (r.addTimer n deadline).members.Perm (n :: r.members) :=
  enqueue_perm (wf.newNode hn .timer (-1)).queues hn _

omit op in
theorem Registry.addTimer_wf (deadline : Timespec) : (r.addTimer n deadline).Wf where
  queues := enqueue_wf (wf.newNode hn .timer (-1)).queues hn (by simp [newNode]) (some deadline)
  table := by
    intro f m
    change r.nodes f = some m ↔
      m ∈ (r.addTimer n deadline).members ∧ update r.fd n (-1) m = f ∧ 0 ≤ f
    rw [(addTimer_perm wf hn deadline).mem_iff, mem_cons, wf.table]
    by_cases hm : m = n
    · rw [hm, update_self]
      constructor
      · rintro ⟨h, -⟩
        exact absurd h hn
      · rintro ⟨-, rfl, h⟩
        omega
    · rw [update_of_ne hm]
      simp [hm]
  unremoved m hm := wf.unremoved_cons m ((addTimer_perm wf hn deadline).mem_iff.mp hm)

end Register

section Remove

variable (wf : r.Wf) (hn : n ∈ r.members)

include wf hn

theorem Registry.remove_members : (r.remove n).members = r.members.erase n :=
  Queues.unlink_members wf.queues hn

theorem Registry.remove_wf (hfd : 0 ≤ r.fd n) : (r.remove n).Wf where
  queues := Queues.unlink_wf wf.queues hn
  table := by
    intro f m
    change update r.nodes (r.fd n) none f = some m ↔
      m ∈ (r.remove n).members ∧ r.fd m = f ∧ 0 ≤ f
    rw [remove_members wf hn, wf.nodup.mem_erase_iff]
    by_cases hf : f = r.fd n
    · rw [hf, update_self]
      constructor
      · rintro ⟨⟩
      · rintro ⟨⟨hne, hm⟩, hfm, -⟩
        -- two queued nodes with one descriptor are the same
        have h1 := (wf.table (r.fd n) m).mpr ⟨hm, hfm, hfd⟩
        have h2 := (wf.table (r.fd n) n).mpr ⟨hn, rfl, hfd⟩
        rw [h1] at h2
        exact absurd (Option.some.inj h2) hne
    · rw [update_of_ne hf, wf.table]
      constructor
      · rintro ⟨hm, hfm, h0⟩
        exact ⟨⟨fun h => hf (by rw [← hfm, h]), hm⟩, hfm, h0⟩
      · rintro ⟨⟨-, hm⟩, hfm, h0⟩
        exact ⟨hm, hfm, h0⟩
  unremoved := by
    intro m hm
    rw [remove_members wf hn] at hm
    exact wf.unremoved m (mem_of_mem_erase hm)

theorem Registry.removeTimer_members : (r.removeTimer n).members = r.members.erase n :=
  Queues.unlink_members wf.queues hn

theorem Registry.removeTimer_wf (hfd : r.fd n < 0) : (r.removeTimer n).Wf where
  queues := Queues.unlink_wf wf.queues hn
  table := by
    intro f m
    change r.nodes f = some m ↔ m ∈ (r.removeTimer n).members ∧ r.fd m = f ∧ 0 ≤ f
    rw [removeTimer_members wf hn, wf.nodup.mem_erase_iff, wf.table]
    constructor
    · rintro ⟨hm, hfm, h0⟩
      exact ⟨⟨by rintro rfl; omega, hm⟩, hfm, h0⟩
    · rintro ⟨⟨-, hm⟩, hfm, h0⟩
      exact ⟨hm, hfm, h0⟩
  unremoved := by
    intro m hm
    rw [removeTimer_members wf hn, wf.nodup.mem_erase_iff] at hm
    change update r.removed n true m = false
    rw [update_of_ne hm.1]
    exact wf.unremoved m hm.2

theorem Registry.setTimeout_perm (deadline : Option Timespec) :
    (r.setTimeout n deadline).members.Perm r.members := by
  have hnot : n ∉ (r.queues.unlink n).members := by
    rw [Queues.unlink_members wf.queues hn]
    exact wf.queues.nodup.not_mem_erase
  have hwf : (r.queues.unlink n).Wf := Queues.unlink_wf wf.queues hn
  refine (enqueue_perm hwf hnot deadline).trans ?_
  rw [Queues.unlink_members wf.queues hn]
  exact (perm_cons_erase hn).symm

theorem Registry.setTimeout_wf (deadline : Option Timespec) :
    (r.setTimeout n deadline).Wf where
  queues := by
    refine enqueue_wf (Queues.unlink_wf wf.queues hn) ?_ Queues.unlink_inRbtree_self deadline
    rw [Queues.unlink_members wf.queues hn]
    exact wf.queues.nodup.not_mem_erase
  table := by
    intro f m
    rw [(setTimeout_perm wf hn deadline).mem_iff]
    exact wf.table f m
  unremoved := by
    intro m hm
    rw [(setTimeout_perm wf hn deadline).mem_iff] at hm
    exact wf.unremoved m hm

end Remove

theorem foldl_release_queues (l : List NodeId) (r : Registry) :
    (l.foldl Registry.release r).queues = r.queues := by
  induction l generalizing r with
  | nil => rfl
  | cons n l ih =>
    rw [foldl_cons, ih]
    unfold Registry.release
    split <;> rfl

theorem release_fd (n : NodeId) (r : Registry) : (r.release n).fd = r.fd := by
  unfold Registry.release
  split <;> rfl

theorem foldl_release_fd (l : List NodeId) (r : Registry) :
    (l.foldl Registry.release r).fd = r.fd := by
  induction l generalizing r with
  | nil => rfl
  | cons n l ih => rw [foldl_cons, ih, release_fd]

theorem foldl_release_nodes (l : List NodeId) (r : Registry) (f : ℤ) :
    (l.foldl Registry.release r).nodes f =
      if ∃ n ∈ l, r.fd n = f ∧ 0 ≤ f then none else r.nodes f := by
  induction l generalizing r with
  | nil => simp
  | cons n l ih =>
    rw [foldl_cons, ih, release_fd]
    by_cases hl : ∃ m ∈ l, r.fd m = f ∧ 0 ≤ f
    · rw [if_pos hl, if_pos]
      obtain ⟨m, hm, h⟩ := hl
      exact ⟨m, by simp [hm], h⟩
    · rw [if_neg hl]
      by_cases hn : r.fd n = f ∧ 0 ≤ f
      · rw [if_pos ⟨n, by simp, hn⟩, Registry.release, if_pos (by omega), ← hn.1]
        exact update_self _ _ _
      · rw [if_neg]
        · unfold Registry.release
          split
          · exact update_of_ne (by rintro rfl; omega) _ _
          · rfl
        · rintro ⟨m, hm, h⟩
          rcases mem_cons.mp hm with rfl | hm
          · exact hn h
          · exact hl ⟨m, hm, h⟩

theorem foldl_release_removed (l : List NodeId) (r : Registry) (m : NodeId) :
    (l.foldl Registry.release r).removed m =
      if m ∈ l ∧ r.fd m < 0 then true else r.removed m := by
  induction l generalizing r with
  | nil => simp
  | cons n l ih =>
    rw [foldl_cons, ih, release_fd]
    by_cases hl : m ∈ l ∧ r.fd m < 0
    · rw [if_pos hl, if_pos ⟨by simp [hl.1], hl.2⟩]
    · rw [if_neg hl]
      unfold Registry.release
      by_cases hmn : m = n
      · subst hmn
        split_ifs with h0 h1 h1
        · omega
        · rfl
        · exact update_self _ _ _
        · exact absurd ⟨by simp, by omega⟩ h1
      · have hcons : (m ∈ n :: l ∧ r.fd m < 0) ↔ (m ∈ l ∧ r.fd m < 0) := by simp [hmn]
        rw [if_neg (hcons.not.mpr hl)]
        split
        · rfl
        · exact update_of_ne hmn _ _

theorem Registry.Wf.take (wf : r.Wf) {q : Queues} {l : List NodeId} (hq : q.Wf)
    (hperm : r.members.Perm (l ++ q.members)) :
    (l.foldl release { r with queues := q }).Wf where
  queues := by
    rw [foldl_release_queues]
    exact hq
  table := by
    intro f n
    have hdisj := (nodup_append.mp (hperm.nodup_iff.mp wf.queues.nodup)).2.2
    have hmem : n ∈ r.members ↔ n ∈ l ∨ n ∈ q.members := by
      rw [hperm.mem_iff, mem_append]
    have hmembers : (l.foldl release { r with queues := q }).members = q.members := by
      rw [Registry.members, foldl_release_queues]
    rw [foldl_release_nodes, foldl_release_fd, hmembers]
    split_ifs with h
    · obtain ⟨m, hm, hfm, h0⟩ := h
      constructor
      · rintro ⟨⟩
      · rintro ⟨hn, hfn, -⟩
        have h1 := (wf.table f n).mpr ⟨hmem.mpr (.inr hn), hfn, h0⟩
        have h2 := (wf.table f m).mpr ⟨hperm.mem_iff.mpr (by simp [hm]), hfm, h0⟩
        rw [h1] at h2
        obtain rfl := Option.some.inj h2
        exact absurd rfl (hdisj n hm n hn)
    · refine (wf.table f n).trans ?_
      rw [hmem]
      constructor
      · rintro ⟨hn | hn, hfn, h0⟩
        · exact absurd ⟨n, hn, hfn, h0⟩ h
        · exact ⟨hn, hfn, h0⟩
      · rintro ⟨hn, hfn, h0⟩
        exact ⟨.inr hn, hfn, h0⟩
  unremoved := by
    intro n hn
    have hdisj := (nodup_append.mp (hperm.nodup_iff.mp wf.queues.nodup)).2.2
    have hn' : n ∈ q.members := by
      rwa [Registry.members, foldl_release_queues] at hn
    rw [foldl_release_removed, if_neg]
    · exact wf.unremoved n (hperm.mem_iff.mpr (by simp [hn']))
    · rintro ⟨hl, -⟩
      exact hdisj n hl n hn' rfl

structure Registry.Taken (r : Registry) (l : List NodeId) (r' : Registry) : Prop where
  wf : r'.Wf
  perm : r.members.Perm (l ++ r'.members)
  fd : r'.fd = r.fd
  removed : ∀ n, r'.removed n = if n ∈ l ∧ r.fd n < 0 then true else r.removed n

theorem Registry.Wf.taken (wf : r.Wf) {q : Queues} {l : List NodeId} (hq : q.Wf)
    (hperm : r.members.Perm (l ++ q.members)) :
    r.Taken l (l.foldl release { r with queues := q }) where
  wf := wf.take hq hperm
  perm := by
    rwa [Registry.members, Registry.members, foldl_release_queues]
  fd := foldl_release_fd l _
  removed := foldl_release_removed l _

theorem Registry.expire_taken (wf : r.Wf) (now : Timespec) :
    r.Taken (r.expire now).1 (r.expire now).2 := by
  have h : Queues.Expired now r.queues (r.queues.expire now).1 (r.queues.expire now).2 :=
    Queues.expire_spec wf.queues now
  have hperm : r.members.Perm
      ((r.queues.expire now).1 ++ (r.queues.expire now).2.members) := by
    rw [Registry.members, Queues.members, Queues.members, h.noTimeoList, ← append_assoc]
    exact h.perm.append_right _
  exact wf.taken h.wf hperm

theorem Registry.drain_taken (wf : r.Wf) : r.Taken r.drain.1 r.drain.2 := by
  have hperm : r.members.Perm (r.queues.drain.1 ++ r.queues.drain.2.members) := by
    rw [Queues.drain_members, append_nil]
    exact Queues.drain_perm.symm
  exact wf.taken Queues.drain_wf hperm

theorem Registry.drain_members : r.drain.2.members = [] := by
  rw [Registry.members]
  change (r.queues.drain.1.foldl release _).queues.members = []
  rw [foldl_release_queues]
  exact Queues.drain_members

end MyWorkflow.Poller
