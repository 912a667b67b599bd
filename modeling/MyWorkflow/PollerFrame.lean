import MyWorkflow.PollerRegistry

set_option autoImplicit false

/-!
# The fields of one node

Code that uses no field of a node does the same whatever they hold: it commutes with writing to them.
Here for the queues and the registry, and a node that is in neither.
-/
namespace MyWorkflow.Poller
open Function List RedBlack SearchTree

structure Node where
  fd : ℤ
  operation : Operation
  inRbtree : Bool
  removed : Bool
  timeout : Timespec
  state : ResultState
  error : ℕ
  rest : ℕ

def State.node (s : State) (n : NodeId) : Node where
  fd := s.registry.fd n
  operation := s.registry.operation n
  inRbtree := s.registry.queues.inRbtree n
  removed := s.registry.removed n
  timeout := s.registry.queues.timeout n
  state := s.state n
  error := s.error n
  rest := s.rest n

def Queues.setNode (n : NodeId) (x : Node) (q : Queues) : Queues :=
  { q with
    inRbtree := update q.inRbtree n x.inRbtree
    timeout := update q.timeout n x.timeout }

def Registry.setNode (n : NodeId) (x : Node) (r : Registry) : Registry :=
  { r with
    queues := r.queues.setNode n x
    fd := update r.fd n x.fd
    operation := update r.operation n x.operation
    removed := update r.removed n x.removed }

def State.setNode (n : NodeId) (x : Node) (s : State) : State :=
  { s with
    registry := s.registry.setNode n x
    state := update s.state n x.state
    error := update s.error n x.error
    rest := update s.rest n x.rest }

theorem setNode_node (s : State) (n : NodeId) : s.setNode n (s.node n) = s := by
  simp only [State.setNode, Registry.setNode, Queues.setNode, State.node, update_eq_self]

theorem node_setNode (s : State) (n : NodeId) (x : Node) : (s.setNode n x).node n = x := by
  simp only [State.setNode, Registry.setNode, Queues.setNode, State.node, update_self]

/-! ## The queues -/

theorem span_congr {l : List NodeId} {p p' : NodeId → Bool} (h : ∀ e ∈ l, p e = p' e) :
    l.takeWhile p = l.takeWhile p' ∧ l.dropWhile p = l.dropWhile p' := by
  induction l with
  | nil => exact ⟨rfl, rfl⟩
  | cons e l ih =>
    obtain ⟨htake, hdrop⟩ := ih fun e he => h e (mem_cons_of_mem _ he)
    simp only [takeWhile_cons, dropWhile_cons, h e mem_cons_self, htake, hdrop,
      and_self]

namespace Queues

variable {q : Queues} {n m : NodeId} (x : Node)

@[simp] theorem setNode_timeoTree : (q.setNode n x).timeoTree = q.timeoTree := rfl

@[simp] theorem setNode_treeFirst : (q.setNode n x).treeFirst = q.treeFirst := rfl

@[simp] theorem setNode_treeLast : (q.setNode n x).treeLast = q.treeLast := rfl

@[simp] theorem setNode_timeoList : (q.setNode n x).timeoList = q.timeoList := rfl

theorem setNode_timeout (hm : m ≠ n) : (q.setNode n x).timeout m = q.timeout m :=
  update_of_ne hm _ _

theorem setNode_cmp {a b : NodeId} (ha : a ≠ n) (hb : b ≠ n) :
    (q.setNode n x).cmp a b = q.cmp a b := by
  simp only [cmp, setNode, update_of_ne ha, update_of_ne hb]

theorem setNode_unlink (hm : m ≠ n) : (q.setNode n x).unlink m = (q.unlink m).setNode n x := by
  simp only [unlink, setNode, update_of_ne hm]
  split_ifs
  · simp only [treeErase, update_comm hm]
  · rfl

variable (wf : q.Wf) (hn : n ∉ q.members)

include hn

theorem ne_of_tree {e : NodeId} (he : e ∈ q.timeoTree.list) : e ≠ n :=
  fun h => hn (mem_members.mpr (.inl (h ▸ he)))

theorem ne_of_list {e : NodeId} (he : e ∈ q.timeoList) : e ≠ n :=
  fun h => hn (mem_members.mpr (.inr (.inl (h ▸ he))))

include wf

theorem setNode_treeInsert (hm : m ≠ n) :
    (q.setNode n x).treeInsert m = (q.treeInsert m).setNode n x := by
  have hbelow : ∀ e ∈ q.timeoTree.list,
      decide ((q.setNode n x).cmp m e < 0) = decide (q.cmp m e < 0) := by
    intro e he
    rw [setNode_cmp x hm (ne_of_tree hn he)]
  have hlast : q.treeLast.filter (fun last => decide (0 ≤ (q.setNode n x).cmp m last)) =
      q.treeLast.filter fun last => decide (0 ≤ q.cmp m last) := by
    cases hl : q.treeLast with
    | none => rfl
    | some last =>
      rw [wf.last] at hl
      simp only [Option.filter, setNode_cmp x hm (ne_of_tree hn (mem_of_getLast? hl))]
  have hlink : (q.setNode n x).treeLink m = q.treeLink m := by
    simp only [treeLink, setNode_timeoTree, setNode_treeLast, setNode_treeFirst,
      RbRoot.parent_congr hbelow, RbRoot.insert_congr hbelow, hlast]
    rfl
  simp only [treeInsert, hlink]
  simp only [setNode, update_comm hm]

theorem ne_of_first {first : NodeId} (h : q.treeFirst = some first) : first ≠ n := by
  rw [wf.first] at h
  exact ne_of_tree hn (mem_of_head? h)

theorem setNode_insertNode (hm : m ≠ n) :
    (q.setNode n x).insertNode m = (q.insertNode m).setNode n x := by
  have htimeout := setNode_timeout (q := q) x hm
  unfold insertNode
  simp only [setNode_timeoList, setNode_treeFirst, setNode_treeInsert x wf hn hm]
  cases hl : q.timeoList with
  | nil =>
    cases hf : q.treeFirst with
    | none => simp only [setTimerfd, htimeout]; rfl
    | some first =>
      change (if (q.setNode n x).cmp m first < 0 then _ else _) =
        setNode n x (if q.cmp m first < 0 then _ else _)
      rw [setNode_cmp x hm (ne_of_first wf hn hf), apply_ite (setNode n x), htimeout]
      rfl
  | cons head tail =>
    have hlast : tail.getLastD head ≠ n := ne_of_list hn (by
      rw [hl, getLastD_eq_getLast?]
      cases htail : tail.getLast? with
      | none => exact mem_cons_self
      | some last => exact mem_cons_of_mem _ (mem_of_getLast? htail))
    have hhead : head ≠ n := ne_of_list hn (by rw [hl]; exact mem_cons_self)
    simp only [apply_ite (setNode n x), setNode_cmp x hm hlast, setNode_cmp x hm hhead]
    simp only [setTimerfd, setNode_timeout x hm]
    rfl

theorem setNode_enqueue (hm : m ≠ n) (hmem : m ∉ q.members) (deadline : Option Timespec) :
    enqueue m deadline (q.setNode n x) = (enqueue m deadline q).setNode n x := by
  cases deadline with
  | none => rfl
  | some t =>
    have hcomm : { q.setNode n x with timeout := update (q.setNode n x).timeout m t } =
        setNode n x { q with timeout := update q.timeout m t } := by
      simp only [setNode, update_comm hm]
    exact (congrArg (insertNode m) hcomm).trans
      (setNode_insertNode x (setTimeout_wf wf hmem t) hn hm)

omit wf hn in
theorem setNode_expireTree (now : Timespec) (fuel : ℕ) (hn : n ∉ q.timeoTree.list)
    (hfirst : q.treeFirst = q.timeoTree.list.head?) : expireTree now fuel (q.setNode n x) =
      ((expireTree now fuel q).1, (expireTree now fuel q).2.setNode n x) := by
  induction fuel generalizing q with
  | zero => rfl
  | succ fuel ih =>
    cases hf : q.treeFirst with
    | none => simp only [expireTree, setNode_treeFirst, hf]
    | some e =>
      have hhead : q.timeoTree.list.head? = some e := hfirst ▸ hf
      have he : e ≠ n := fun h => hn (h ▸ mem_of_head? hhead)
      simp only [expireTree, setNode_treeFirst, hf, setNode_timeout x he]
      by_cases hlate : 0 < timeoutCmp (q.timeout e) now
      · simp only [hlate, ↓reduceIte]
      · have hrest := @ih { q with
          timeoTree := q.timeoTree.erase e
          treeFirst := next e q.timeoTree.list
          treeLast := if next e q.timeoTree.list = none then none else q.treeLast }
          (by simpa using fun h => hn (mem_of_mem_erase h))
          (by rw [RbRoot.list_erase, head?_erase, if_pos hhead])
        simp only [hlate, ↓reduceIte]
        exact congrArg (fun p => (e :: p.1, p.2)) hrest

theorem setNode_expire (now : Timespec) :
    (q.setNode n x).expire now = ((q.expire now).1, (q.expire now).2.setNode n x) := by
  have hdue : ∀ e ∈ q.timeoList, decide (¬ 0 < timeoutCmp ((q.setNode n x).timeout e) now) =
      decide (¬ 0 < timeoutCmp (q.timeout e) now) := by
    intro e he
    rw [setNode_timeout x (ne_of_list hn he)]
  obtain ⟨htake, hdrop⟩ := span_congr hdue
  have htree := fun l => setNode_expireTree (q := { q with timeoList := l }) x now
    q.timeoTree.list.length (fun h => hn (mem_members.mpr (.inl h))) wf.first
  simp only [expire, setNode_timeoList, setNode_timeoTree, htake, hdrop]
  generalize q.timeoList.takeWhile _ = due
  generalize q.timeoList.dropWhile _ = rest
  exact congrArg (fun p => (due ++ p.1, p.2)) (htree rest)

theorem setNode_setTimer : (q.setNode n x).setTimer = q.setTimer.setNode n x := by
  have hnearest : (q.setNode n x).nearest = q.nearest := by
    unfold nearest
    simp only [setNode_treeFirst, setNode_timeoList]
    cases hf : q.treeFirst with
    | none => rfl
    | some first =>
      cases hh : q.timeoList.head? with
      | none => rfl
      | some head =>
        simp only [setNode_cmp x (ne_of_first wf hn hf) (ne_of_list hn (mem_of_head? hh))]
  unfold setTimer
  rw [hnearest]
  cases hm : q.nearest with
  | none => rfl
  | some m =>
    have hmem : m ≠ n := by
      rintro rfl
      exact hn (mem_append_left _ ((nearest_spec wf).2 m hm).1)
    simp only [setNode_timeout x hmem]
    rfl

end Queues

/-! ## The registry -/

namespace Registry

variable {r : Registry} {n m : NodeId} (x : Node)

theorem setNode_release (hm : m ≠ n) : (r.setNode n x).release m = (r.release m).setNode n x := by
  simp only [release, setNode, update_of_ne hm]
  split_ifs
  · rfl
  · simp only [update_comm hm]

theorem setNode_releaseAll {l : List NodeId} (hl : n ∉ l) :
    l.foldl release (r.setNode n x) = (l.foldl release r).setNode n x := by
  induction l generalizing r with
  | nil => rfl
  | cons m l ih =>
    obtain ⟨hm, hl⟩ := not_or.mp (mem_cons.not.mp hl)
    rw [foldl_cons, setNode_release x (Ne.symm hm), ih hl, foldl_cons]

theorem setNode_remove (hm : m ≠ n) : (r.setNode n x).remove m = (r.remove m).setNode n x := by
  have hqueues := Queues.setNode_unlink (q := r.queues) x hm
  simp only [remove, setNode, hqueues, update_of_ne hm]

theorem setNode_removeTimer (hm : m ≠ n) :
    (r.setNode n x).removeTimer m = (r.removeTimer m).setNode n x := by
  have hqueues := Queues.setNode_unlink (q := r.queues) x hm
  simp only [removeTimer, setNode, hqueues, update_comm hm]

theorem setNode_newNode (op : Operation) (fd : ℤ) (hm : m ≠ n) :
    (r.setNode n x).newNode m op fd = (r.newNode m op fd).setNode n x := by
  simp only [newNode, setNode, Queues.setNode, update_comm hm]

variable (wf : r.Wf) (hn : n ∉ r.members)

include wf hn

theorem setNode_register (op : Operation) (fd : ℤ) (deadline : Option Timespec) (hm : m ≠ n)
    (hmem : m ∉ r.members) : (r.setNode n x).register m op fd deadline =
      (r.register m op fd deadline).setNode n x := by
  have hqueues := Queues.setNode_enqueue x (wf.newNode hmem op fd).queues hn hm hmem deadline
  simp only [register, setNode_newNode x op fd hm]
  simp only [setNode, hqueues]

theorem setNode_addTimer (deadline : Timespec) (hm : m ≠ n) (hmem : m ∉ r.members) :
    (r.setNode n x).addTimer m deadline = (r.addTimer m deadline).setNode n x := by
  have hqueues := Queues.setNode_enqueue x (wf.newNode hmem .timer (-1)).queues hn hm hmem
    (some deadline)
  simp only [addTimer, setNode_newNode x .timer (-1) hm]
  simp only [setNode, hqueues]

theorem setNode_setTimeout (deadline : Option Timespec) (hmem : m ∈ r.members) :
    (r.setNode n x).setTimeout m deadline = (r.setTimeout m deadline).setNode n x := by
  have hm : m ≠ n := fun h => hn (h ▸ hmem)
  have hmembers := Queues.unlink_members wf.queues hmem
  have hqueues := Queues.setNode_enqueue x (Queues.unlink_wf wf.queues hmem)
    (fun h => hn (mem_of_mem_erase (hmembers ▸ h))) hm
    (hmembers ▸ wf.queues.nodup.not_mem_erase) deadline
  simp only [setTimeout, setNode, Queues.setNode_unlink x hm, hqueues]

theorem setNode_expire (now : Timespec) :
    (r.setNode n x).expire now = ((r.expire now).1, (r.expire now).2.setNode n x) := by
  have hdue : n ∉ (r.queues.expire now).1 := fun h =>
    hn ((expire_taken wf now).perm.mem_iff.mpr (mem_append_left _ h))
  have hqueues := Queues.setNode_expire x wf.queues hn now
  have hall := setNode_releaseAll (r := { r with queues := (r.queues.expire now).2 }) x hdue
  change (((r.queues.setNode n x).expire now).1, ((r.queues.setNode n x).expire now).1.foldl release
    { r.setNode n x with queues := ((r.queues.setNode n x).expire now).2 }) = _
  rw [hqueues]
  exact congrArg (Prod.mk _) hall

theorem setNode_drain : (r.setNode n x).drain = (r.drain.1, r.drain.2.setNode n x) := by
  have hdue : n ∉ r.queues.drain.1 := fun h =>
    hn ((drain_taken wf).perm.mem_iff.mpr (mem_append_left _ h))
  exact Prod.ext rfl (setNode_releaseAll (r := { r with queues := r.queues.drain.2 }) x hdue)

end Registry

end MyWorkflow.Poller
