import Mathlib.Algebra.Group.Int.Defs
import Mathlib.Data.Int.Order.Basic
import Mathlib.Data.List.TakeWhile
import Mathlib.Data.Prod.Lex
import Mathlib.Logic.Function.Basic
import MyWorkflow.RedBlack

set_option autoImplicit false

/-!
# The deadline queues of a poller

`timeo_list`, `timeo_tree` with its cached ends, `no_timeo_list` and the timerfd. Nodes are
numbers; the node fields `in_rbtree` and `timeout` are functions of the node. A node is
`timed` when it waits for a deadline.
-/
namespace MyWorkflow.Poller
open Function List RedBlack SearchTree

structure Timespec where
  sec : ℤ
  nsec : ℤ
deriving DecidableEq, Repr

def Timespec.zero : Timespec := ⟨0, 0⟩

/-- Far from the ends of `long`, so that the difference of two such times is a `long`. -/
def Timespec.Fits (t : Timespec) : Prop := t.sec.natAbs < 2 ^ 62 ∧ t.nsec.natAbs < 2 ^ 62

def timeoutCmp (a b : Timespec) : ℤ :=
  let ret := a.sec - b.sec
  if ret = 0 then a.nsec - b.nsec else ret

def Timespec.key (t : Timespec) : ℤ ×ₗ ℤ := toLex (t.sec, t.nsec)

theorem timeoutCmp_long {a b : Timespec} (ha : a.Fits) (hb : b.Fits) :
    -2 ^ 63 ≤ timeoutCmp a b ∧ timeoutCmp a b < 2 ^ 63 := by
  obtain ⟨ha₁, ha₂⟩ := ha
  obtain ⟨hb₁, hb₂⟩ := hb
  simp only [timeoutCmp]
  split_ifs <;> omega

theorem timeoutCmp_neg {a b : Timespec} : timeoutCmp a b < 0 ↔ a.key < b.key := by
  simp only [timeoutCmp, Timespec.key, Prod.Lex.toLex_lt_toLex]
  split_ifs <;> omega

theorem timeoutCmp_pos {a b : Timespec} : 0 < timeoutCmp a b ↔ b.key < a.key := by
  simp only [timeoutCmp, Timespec.key, Prod.Lex.toLex_lt_toLex]
  split_ifs <;> omega

theorem timeoutCmp_nonneg {a b : Timespec} : 0 ≤ timeoutCmp a b ↔ b.key ≤ a.key := by
  rw [← not_lt, ← not_lt, timeoutCmp_neg]

abbrev NodeId := ℕ

structure Queues where
  timeoTree : RbRoot NodeId
  treeFirst : Option NodeId
  treeLast : Option NodeId
  timeoList : List NodeId
  noTimeoList : List NodeId
  inRbtree : NodeId → Bool
  timeout : NodeId → Timespec
  timerfd : Timespec

def Queues.empty : Queues where
  timeoTree := .empty
  treeFirst := none
  treeLast := none
  timeoList := []
  noTimeoList := []
  inRbtree := fun _ => false
  timeout := fun _ => .zero
  timerfd := .zero

namespace Queues

def cmp (q : Queues) (a b : NodeId) : ℤ := timeoutCmp (q.timeout a) (q.timeout b)

def setTimerfd (abstime : Timespec) (q : Queues) : Queues := { q with timerfd := abstime }

/-- The tree with `n` at the link that `__poller_tree_insert` chooses, and the new `tree_first` and
    `tree_last`. -/
def treeLink (n : NodeId) (q : Queues) : RbRoot NodeId × Option NodeId × Option NodeId :=
  match q.timeoTree.parent (fun e => q.cmp n e < 0) with
  | none => (q.timeoTree.insert (fun e => q.cmp n e < 0) n, some n, some n)
  | some (parent, side) =>
    match q.treeLast.filter (fun last => 0 ≤ q.cmp n last) with
    | some last => (q.timeoTree.insertRight last n, q.treeFirst, some n)
    | none =>
      (q.timeoTree.insert (fun e => q.cmp n e < 0) n,
        -- `p == &poller->tree_first->rb_left`
        if q.treeFirst = some parent ∧ side = .left then some n else q.treeFirst,
        q.treeLast)

def treeInsert (n : NodeId) (q : Queues) : Queues :=
  { q with
    timeoTree := (q.treeLink n).1
    treeFirst := (q.treeLink n).2.1
    treeLast := (q.treeLink n).2.2
    inRbtree := update q.inRbtree n true }

def treeErase (n : NodeId) (q : Queues) : Queues :=
  { q with
    timeoTree := q.timeoTree.erase n
    treeFirst := if q.treeFirst = some n then next n q.timeoTree.list else q.treeFirst
    treeLast := if q.treeLast = some n then prev n q.timeoTree.list else q.treeLast
    inRbtree := update q.inRbtree n false }

def unlink (n : NodeId) (q : Queues) : Queues :=
  if q.inRbtree n then q.treeErase n
  else { q with timeoList := q.timeoList.erase n, noTimeoList := q.noTimeoList.erase n }

def insertNode (n : NodeId) (q : Queues) : Queues :=
  match q.timeoList with
  | [] =>
    let q := { q with timeoList := [n] }
    match q.treeFirst with
    | none => q.setTimerfd (q.timeout n)
    | some first => if q.cmp n first < 0 then q.setTimerfd (q.timeout n) else q
  | head :: tail =>
    if 0 ≤ q.cmp n (tail.getLastD head) then { q with timeoList := q.timeoList ++ [n] }
    else
      let q := q.treeInsert n
      if q.treeFirst ≠ some n then q
      else if q.cmp n head < 0 then q.setTimerfd (q.timeout n)
      else q

def addNoTimeout (n : NodeId) (q : Queues) : Queues :=
  { q with noTimeoList := q.noTimeoList ++ [n] }

def expireTree (now : Timespec) : ℕ → Queues → List NodeId × Queues
  | 0, q => ([], q)
  | fuel + 1, q =>
    match q.treeFirst with
    | none => ([], q)
    | some n =>
      if 0 < timeoutCmp (q.timeout n) now then ([], q)
      else
        let first := next n q.timeoTree.list
        let (due, q) := expireTree now fuel
          { q with
            timeoTree := q.timeoTree.erase n
            treeFirst := first
            treeLast := if first = none then none else q.treeLast }
        (n :: due, q)

def expire (now : Timespec) (q : Queues) : List NodeId × Queues :=
  let isDue := fun n => decide (¬ 0 < timeoutCmp (q.timeout n) now)
  let (due, rest) := expireTree now q.timeoTree.list.length
    { q with timeoList := q.timeoList.dropWhile isDue }
  (q.timeoList.takeWhile isDue ++ due, rest)

def nearest (q : Queues) : Option NodeId :=
  match q.treeFirst with
  | none => q.timeoList.head?
  | some first =>
    match q.timeoList.head? with
    | none => some first
    | some n => if q.cmp first n < 0 then some first else some n

def setTimer (q : Queues) : Queues :=
  match q.nearest with
  | some n => q.setTimerfd (q.timeout n)
  | none => q.setTimerfd .zero

/-- `while (poller->timeo_tree.rb_node)` in `poller_stop`: roots are erased and put in front. -/
def drainTree : ℕ → RbRoot NodeId → List NodeId → List NodeId × RbRoot NodeId
  | 0, tree, nodes => (nodes, tree)
  | fuel + 1, tree, nodes =>
    match tree.nodes with
    | .nil => (nodes, tree)
    | .node n _ _ => drainTree fuel (tree.erase n) (n :: nodes)

def drain (q : Queues) : List NodeId × Queues :=
  let (nodes, tree) := drainTree q.timeoTree.list.length q.timeoTree []
  (q.noTimeoList ++ (q.timeoList ++ nodes),
    { q with
      timeoTree := tree, treeFirst := none, treeLast := none, timeoList := [], noTimeoList := [] })

def timed (q : Queues) : List NodeId := q.timeoTree.list ++ q.timeoList

def members (q : Queues) : List NodeId := q.timed ++ q.noTimeoList

def Sorted (q : Queues) (nodes : List NodeId) : Prop :=
  nodes.Pairwise (fun a b => (q.timeout a).key ≤ (q.timeout b).key)

theorem Sorted.head_le {q : Queues} {l : List NodeId} {first : NodeId} (hs : q.Sorted l)
    (h : l.head? = some first) :
    first ∈ l ∧ ∀ m ∈ l, (q.timeout first).key ≤ (q.timeout m).key := by
  obtain ⟨rest, rfl⟩ := List.head?_eq_some_iff.mp h
  refine ⟨mem_cons_self, ?_⟩
  intro m hm
  rcases mem_cons.mp hm with rfl | hm
  · exact le_rfl
  · exact rel_of_pairwise_cons hs hm

theorem Sorted.le_last {q : Queues} {l : List NodeId} {last : NodeId} (hs : q.Sorted l)
    (h : l.getLast? = some last) : ∀ m ∈ l, (q.timeout m).key ≤ (q.timeout last).key := by
  obtain ⟨init, rfl⟩ := List.getLast?_eq_some_iff.mp h
  intro m hm
  rcases mem_append.mp hm with hm | hm
  · exact (pairwise_append.mp hs).2.2 m hm last mem_cons_self
  · rw [mem_singleton.mp hm]

structure Wf (q : Queues) : Prop where
  nodup : q.members.Nodup
  flag : ∀ n ∈ q.members, (q.inRbtree n = true ↔ n ∈ q.timeoTree.list)
  treeSorted : q.Sorted q.timeoTree.list
  listSorted : q.Sorted q.timeoList
  first : q.treeFirst = q.timeoTree.list.head?
  last : q.treeLast = q.timeoTree.list.getLast?

theorem empty_wf : empty.Wf where
  nodup := nodup_nil
  flag := by intro n hn; cases hn
  treeSorted := List.Pairwise.nil
  listSorted := List.Pairwise.nil
  first := rfl
  last := rfl

variable {q : Queues} {n : NodeId}

theorem mem_members {m : NodeId} : m ∈ q.members ↔
    m ∈ q.timeoTree.list ∨ m ∈ q.timeoList ∨ m ∈ q.noTimeoList := by
  simp [members, timed]

theorem mem_timed {m : NodeId} : m ∈ q.timed ↔ m ∈ q.timeoTree.list ∨ m ∈ q.timeoList := by
  simp [timed]

theorem Wf.treeNodup (wf : q.Wf) : q.timeoTree.list.Nodup :=
  ((nodup_append.mp (nodup_append.mp wf.nodup).1).1)

theorem Wf.treeLast_eq_none (wf : q.Wf) : q.treeLast = none ↔ q.timeoTree.nodes = .nil := by
  rw [wf.last, List.getLast?_eq_none_iff, RbRoot.list, inorder_eq_nil]

structure Landed (q : Queues) (n : NodeId) (pre post : List NodeId) : Prop where
  split : q.timeoTree.list = pre ++ post
  before : ∀ e ∈ pre, (q.timeout e).key ≤ (q.timeout n).key
  behind : ∀ e ∈ post, (q.timeout n).key < (q.timeout e).key
  tree : (q.treeLink n).1.list = pre ++ n :: post
  first : (q.treeLink n).2.1 = (pre ++ n :: post).head?
  last : (q.treeLink n).2.2 = (pre ++ n :: post).getLast?

theorem landed_last (wf : q.Wf) {last : NodeId} (hlast : q.treeLast = some last)
    (hge : (q.timeout last).key ≤ (q.timeout n).key)
    (hlink : q.treeLink n = (q.timeoTree.insertRight last n, q.treeFirst, some n)) :
    Landed q n q.timeoTree.list [] := by
  rw [wf.last] at hlast
  obtain ⟨init, hinit⟩ := List.getLast?_eq_some_iff.mp hlast
  have hnodup := wf.treeNodup
  rw [hinit, nodup_append] at hnodup
  refine ⟨(append_nil _).symm, fun e he => (wf.treeSorted.le_last hlast e he).trans hge, by simp,
    ?_, ?_, ?_⟩
  all_goals rw [hlink]
  · rw [hinit, append_assoc]
    refine RbRoot.list_insertRight hinit ?_ n
    exact fun hmem => hnodup.2.2 last hmem last (by simp) rfl
  · rw [wf.first, hinit]
    simp
  · simp

theorem treeLink_landed (wf : q.Wf) (n : NodeId) : ∃ pre post, Landed q n pre post := by
  have hmono : q.timeoTree.list.Pairwise (fun a b =>
      (decide (q.cmp n a < 0)) = true → (decide (q.cmp n b < 0)) = true) := by
    refine wf.treeSorted.imp ?_
    intro a b hab
    simp only [cmp, decide_eq_true_eq, timeoutCmp_neg]
    intro h
    exact lt_of_lt_of_le h hab
  obtain ⟨pre, post, hin, hpre, hpost, hinsert, hparent⟩ := q.timeoTree.insert_spec hmono n
  cases hd : q.timeoTree.parent (fun e => decide (q.cmp n e < 0)) with
  | none =>
    have hnil := RbRoot.parent_eq_none.mp hd
    obtain ⟨rfl, rfl⟩ := append_eq_nil_iff.mp (hin.symm.trans hnil)
    have hlink : q.treeLink n = (q.timeoTree.insert (fun e => q.cmp n e < 0) n, some n, some n) := by
      rw [treeLink, hd]
    refine ⟨[], [], hin, by simp, by simp, ?_, ?_, ?_⟩
    all_goals rw [hlink]
    exacts [hinsert, rfl, rfl]
  | some link =>
    obtain ⟨parent, side⟩ := link
    have hside := hparent parent side hd
    have hbefore : ∀ e ∈ pre, (q.timeout e).key ≤ (q.timeout n).key := by
      intro e he
      have hnot := hpre e he
      rw [decide_eq_false_iff_not, cmp, timeoutCmp_neg] at hnot
      exact not_lt.mp hnot
    have hbehind : ∀ e ∈ post, (q.timeout n).key < (q.timeout e).key := by
      intro e he
      have hlt := hpost e he
      rwa [decide_eq_true_eq, cmp, timeoutCmp_neg] at hlt
    cases hl : q.treeLast.filter (fun last => decide (0 ≤ q.cmp n last)) with
    | some last =>
      -- not below the last node: nothing is behind the new one
      obtain ⟨hlast, hge⟩ := Option.filter_eq_some_iff.mp hl
      refine ⟨q.timeoTree.list, [], landed_last wf hlast ?_ ?_⟩
      · simpa [cmp, timeoutCmp_nonneg] using hge
      · simp only [treeLink, hd, hl]
    | none =>
      have hpost : post ≠ [] := by
        -- otherwise the last node is not above the new one
        rintro rfl
        rw [append_nil] at hin
        cases hlast : q.treeLast with
        | none =>
          rw [wf.last, List.getLast?_eq_none_iff] at hlast
          rw [RbRoot.parent_eq_none.mpr hlast] at hd
          cases hd
        | some last =>
          have hmem : last ∈ pre := by
            rw [wf.last, hin] at hlast
            exact mem_of_getLast? hlast
          have hge := hbefore last hmem
          rw [hlast, Option.filter_eq_none_iff] at hl
          exact absurd (by simpa [cmp, timeoutCmp_nonneg] using hge) (hl last rfl)
      have hlink : q.treeLink n = (q.timeoTree.insert (fun e => q.cmp n e < 0) n,
          if q.treeFirst = some parent ∧ side = .left then some n else q.treeFirst, q.treeLast) := by
        simp only [treeLink, hd, hl]
      refine ⟨pre, post, hin, hbefore, hbehind, ?_, ?_, ?_⟩
      all_goals rw [hlink]
      · exact hinsert
      · simp only [wf.first, hin]
        cases pre with
        | nil =>
          cases side with
          | left => rw [if_pos ⟨hside, rfl⟩, nil_append, List.head?_cons]
          | right => simp at hside
        | cons e pre =>
          have hne : ¬((e :: pre ++ post).head? = some parent ∧ side = .left) := by
            rintro ⟨he, rfl⟩
            have hmem := mem_of_head? hside
            obtain rfl : e = parent := by simpa using he
            have hnodup := wf.treeNodup
            rw [hin, nodup_append] at hnodup
            exact hnodup.2.2 e (by simp) e hmem rfl
          rw [if_neg hne]
          rfl
      · simp only
        rw [wf.last, hin, List.getLast?_append, List.getLast?_append, List.getLast?_cons]
        cases hgl : post.getLast? with
        | none => exact absurd (List.getLast?_eq_none_iff.mp hgl) hpost
        | some last => simp

structure SameFields (n : NodeId) (q q' : Queues) : Prop where
  timeout : q'.timeout = q.timeout
  inRbtree : ∀ m, m ≠ n → q'.inRbtree m = q.inRbtree m

theorem Wf.insert (wf : q.Wf) (hn : n ∉ q.members) {q' : Queues}
    (same : SameFields n q q') (hperm : q'.members.Perm (n :: q.members))
    (hflag : q'.inRbtree n = true ↔ n ∈ q'.timeoTree.list)
    (htree : ∀ m, m ≠ n → (m ∈ q'.timeoTree.list ↔ m ∈ q.timeoTree.list))
    (hts : q.Sorted q'.timeoTree.list) (hls : q.Sorted q'.timeoList)
    (hfirst : q'.treeFirst = q'.timeoTree.list.head?)
    (hlast : q'.treeLast = q'.timeoTree.list.getLast?) : q'.Wf where
  nodup := hperm.nodup_iff.mpr (nodup_cons.mpr ⟨hn, wf.nodup⟩)
  flag := by
    intro m hm
    by_cases hmn : m = n
    · rw [hmn]
      exact hflag
    · have hm' : m ∈ q.members := by
        simpa [hmn] using hperm.mem_iff.mp hm
      rw [same.inRbtree m hmn, htree m hmn]
      exact wf.flag m hm'
  treeSorted := by
    rw [Sorted, same.timeout]
    exact hts
  listSorted := by
    rw [Sorted, same.timeout]
    exact hls
  first := hfirst
  last := hlast

theorem Landed.timed_perm {pre post : List NodeId} (land : Landed q n pre post) :
    (q.treeInsert n).timed.Perm (n :: q.timed) := by
  change ((q.treeLink n).1.list ++ q.timeoList).Perm _
  rw [land.tree, timed, land.split, ← cons_append]
  exact perm_middle.append_right _

theorem Landed.sorted {pre post : List NodeId} (land : Landed q n pre post) (wf : q.Wf) :
    q.Sorted (pre ++ n :: post) := by
  have hs := wf.treeSorted
  rw [Sorted, land.split, pairwise_append] at hs
  rw [Sorted, pairwise_append, pairwise_cons]
  refine ⟨hs.1, ⟨fun e he => (land.behind e he).le, hs.2.1⟩, ?_⟩
  intro a ha b hb
  rcases mem_cons.mp hb with rfl | hb
  · exact land.before a ha
  · exact hs.2.2 a ha b hb

theorem treeInsert_wf (wf : q.Wf) (hn : n ∉ q.members) : (q.treeInsert n).Wf := by
  obtain ⟨pre, post, land⟩ := treeLink_landed wf n
  have hin : (q.treeInsert n).timeoTree.list = pre ++ n :: post := land.tree
  refine wf.insert hn ⟨rfl, ?_⟩ (land.timed_perm.append_right _) ?_ ?_ ?_ wf.listSorted ?_ ?_
  · intro m hm
    exact update_of_ne hm _ _
  · rw [hin]
    simp [treeInsert]
  · intro m hm
    rw [hin, land.split]
    simp [hm]
  · rw [hin]
    exact land.sorted wf
  · rw [hin]
    exact land.first
  · rw [hin]
    exact land.last

inductive Inserted (q : Queues) (n : NodeId) : Queues → Prop
  | alone (h : q.timeoList = []) (hset : ∀ first, q.treeFirst = some first → q.cmp n first < 0) :
      Inserted q n { q with timeoList := [n], timerfd := q.timeout n }
  | behindTree (first : NodeId) (h : q.timeoList = []) (hfirst : q.treeFirst = some first)
      (hge : 0 ≤ q.cmp n first) : Inserted q n { q with timeoList := [n] }
  | behindList (last : NodeId) (h : q.timeoList.getLast? = some last) (hge : 0 ≤ q.cmp n last) :
      Inserted q n { q with timeoList := q.timeoList ++ [n] }
  | inTree (hne : (q.treeInsert n).treeFirst ≠ some n) : Inserted q n (q.treeInsert n)
  | firstInTree (head : NodeId) (h : q.timeoList.head? = some head) (hge : 0 ≤ q.cmp n head) :
      Inserted q n (q.treeInsert n)
  | firstOfAll (head : NodeId) (h : q.timeoList.head? = some head) (hlt : q.cmp n head < 0)
      (hfirst : (q.treeInsert n).treeFirst = some n) :
      Inserted q n { q.treeInsert n with timerfd := q.timeout n }

theorem insertNode_inserted : Inserted q n (q.insertNode n) := by
  unfold insertNode
  split
  · next h =>
    simp only
    split
    · next hf => exact .alone h (by intro first h'; rw [hf] at h'; cases h')
    · next first hf =>
      split_ifs with hlt
      · refine .alone h ?_
        intro first' h'
        rw [hf] at h'
        cases h'
        exact hlt
      · exact .behindTree first h hf (Int.not_lt.mp hlt)
  · next head tail h =>
    have hhead : q.timeoList.head? = some head := by rw [h]; rfl
    split_ifs with hge
    · refine .behindList _ ?_ hge
      rw [h, List.getLast?_cons, getLastD_eq_getLast?]
    · simp only
      split_ifs with hfirst hlt
      · exact .inTree hfirst
      · exact .firstOfAll head hhead hlt (not_not.mp hfirst)
      · exact .firstInTree head hhead (Int.not_lt.mp hlt)

theorem Inserted.noTimeoList {q' : Queues} (ins : Inserted q n q') :
    q'.noTimeoList = q.noTimeoList := by
  cases ins <;> rfl

theorem Inserted.timeout {q' : Queues} (ins : Inserted q n q') : q'.timeout = q.timeout := by
  cases ins <;> rfl

theorem Inserted.inRbtree {q' : Queues} (ins : Inserted q n q') (m : NodeId) (hm : m ≠ n) :
    q'.inRbtree m = q.inRbtree m := by
  cases ins
  case alone | behindTree | behindList => rfl
  all_goals exact update_of_ne hm _ _

theorem Inserted.timed_perm {q' : Queues} (ins : Inserted q n q') (wf : q.Wf) :
    q'.timed.Perm (n :: q.timed) := by
  obtain ⟨pre, post, land⟩ := treeLink_landed wf n
  have hlist : (q.timeoTree.list ++ [n]).Perm (n :: q.timeoTree.list) :=
    perm_append_singleton _ _
  cases ins with
  | alone h | behindTree first h =>
    rw [timed, timed, h, append_nil]
    exact hlist
  | behindList last h =>
    change (q.timeoTree.list ++ (q.timeoList ++ [n])).Perm _
    rw [← append_assoc]
    exact perm_append_singleton _ _
  | inTree | firstInTree | firstOfAll => exact land.timed_perm

theorem Inserted.wf {q' : Queues} (ins : Inserted q n q') (wf : q.Wf) (hn : n ∉ q.members)
    (hf : q.inRbtree n = false) : q'.Wf := by
  have hmem : q'.members.Perm (n :: q.members) := by
    rw [members, ins.noTimeoList]
    exact (ins.timed_perm wf).append_right _
  have hnt : n ∉ q.timeoTree.list := fun h => hn (mem_members.mpr (.inl h))
  have same : SameFields n q q' := ⟨ins.timeout, ins.inRbtree⟩
  have hls : ∀ l, l = [n] → q.Sorted l := by
    rintro l rfl
    exact pairwise_singleton _ _
  cases ins with
  | alone | behindTree =>
    exact wf.insert hn same hmem (by simp [hf, hnt]) (by simp) wf.treeSorted (hls _ rfl)
      wf.first wf.last
  | behindList last h hge =>
    refine wf.insert hn same hmem (by simp [hf, hnt]) (by simp) wf.treeSorted ?_ wf.first wf.last
    rw [cmp, timeoutCmp_nonneg] at hge
    rw [Sorted, pairwise_append]
    refine ⟨wf.listSorted, pairwise_singleton _ _, ?_⟩
    intro a ha b hb
    rw [mem_singleton.mp hb]
    exact (wf.listSorted.le_last h a ha).trans hge
  | inTree | firstInTree => exact treeInsert_wf wf hn
  | firstOfAll =>
    have htree : (q.treeInsert n).Wf := treeInsert_wf wf hn
    exact { htree with }

theorem unlink_tree (wf : q.Wf) (h : n ∈ q.timeoTree.list) :
    q.unlink n = q.treeErase n := by
  rw [unlink, if_pos ((wf.flag n (mem_members.mpr (.inl h))).mpr h)]

theorem unlink_list (wf : q.Wf) (hn : n ∈ q.members) (h : n ∉ q.timeoTree.list) :
    q.unlink n =
      { q with timeoList := q.timeoList.erase n, noTimeoList := q.noTimeoList.erase n } := by
  rw [unlink, if_neg]
  intro hf
  exact h ((wf.flag n hn).mp hf)

theorem unlink_timeout : (q.unlink n).timeout = q.timeout := by
  unfold unlink
  split <;> rfl

theorem unlink_timerfd : (q.unlink n).timerfd = q.timerfd := by
  unfold unlink
  split <;> rfl

theorem unlink_inRbtree_ne {m : NodeId} (hm : m ≠ n) :
    (q.unlink n).inRbtree m = q.inRbtree m := by
  unfold unlink
  split
  · exact update_of_ne hm _ _
  · rfl

theorem unlink_inRbtree_self : (q.unlink n).inRbtree n = false := by
  unfold unlink
  split
  · exact update_self _ _ _
  · next h => simpa using h

theorem unlink_timed (wf : q.Wf) (hn : n ∈ q.members) :
    (q.unlink n).timed = q.timed.erase n := by
  by_cases h : n ∈ q.timeoTree.list
  · rw [unlink_tree wf h]
    change (q.timeoTree.erase n).list ++ q.timeoList = _
    rw [RbRoot.list_erase, timed, erase_append_left _ h]
  · rw [unlink_list wf hn h, timed, timed, erase_append_right _ h]

theorem unlink_members (wf : q.Wf) (hn : n ∈ q.members) :
    (q.unlink n).members = q.members.erase n := by
  have hno : n ∈ q.timed → (q.unlink n).noTimeoList = q.noTimeoList := by
    intro ht
    have hnot : n ∉ q.noTimeoList := by
      intro hnt
      exact (nodup_append.mp wf.nodup).2.2 n ht n hnt rfl
    unfold unlink
    split
    · rfl
    · exact erase_of_not_mem hnot
  by_cases ht : n ∈ q.timed
  · rw [members, members, erase_append_left _ ht, unlink_timed wf hn, hno ht]
  · have htree : n ∉ q.timeoTree.list := fun h => ht (mem_timed.mpr (.inl h))
    rw [members, members, erase_append_right _ ht, unlink_timed wf hn,
      erase_of_not_mem ht, unlink_list wf hn htree]

theorem unlink_inorder (wf : q.Wf) (hn : n ∈ q.members) :
    (q.unlink n).timeoTree.list = q.timeoTree.list.erase n := by
  by_cases h : n ∈ q.timeoTree.list
  · rw [unlink_tree wf h]
    exact RbRoot.list_erase _ _
  · rw [unlink_list wf hn h, erase_of_not_mem h]

theorem unlink_wf (wf : q.Wf) (hn : n ∈ q.members) : (q.unlink n).Wf where
  nodup := by
    rw [unlink_members wf hn]
    exact wf.nodup.erase n
  flag := by
    intro m hm
    rw [unlink_members wf hn] at hm
    have hne : m ≠ n := by
      rintro rfl
      exact wf.nodup.not_mem_erase hm
    rw [unlink_inRbtree_ne hne, unlink_inorder wf hn, mem_erase_of_ne hne]
    exact wf.flag m (mem_of_mem_erase hm)
  treeSorted := by
    rw [Sorted, unlink_timeout, unlink_inorder wf hn]
    exact wf.treeSorted.sublist (erase_sublist)
  listSorted := by
    rw [Sorted, unlink_timeout]
    unfold unlink
    split
    · exact wf.listSorted
    · exact wf.listSorted.sublist (erase_sublist)
  first := by
    rw [unlink_inorder wf hn, head?_erase, ← wf.first]
    by_cases h : n ∈ q.timeoTree.list
    · rw [unlink_tree wf h]
      rfl
    · rw [unlink_list wf hn h, if_neg]
      intro hf
      rw [wf.first] at hf
      exact h (mem_of_head? hf)
  last := by
    rw [unlink_inorder wf hn, getLast?_erase n wf.treeNodup, ← wf.last]
    by_cases h : n ∈ q.timeoTree.list
    · rw [unlink_tree wf h]
      rfl
    · rw [unlink_list wf hn h, if_neg]
      intro hf
      rw [wf.last] at hf
      exact h (mem_of_getLast? hf)

theorem setTimeout_wf (wf : q.Wf) (hn : n ∉ q.members) (t : Timespec) :
    Wf { q with timeout := update q.timeout n t } := by
  have hsorted : ∀ l : List NodeId, (∀ m ∈ l, m ∈ q.members) → q.Sorted l →
      Sorted { q with timeout := update q.timeout n t } l := by
    intro l hl hs
    refine hs.imp_of_mem ?_
    intro a b ha hb hab
    have hna : a ≠ n := fun h => hn (h ▸ hl a ha)
    have hnb : b ≠ n := fun h => hn (h ▸ hl b hb)
    simpa [update_of_ne hna, update_of_ne hnb] using hab
  exact ⟨wf.nodup, wf.flag,
    hsorted _ (fun m hm => mem_members.mpr (.inl hm)) wf.treeSorted,
    hsorted _ (fun m hm => mem_members.mpr (.inr (.inl hm))) wf.listSorted, wf.first, wf.last⟩

theorem addNoTimeout_wf (wf : q.Wf) (hn : n ∉ q.members) (hf : q.inRbtree n = false) :
    (q.addNoTimeout n).Wf := by
  have hperm : (q.addNoTimeout n).members.Perm (n :: q.members) := by
    change (q.timed ++ (q.noTimeoList ++ [n])).Perm _
    rw [← append_assoc]
    exact perm_append_singleton _ _
  have hnt : n ∉ q.timeoTree.list := fun h => hn (mem_members.mpr (.inl h))
  exact wf.insert hn ⟨rfl, fun _ _ => rfl⟩ hperm (by simp [addNoTimeout, hf, hnt])
    (fun _ _ => Iff.rfl) wf.treeSorted wf.listSorted wf.first wf.last

structure TreeExpired (now : Timespec) (q : Queues) (due : List NodeId) (q' : Queues) : Prop where
  split : q.timeoTree.list = due ++ q'.timeoTree.list
  due : ∀ n ∈ due, (q.timeout n).key ≤ now.key
  rest : ∀ n ∈ q'.timeoTree.list, now.key < (q.timeout n).key
  first : q'.treeFirst = q'.timeoTree.list.head?
  last : q'.treeLast = q'.timeoTree.list.getLast?
  same : q' = { q with
    timeoTree := q'.timeoTree, treeFirst := q'.treeFirst, treeLast := q'.treeLast }

theorem expireTree_spec (now : Timespec) (fuel : ℕ) (q : Queues)
    (hfuel : q.timeoTree.list.length ≤ fuel) (hs : q.Sorted q.timeoTree.list)
    (hfirst : q.treeFirst = q.timeoTree.list.head?)
    (hlast : q.treeLast = q.timeoTree.list.getLast?) :
    TreeExpired now q (expireTree now fuel q).1 (expireTree now fuel q).2 := by
  induction fuel generalizing q with
  | zero =>
    have hnil : q.timeoTree.list = [] := eq_nil_of_length_eq_zero (by omega)
    exact ⟨rfl, by simp [expireTree], by simp [expireTree, hnil], hfirst, hlast, rfl⟩
  | succ fuel ih =>
    cases hin : q.timeoTree.list with
    | nil =>
      rw [hin] at hfirst
      have hstop : expireTree now (fuel + 1) q = ([], q) := by
        rw [expireTree, hfirst]
        rfl
      rw [hstop]
      exact ⟨rfl, by simp, by simp [hin], by rw [hfirst, hin], hlast, rfl⟩
    | cons n rest =>
      have hf : q.treeFirst = some n := by rw [hfirst, hin]; rfl
      by_cases hlate : 0 < timeoutCmp (q.timeout n) now
      · have hstop : expireTree now (fuel + 1) q = ([], q) := by
          rw [expireTree, hf]
          simp only [hlate, ↓reduceIte]
        rw [hstop]
        rw [timeoutCmp_pos] at hlate
        refine ⟨rfl, by simp, ?_, hfirst, hlast, rfl⟩
        exact fun m hm => lt_of_lt_of_le hlate ((hs.head_le (hfirst.symm.trans hf)).2 m hm)
      · have herase : (q.timeoTree.erase n).list = rest := by
          rw [RbRoot.list_erase, hin, erase_cons_head]
        have hnext : next n (n :: rest) = rest.head? := by simp [SearchTree.next]
        let q₁ : Queues := { q with
          timeoTree := q.timeoTree.erase n
          treeFirst := rest.head?
          treeLast := if rest.head? = none then none else q.treeLast }
        have hin₁ : q₁.timeoTree.list = rest := herase
        have hgo : expireTree now (fuel + 1) q =
            (n :: (expireTree now fuel q₁).1, (expireTree now fuel q₁).2) := by
          rw [expireTree, hf]
          simp only [hlate, ↓reduceIte, hin, hnext]
          rfl
        rw [hin] at hfuel hlast
        rw [Sorted, hin, pairwise_cons] at hs
        have hrest := ih q₁ (by rw [hin₁]; exact Nat.le_of_succ_le_succ hfuel)
          (by rw [Sorted, hin₁]; exact hs.2) (by rw [hin₁])
          (by
            rw [hin₁]
            simp only [q₁, hlast]
            cases rest with
            | nil => rfl
            | cons m rest => simp)
        rw [hgo]
        rw [timeoutCmp_pos, not_lt] at hlate
        refine ⟨?_, ?_, hrest.rest, hrest.first, hrest.last, ?_⟩
        · rw [hin, cons_append, ← hrest.split, hin₁]
        · intro m hm
          rcases mem_cons.mp hm with rfl | hm
          · exact hlate
          · exact hrest.due m hm
        · conv_lhs => rw [hrest.same]

theorem not_of_mem_dropWhile {p : NodeId → Bool} {l : List NodeId}
    (h : l.Pairwise (fun a b => p b = true → p a = true)) : ∀ n ∈ l.dropWhile p, p n = false := by
  induction l with
  | nil => simp
  | cons a l ih =>
    rw [pairwise_cons] at h
    cases ha : p a with
    | true =>
      rw [dropWhile_cons_of_pos ha]
      exact ih h.2
    | false =>
      rw [dropWhile_cons_of_neg (by simp [ha])]
      intro n hn
      rcases mem_cons.mp hn with rfl | hn
      · exact ha
      · by_contra hne
        rw [h.1 n hn (by simpa using hne)] at ha
        cases ha

structure Expired (now : Timespec) (q : Queues) (due : List NodeId) (q' : Queues) : Prop where
  wf : q'.Wf
  perm : q.timed.Perm (due ++ q'.timed)
  due : ∀ n ∈ due, (q.timeout n).key ≤ now.key
  rest : ∀ n ∈ q'.timed, now.key < (q.timeout n).key
  noTimeoList : q'.noTimeoList = q.noTimeoList
  timeout : q'.timeout = q.timeout

theorem expire_spec (wf : q.Wf) (now : Timespec) :
    Expired now q (q.expire now).1 (q.expire now).2 := by
  set isDue := fun n => decide (¬ 0 < timeoutCmp (q.timeout n) now) with hisDue
  have hdue : ∀ n, isDue n = true ↔ (q.timeout n).key ≤ now.key := by
    intro n
    rw [hisDue, decide_eq_true_eq, timeoutCmp_pos, not_lt]
  have htree := expireTree_spec now q.timeoTree.list.length
    { q with timeoList := q.timeoList.dropWhile isDue } le_rfl wf.treeSorted wf.first wf.last
  set r := expireTree now q.timeoTree.list.length
    { q with timeoList := q.timeoList.dropWhile isDue } with hr
  have hexp : q.expire now = (q.timeoList.takeWhile isDue ++ r.1, r.2) := rfl
  have hsplit : q.timeoTree.list = r.1 ++ r.2.timeoTree.list := htree.split
  have hlist : r.2.timeoList = q.timeoList.dropWhile isDue := by rw [htree.same]
  have hno : r.2.noTimeoList = q.noTimeoList := by rw [htree.same]
  have htime : r.2.timeout = q.timeout := by rw [htree.same]
  have hflag : r.2.inRbtree = q.inRbtree := by rw [htree.same]
  have hperm : q.timed.Perm ((q.timeoList.takeWhile isDue ++ r.1) ++ r.2.timed) := by
    rw [perm_iff_count]
    intro m
    have hcount := congrArg (List.count m) (takeWhile_append_dropWhile (p := isDue)
      (l := q.timeoList))
    simp only [timed, hsplit, hlist, count_append] at hcount ⊢
    omega
  have hmembers : q.members.Perm ((q.timeoList.takeWhile isDue ++ r.1) ++ r.2.members) := by
    rw [members, members, hno, ← append_assoc]
    exact hperm.append_right _
  rw [hexp]
  refine ⟨⟨?_, ?_, ?_, ?_, htree.first, htree.last⟩, hperm, ?_, ?_, hno, htime⟩
  · exact (nodup_append.mp (hmembers.nodup_iff.mp wf.nodup)).2.1
  · intro m hm
    have hm' : m ∈ q.members := hmembers.mem_iff.mpr (by simp [hm])
    rw [hflag, wf.flag m hm', hsplit, mem_append]
    constructor
    · rintro (hd | ht)
      · -- a node that left the tree is no longer a member
        have := (nodup_append.mp (hmembers.nodup_iff.mp wf.nodup)).2.2
        exact absurd rfl (this m (by simp [hd]) m hm)
      · exact ht
    · exact .inr
  · have hs := wf.treeSorted
    rw [Sorted, hsplit, pairwise_append] at hs
    rw [Sorted, htime]
    exact hs.2.1
  · rw [Sorted, htime, hlist]
    exact wf.listSorted.sublist (dropWhile_sublist _)
  · intro n hn
    rcases mem_append.mp hn with hn | hn
    · exact (hdue n).mp (mem_takeWhile_imp hn)
    · exact htree.due n hn
  · intro n hn
    rcases mem_timed.mp hn with hn | hn
    · exact htree.rest n hn
    · rw [hlist] at hn
      have hmono : q.timeoList.Pairwise (fun a b => isDue b = true → isDue a = true) := by
        refine wf.listSorted.imp ?_
        intro a b hab
        rw [hdue, hdue]
        exact hab.trans
      have hnot := not_of_mem_dropWhile hmono n hn
      rw [← not_le, ← hdue, hnot]
      exact Bool.false_ne_true

theorem drainTree_spec (fuel : ℕ) (tree : RbRoot NodeId) (nodes : List NodeId)
    (hfuel : tree.list.length ≤ fuel) :
    (drainTree fuel tree nodes).1.Perm (tree.list ++ nodes) ∧
      (drainTree fuel tree nodes).2.list = [] := by
  induction fuel generalizing tree nodes with
  | zero =>
    have hnil : tree.list = [] := eq_nil_of_length_eq_zero (by omega)
    exact ⟨by rw [hnil]; exact List.Perm.refl _, hnil⟩
  | succ fuel ih =>
    rw [drainTree]
    split
    next hroot =>
      have hnil : tree.list = [] := by rw [RbRoot.list, hroot, inorder_nil]
      exact ⟨by rw [hnil]; exact List.Perm.refl _, hnil⟩
    next n l r hroot =>
      have hmem : n ∈ tree.list := by simp [RbRoot.list, hroot]
      obtain ⟨hperm, hnil⟩ := ih (tree.erase n) (n :: nodes) (by
        rw [RbRoot.list_erase, length_erase_of_mem hmem]
        omega)
      refine ⟨hperm.trans ?_, hnil⟩
      rw [RbRoot.list_erase]
      exact perm_middle.trans ((perm_cons_erase hmem).symm.append_right nodes)

theorem drain_perm : q.drain.1.Perm q.members := by
  have hperm := (drainTree_spec _ q.timeoTree [] le_rfl).1
  rw [append_nil] at hperm
  rw [perm_iff_count]
  intro m
  have hcount := hperm.count_eq m
  simp only [drain, members, timed, count_append] at hcount ⊢
  omega

theorem drain_members : q.drain.2.members = [] := by
  have hnil := (drainTree_spec _ q.timeoTree [] le_rfl).2
  simp [drain, members, timed, hnil]

theorem drain_wf : q.drain.2.Wf := by
  have hnil := (drainTree_spec _ q.timeoTree [] le_rfl).2
  have htree : q.drain.2.timeoTree.list = [] := hnil
  refine ⟨by rw [drain_members]; exact nodup_nil, ?_, ?_, List.Pairwise.nil, ?_, ?_⟩
  · rw [drain_members]
    intro n hn
    cases hn
  · rw [htree]
    exact List.Pairwise.nil
  · rw [htree]
    rfl
  · rw [htree]
    rfl

def Armed (q : Queues) : Prop :=
  ∀ n ∈ q.timed, q.timerfd ≠ .zero ∧ q.timerfd.key ≤ (q.timeout n).key

theorem Armed.mono {q' : Queues} (armed : q.Armed) (ht : q'.timerfd = q.timerfd)
    (hm : ∀ n ∈ q'.timed, n ∈ q.timed ∧ q'.timeout n = q.timeout n) : q'.Armed := by
  intro n hn
  obtain ⟨hq, htime⟩ := hm n hn
  rw [ht, htime]
  exact armed n hq

theorem first_le (wf : q.Wf) {first : NodeId} (h : q.treeFirst = some first) :
    first ∈ q.timeoTree.list ∧
      ∀ n ∈ q.timeoTree.list, (q.timeout first).key ≤ (q.timeout n).key :=
  wf.treeSorted.head_le (wf.first.symm.trans h)

theorem no_tree (wf : q.Wf) (h : q.treeFirst = none) : q.timeoTree.list = [] := by
  rw [wf.first] at h
  exact List.head?_eq_none_iff.mp h

theorem nearest_spec (wf : q.Wf) : (q.nearest = none → q.timed = []) ∧
    ∀ m, q.nearest = some m →
      m ∈ q.timed ∧ ∀ n ∈ q.timed, (q.timeout m).key ≤ (q.timeout n).key := by
  unfold nearest
  cases hf : q.treeFirst with
  | none =>
    have hnil := no_tree wf hf
    simp only [timed, hnil, nil_append]
    exact ⟨fun h => List.head?_eq_none_iff.mp h, fun m hm => wf.listSorted.head_le hm⟩
  | some first =>
    obtain ⟨hmem, hle⟩ := first_le wf hf
    cases hh : q.timeoList.head? with
    | none =>
      have hnil := List.head?_eq_none_iff.mp hh
      simp only [timed, hnil, append_nil]
      refine ⟨by simp, ?_⟩
      rintro m ⟨⟩
      exact ⟨hmem, hle⟩
    | some head =>
      obtain ⟨hmem', hle'⟩ := wf.listSorted.head_le hh
      refine ⟨by simp only; split_ifs <;> simp, ?_⟩
      intro m hm
      simp only at hm
      split_ifs at hm with hlt
      · obtain rfl : first = m := by simpa using hm
        rw [cmp, timeoutCmp_neg] at hlt
        refine ⟨mem_timed.mpr (.inl hmem), ?_⟩
        intro n hn
        rcases mem_timed.mp hn with hn | hn
        · exact hle n hn
        · exact hlt.le.trans (hle' n hn)
      · obtain rfl : head = m := by simpa using hm
        rw [cmp, timeoutCmp_neg, not_lt] at hlt
        refine ⟨mem_timed.mpr (.inr hmem'), ?_⟩
        intro n hn
        rcases mem_timed.mp hn with hn | hn
        · exact hlt.trans (hle n hn)
        · exact hle' n hn

theorem setTimer_armed (wf : q.Wf) (hpos : ∀ n ∈ q.timed, q.timeout n ≠ .zero) :
    q.setTimer.Armed := by
  obtain ⟨hnone, hsome⟩ := nearest_spec wf
  unfold setTimer
  cases hm : q.nearest with
  | none =>
    intro n hn
    change n ∈ q.timed at hn
    rw [hnone hm] at hn
    cases hn
  | some m =>
    obtain ⟨hmem, hle⟩ := hsome m hm
    intro n hn
    exact ⟨hpos m hmem, hle n hn⟩

theorem Inserted.armed {q' : Queues} (ins : Inserted q n q') (wf : q.Wf) (hn : n ∉ q.members)
    (armed : q.Armed) (hpos : q.timeout n ≠ .zero) : q'.Armed := by
  have hkeep : ∀ e ∈ q.timed, (q.timeout e).key ≤ (q.timeout n).key →
      q'.timerfd = q.timerfd → q'.Armed := by
    intro e he hle ht m hm
    rw [ht, ins.timeout]
    have hm' := (ins.timed_perm wf).mem_iff.mp hm
    rcases mem_cons.mp hm' with rfl | hm'
    · exact ⟨(armed e he).1, (armed e he).2.trans hle⟩
    · exact armed m hm'
  have hset : q'.timerfd = q.timeout n →
      (∀ e ∈ q.timed, (q.timeout n).key ≤ (q.timeout e).key) → q'.Armed := by
    intro ht hle m hm
    rw [ht, ins.timeout]
    have hm' := (ins.timed_perm wf).mem_iff.mp hm
    rcases mem_cons.mp hm' with rfl | hm'
    · exact ⟨hpos, le_rfl⟩
    · exact ⟨hpos, hle m hm'⟩
  obtain ⟨pre, post, land⟩ := treeLink_landed wf n
  have hfirst : (q.treeInsert n).treeFirst = (pre ++ n :: post).head? := land.first
  cases ins with
  | alone h hlt =>
    refine hset rfl ?_
    intro e he
    rw [timed, h, append_nil] at he
    cases hf : q.treeFirst with
    | none =>
      rw [no_tree wf hf] at he
      cases he
    | some first =>
      have hc := hlt first hf
      rw [cmp, timeoutCmp_neg] at hc
      exact hc.le.trans ((first_le wf hf).2 e he)
  | behindTree first h hf hge =>
    rw [cmp, timeoutCmp_nonneg] at hge
    exact hkeep first (mem_timed.mpr (.inl (first_le wf hf).1)) hge rfl
  | behindList last h hge =>
    rw [cmp, timeoutCmp_nonneg] at hge
    exact hkeep last (mem_timed.mpr (.inr (mem_of_getLast? h))) hge rfl
  | inTree hne =>
    rw [hfirst] at hne
    cases hpre : pre with
    | nil =>
      rw [hpre] at hne
      exact absurd rfl hne
    | cons e pre' =>
      have he : e ∈ pre := by simp [hpre]
      have hmem : e ∈ q.timeoTree.list := by simp [land.split, he]
      exact hkeep e (mem_timed.mpr (.inl hmem)) (land.before e he) rfl
  | firstInTree head h hge =>
    rw [cmp, timeoutCmp_nonneg] at hge
    exact hkeep head (mem_timed.mpr (.inr (wf.listSorted.head_le h).1)) hge rfl
  | firstOfAll head h hlt hf =>
    rw [cmp, timeoutCmp_neg] at hlt
    refine hset rfl ?_
    intro e he
    rcases mem_timed.mp he with he | he
    · rw [hfirst] at hf
      rw [land.split] at he
      cases hpre : pre with
      | nil =>
        rw [hpre] at he
        exact (land.behind e he).le
      | cons a pre' =>
        rw [hpre] at hf
        obtain rfl : a = n := by simpa using hf
        exact absurd (mem_members.mpr (.inl (by simp [land.split, hpre]))) hn
    · exact hlt.le.trans ((wf.listSorted.head_le h).2 e he)

end Queues

end MyWorkflow.Poller
