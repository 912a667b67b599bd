import MyWorkflow.IndexedHeap
import MyWorkflow.Runs

set_option autoImplicit false

/-!
# The scheduler of connections

A target gives out a limited number of connections. A group gives out a connection of the target
that is least loaded, which it finds on top of a heap. What a call does under the mutex is one
step, and so is what a thread does when it comes back from a condition wait.
-/
namespace MyWorkflow.Comm.Sched
open IndexedHeap

abbrev TargetId := ℕ

abbrev GroupId := ℕ

def wrap (n : ℕ) : ℕ := n % 2 ^ 64

/-- A condition variable: how many threads sleep on it, and how many were woken and have not come
    back from the wait. -/
structure Cond where
  blocked : ℕ
  woken : ℕ
deriving DecidableEq, Repr

def Cond.wait (c : Cond) : Cond := { c with blocked := c.blocked + 1 }

def Cond.signal (c : Cond) : Cond :=
  if 0 < c.blocked then ⟨c.blocked - 1, c.woken + 1⟩ else c

def Cond.resume (c : Cond) : Cond := { c with woken := c.woken - 1 }

structure Target where
  maxLoad : ℕ
  curLoad : ℕ
  group : Option GroupId
  index : ℕ
  waitCnt : ℕ
  cond : Cond

structure Group where
  tgHeap : ℕ → TargetId
  heapSize : ℕ
  heapBufSize : ℕ
  maxLoad : ℕ
  curLoad : ℕ
  waitCnt : ℕ
  cond : Cond

structure State where
  targets : TargetId → Target
  groups : GroupId → Group
  /-- The connections that somebody was given and has not released. -/
  acquired : TargetId → ℕ

abbrev Limit := { n : ℕ // 0 < n ∧ n < 2 ^ 64 }

def Target.init (limit : Limit) : Target where
  maxLoad := limit
  curLoad := 0
  group := none
  index := 0
  waitCnt := 0
  cond := ⟨0, 0⟩

def Group.init : Group where
  tgHeap := fun _ => 0
  heapSize := 0
  heapBufSize := 4
  maxLoad := 0
  curLoad := 0
  waitCnt := 0
  cond := ⟨0, 0⟩

def State.init (limit : TargetId → Limit) : State where
  targets := fun t => .init (limit t)
  groups := fun _ => .init
  acquired := fun _ => 0

/-! ## The heap of a group -/

def targetCmp (targets : TargetId → Target) (target1 target2 : TargetId) : ℤ :=
  let load1 := wrap ((targets target1).curLoad * (targets target2).maxLoad)
  let load2 := wrap ((targets target2).curLoad * (targets target1).maxLoad)
  if load1 < load2 then -1 else if load1 > load2 then 1 else 0

def heapAdjustLoop (cmp : TargetId → TargetId → ℤ) (target : TargetId) (swapOnEqual : ℤ) :
    ℕ → ℕ → Slots TargetId → Slots TargetId
  | 0, index, heap => heap.place index target
  | rounds + 1, index, heap =>
    if 0 < index then
      let parent := heap.item ((index - 1) / 2)
      if cmp target parent < swapOnEqual then
        heapAdjustLoop cmp target swapOnEqual rounds ((index - 1) / 2) (heap.place index parent)
      else heap.place index target
    else heap.place index target

def heapifyLoop (cmp : TargetId → TargetId → ℤ) (heapSize : ℕ) (target : TargetId) :
    ℕ → ℕ → Slots TargetId → Slots TargetId
  | 0, top, heap => heap.place top target
  | rounds + 1, top, heap =>
    let last := heapSize - 1
    let i := 2 * top + 1
    let child0 := heap.item i
    let child1 := heap.item (i + 1)
    if i < last then
      if cmp child0 target < 0 then
        if cmp child1 child0 < 0 then
          heapifyLoop cmp heapSize target rounds (i + 1) (heap.place top child1)
        else heapifyLoop cmp heapSize target rounds i (heap.place top child0)
      else if cmp child1 target < 0 then
        heapifyLoop cmp heapSize target rounds (i + 1) (heap.place top child1)
      else heap.place top target
    else if i = last ∧ cmp child0 target < 0 then (heap.place top child0).place i target
    else heap.place top target

namespace State

def setTarget (t : TargetId) (f : Target → Target) (s : State) : State :=
  { s with targets := Function.update s.targets t (f (s.targets t)) }

def setGroup (g : GroupId) (f : Group → Group) (s : State) : State :=
  { s with groups := Function.update s.groups g (f (s.groups g)) }

def heap (s : State) (g : GroupId) : Slots TargetId :=
  ⟨(s.groups g).tgHeap, fun t => (s.targets t).index⟩

def setHeap (g : GroupId) (heap : Slots TargetId) (s : State) : State :=
  { s.setGroup g fun x => { x with tgHeap := heap.item } with
    targets := fun t => { s.targets t with index := heap.pos t } }

@[simp] theorem setTarget_groups (s : State) (t : TargetId) (f : Target → Target) :
    (s.setTarget t f).groups = s.groups := rfl

@[simp] theorem setTarget_acquired (s : State) (t : TargetId) (f : Target → Target) :
    (s.setTarget t f).acquired = s.acquired := rfl

@[simp] theorem setGroup_targets (s : State) (g : GroupId) (f : Group → Group) :
    (s.setGroup g f).targets = s.targets := rfl

@[simp] theorem setHeap_targets (s : State) (g : GroupId) (heap : Slots TargetId) (t : TargetId) :
    (s.setHeap g heap).targets t = { s.targets t with index := heap.pos t } := rfl

@[simp] theorem setTarget_self (s : State) (t : TargetId) (f : Target → Target) :
    (s.setTarget t f).targets t = f (s.targets t) := Function.update_self _ _ _

theorem setTarget_of_ne {s : State} {t u : TargetId} {f : Target → Target} (hu : u ≠ t) :
    (s.setTarget t f).targets u = s.targets u := Function.update_of_ne hu _ _

@[simp] theorem setGroup_self (s : State) (g : GroupId) (f : Group → Group) :
    (s.setGroup g f).groups g = f (s.groups g) := Function.update_self _ _ _

theorem setGroup_of_ne {s : State} {g k : GroupId} {f : Group → Group} (hk : k ≠ g) :
    (s.setGroup g f).groups k = s.groups k := Function.update_of_ne hk _ _

@[simp] theorem setHeap_groups_self (s : State) (g : GroupId) (heap : Slots TargetId) :
    (s.setHeap g heap).groups g = { s.groups g with tgHeap := heap.item } :=
  Function.update_self _ _ _

theorem setHeap_groups_of_ne {s : State} {g k : GroupId} {heap : Slots TargetId} (hk : k ≠ g) :
    (s.setHeap g heap).groups k = s.groups k := Function.update_of_ne hk _ _

@[simp] theorem setHeap_heap (s : State) (g : GroupId) (heap : Slots TargetId) :
    (s.setHeap g heap).heap g = heap := by
  rw [State.heap, setHeap_groups_self]
  rfl

def heapAdjust (g : GroupId) (index : ℕ) (swapOnEqual : ℤ) (s : State) : State :=
  s.setHeap g (heapAdjustLoop (targetCmp s.targets) ((s.groups g).tgHeap index) swapOnEqual index
    index (s.heap g))

def heapify (g : GroupId) (top : ℕ) (s : State) : State :=
  s.setHeap g (heapifyLoop (targetCmp s.targets) (s.groups g).heapSize ((s.groups g).tgHeap top)
    (s.groups g).heapSize top (s.heap g))

/-- `memory` is whether `realloc` finds any. -/
def heapInsert (memory : Bool) (g : GroupId) (target : TargetId) (s : State) : Option State :=
  let size := (s.groups g).heapSize
  let full := size = (s.groups g).heapBufSize
  if full ∧ memory = false then none
  else
    let s := s.setGroup g fun x =>
      { x with heapBufSize := if full then 2 * x.heapBufSize else x.heapBufSize }
    let s := s.setHeap g ((s.heap g).place size target)
    let s := s.heapAdjust g size 0
    some (s.setGroup g fun x => { x with heapSize := size + 1 })

def heapRemove (g : GroupId) (index : ℕ) (s : State) : State :=
  let s := s.setGroup g fun x => { x with heapSize := x.heapSize - 1 }
  let size := (s.groups g).heapSize
  if index ≠ size then
    let target := (s.groups g).tgHeap size
    let s := s.setHeap g ((s.heap g).place index target)
    let s := s.heapAdjust g index 0
    s.heapify g (s.targets target).index
  else s

/-! ## The calls -/

def signalTarget (t : TargetId) (s : State) : State :=
  s.setTarget t fun x => { x with cond := x.cond.signal }

def signalGroup (g : GroupId) (s : State) : State :=
  s.setGroup g fun x => { x with cond := x.cond.signal }

def give (target : TargetId) (s : State) : State :=
  { s with acquired := Function.update s.acquired target (s.acquired target + 1) }

@[simp] theorem give_targets (s : State) (t : TargetId) : (s.give t).targets = s.targets := rfl

@[simp] theorem give_acquired_self (s : State) (t : TargetId) :
    (s.give t).acquired t = s.acquired t + 1 := Function.update_self _ _ _

theorem give_acquired_of_ne {s : State} {t u : TargetId} (hu : u ≠ t) :
    (s.give t).acquired u = s.acquired u := Function.update_of_ne hu _ _

end State

inductive Errno where
  | eagain
  | eexist
  | einval
  | ebusy
  | enoent
  | enomem
  | etimedout
deriving DecidableEq, Repr

inductive Outcome where
  | target (t : TargetId)
  | error (e : Errno)
  | waits
deriving DecidableEq, Repr

namespace State

def targetTake (t : TargetId) (s : State) : State :=
  let s := s.setTarget t fun x => { x with curLoad := x.curLoad + 1 }
  match (s.targets t).group with
  | some g =>
    let s := s.setGroup g fun x => { x with curLoad := x.curLoad + 1 }
    (s.heapify g (s.targets t).index).give t
  | none => s.give t

def targetWait (t : TargetId) (s : State) : State :=
  s.setTarget t fun x => { x with waitCnt := x.waitCnt + 1, cond := x.cond.wait }

/-- `CommSchedTarget::acquire` up to its first wait. Without `wait` the `wait_timeout` is 0. -/
def targetAcquire (wait : Bool) (t : TargetId) (s : State) : Outcome × State :=
  if (s.targets t).curLoad ≥ (s.targets t).maxLoad then
    if wait then (.waits, s.targetWait t) else (.error .eagain, s)
  else (.target t, s.targetTake t)

/-- Behind the wait. `timedOut` is whether it returned `ETIMEDOUT`. -/
def targetResume (timedOut : Bool) (t : TargetId) (s : State) : Outcome × State :=
  let s := s.setTarget t fun x => { x with waitCnt := x.waitCnt - 1, cond := x.cond.resume }
  if (s.targets t).curLoad ≥ (s.targets t).maxLoad then
    if timedOut then (.error .etimedout, s) else (.waits, s.targetWait t)
  else (.target t, s.targetTake t)

def release (t : TargetId) (hasIdleConn : Bool) (s : State) : State :=
  let s := s.setTarget t fun x => { x with curLoad := x.curLoad - 1 }
  let s := if (s.targets t).waitCnt > 0 then s.signalTarget t else s
  match (s.targets t).group with
  | some g =>
    let s := s.setGroup g fun x => { x with curLoad := x.curLoad - 1 }
    let s := if (s.targets t).waitCnt = 0 ∧ (s.groups g).waitCnt > 0 then s.signalGroup g else s
    s.heapAdjust g (s.targets t).index (if hasIdleConn then 1 else 0)
  | none => s

def add (memory : Bool) (g : GroupId) (target : TargetId) (s : State) : Option Errno × State :=
  let x := s.targets target
  if x.group = none ∧ x.waitCnt = 0 then
    match s.heapInsert memory g target with
    | some s =>
      let s := s.setTarget target fun x => { x with group := some g }
      let s := s.setGroup g fun y =>
        { y with maxLoad := wrap (y.maxLoad + x.maxLoad), curLoad := wrap (y.curLoad + x.curLoad) }
      let y := s.groups g
      (none, if y.waitCnt > 0 ∧ y.curLoad < y.maxLoad then s.signalGroup g else s)
    | none => (some .enomem, s)
  else if x.group = some g then (some .eexist, s)
  else if x.group ≠ none then (some .einval, s)
  else (some .ebusy, s)

def remove (g : GroupId) (target : TargetId) (s : State) : Option Errno × State :=
  let x := s.targets target
  if x.group = some g ∧ x.waitCnt = 0 then
    let s := s.heapRemove g x.index
    let s := s.setGroup g fun y =>
      { y with
        maxLoad := wrap (y.maxLoad + (2 ^ 64 - x.maxLoad))
        curLoad := wrap (y.curLoad + (2 ^ 64 - x.curLoad)) }
    (none, s.setTarget target fun x => { x with group := none })
  else if x.group ≠ some g then (some .enoent, s)
  else (some .ebusy, s)

def groupTake (g : GroupId) (s : State) : State :=
  let target := (s.groups g).tgHeap 0
  let s := s.setTarget target fun x => { x with curLoad := x.curLoad + 1 }
  let s := s.setGroup g fun x => { x with curLoad := x.curLoad + 1 }
  (s.heapify g 0).give target

def groupWait (g : GroupId) (s : State) : State :=
  s.setGroup g fun x => { x with waitCnt := x.waitCnt + 1, cond := x.cond.wait }

def groupAcquire (wait : Bool) (g : GroupId) (s : State) : Outcome × State :=
  if (s.groups g).curLoad ≥ (s.groups g).maxLoad then
    if wait then (.waits, s.groupWait g) else (.error .eagain, s)
  else (.target ((s.groups g).tgHeap 0), s.groupTake g)

def groupResume (timedOut : Bool) (g : GroupId) (s : State) : Outcome × State :=
  let s := s.setGroup g fun x => { x with waitCnt := x.waitCnt - 1, cond := x.cond.resume }
  if (s.groups g).curLoad ≥ (s.groups g).maxLoad then
    if timedOut then (.error .etimedout, s) else (.waits, s.groupWait g)
  else (.target ((s.groups g).tgHeap 0), s.groupTake g)

end State

inductive Op where
  | add (memory : Bool) (g : GroupId) (t : TargetId)
  | remove (g : GroupId) (t : TargetId)
  | groupAcquire (wait : Bool) (g : GroupId)
  | targetAcquire (wait : Bool) (t : TargetId)
  | release (t : TargetId) (hasIdleConn : Bool)
  /-- A wait ends without a signal: its time is up, or it wakes spuriously. -/
  | groupWake (g : GroupId)
  | targetWake (t : TargetId)
  | groupResume (timedOut : Bool) (g : GroupId)
  | targetResume (timedOut : Bool) (t : TargetId)
deriving DecidableEq, Repr

def step (s : State) : Op → Option State
  | .add memory g t => some (s.add memory g t).2
  | .remove g t => some (s.remove g t).2
  | .groupAcquire wait g => some (s.groupAcquire wait g).2
  | .targetAcquire wait t => some (s.targetAcquire wait t).2
  | .release t hasIdleConn =>
    if 0 < s.acquired t then
      some { s.release t hasIdleConn with
        acquired := Function.update s.acquired t (s.acquired t - 1) }
    else none
  | .groupWake g => some (s.signalGroup g)
  | .targetWake t => some (s.signalTarget t)
  | .groupResume timedOut g =>
    if 0 < (s.groups g).cond.woken then some (s.groupResume timedOut g).2 else none
  | .targetResume timedOut t =>
    if 0 < (s.targets t).cond.woken then some (s.targetResume timedOut t).2 else none

end MyWorkflow.Comm.Sched
