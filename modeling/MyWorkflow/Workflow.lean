import MyWorkflow.Bags
import MyWorkflow.Runs

set_option autoImplicit false

/-!
# Series and parallel work

A workflow as its tasks and its threads see it. A thread is a stack of what it has still to do;
it moves when the frame on top does. The mutex of a series makes each push and each `pop_task`
one step, and so is each decrement of `nleft`.
-/
namespace MyWorkflow.Workflow
open Bags

abbrev SeriesId := ℕ

abbrev ParallelId := ℕ

/-- A `SubTask`: one of which the workflow knows nothing else, or a `ParallelWork`. -/
inductive Task where
  | leaf (n : ℕ)
  | work (p : ParallelId)
deriving DecidableEq, Repr

structure Series where
  first : Task
  queue : List Task
  last : Option Task
  canceled : Bool
  finished : Bool
  inParallel : Option ParallelId
deriving DecidableEq, Repr

def Series.ofFirst (first : Task) : Series where
  first := first
  queue := []
  last := none
  canceled := false
  finished := false
  inParallel := none

inductive Event where
  | start (s : SeriesId)
  | dispatch (t : Task)
  | done (t : Task)
  | callback (p : ParallelId)
  | finish (s : SeriesId)
  | delete (t : Task)
  | displace (t : Task)
  | dismiss (s : SeriesId)
  | deleteSeries (s : SeriesId)
deriving DecidableEq, Repr

structure Heap where
  pointer : Task → Option SeriesId
  parent : Task → Option ParallelId
  nleft : ParallelId → ℕ
  allSeries : ParallelId → List SeriesId
  series : SeriesId → Series
  created : ℕ
  /-- Tasks that were dispatched and for which nobody has called `subtask_done`. -/
  running : List Task
  log : List Event

def Heap.init : Heap where
  pointer := fun _ => none
  parent := fun _ => none
  nleft := fun _ => 0
  allSeries := fun _ => []
  series := fun _ => .ofFirst (.leaf 0)
  created := 0
  running := []
  log := []

inductive Frame where
  | dispatch (t : Task)
  /-- The loop of `ParallelTask::dispatch`, with the series whose first tasks are left. -/
  | loop (p : ParallelId) (rest : List SeriesId)
  | done (t : Task)
  | pop (s : SeriesId) (parent : Option ParallelId)
  | popTask (s : SeriesId) (parent : Option ParallelId) (canceled : Bool)
  | callback (s : SeriesId) (parent : Option ParallelId)
  | decrement (p : ParallelId)
  | delete (t : Task)
  | dismiss (s : SeriesId)
  | dismissLoop (s : SeriesId)
deriving DecidableEq, Repr

namespace Heap

def record (e : Event) (h : Heap) : Heap := { h with log := e :: h.log }

def setSeries (s : SeriesId) (f : Series → Series) (h : Heap) : Heap :=
  { h with series := Function.update h.series s (f (h.series s)) }

def setParent (t : Task) (parent : Option ParallelId) (h : Heap) : Heap :=
  { h with parent := Function.update h.parent t parent }

def setPointer (t : Task) (s : SeriesId) (h : Heap) : Heap :=
  { h with pointer := Function.update h.pointer t (some s) }

def setNleft (p : ParallelId) (n : ℕ) (h : Heap) : Heap :=
  { h with nleft := Function.update h.nleft p n }

def launch (t : Task) (h : Heap) : Heap := { h with running := t :: h.running }

def land (t : Task) (h : Heap) : Heap := { h with running := h.running.erase t }

def popTask (s : SeriesId) (h : Heap) : Option Task × Heap :=
  match (h.series s).queue with
  | t :: rest => (some t, h.setSeries s fun x => { x with queue := rest })
  | [] =>
    match (h.series s).last with
    | some t => (some t, h.setSeries s fun x => { x with last := none })
    | none => (none, h.setSeries s fun x => { x with finished := true })

/-- `done()` of a task, up to `pop()`. A leaf has a callback of its own. -/
def taskDone (t : Task) (h : Heap) : Heap :=
  match t with
  | .leaf _ => h.record (.done t)
  | .work p =>
    { h with
      log := .done t :: (h.allSeries p).reverse.map .deleteSeries ++ .callback p :: h.log
      allSeries := Function.update h.allSeries p [] }

/-- What a frame does, and the frames it leaves. `sync` is whether a leaf calls `subtask_done`
    before its `dispatch` returns. -/
def exec (sync : Bool) (h : Heap) : Frame → List Frame × Heap
  | .dispatch (.leaf n) =>
    let h := h.record (.dispatch (.leaf n))
    if sync then ([.done (.leaf n)], h) else ([], h.launch (.leaf n))
  | .dispatch (.work p) =>
    let h := (h.record (.dispatch (.work p))).setNleft p (h.allSeries p).length
    if h.nleft p ≠ 0 then ([.loop p (h.allSeries p)], h.launch (.work p))
    else ([.done (.work p)], h)
  | .loop _ [] => ([], h)
  | .loop p (s :: rest) =>
    let first := (h.series s).first
    ([.dispatch first, .loop p rest], (h.record (.start s)).setParent first (some p))
  | .done t =>
    match h.pointer t with
    | some s => ([.pop s (h.parent t)], h.taskDone t)
    | none => ([], h.taskDone t)
  | .pop s parent => ([.popTask s parent (h.series s).canceled], h)
  | .popTask s parent canceled =>
    match h.popTask s with
    | (some t, h) =>
      if canceled then ([.delete t, .popTask s parent canceled], h)
      else ([.dispatch t], h.setParent t parent)
    | (none, h) => ([.callback s parent], h)
  | .callback s parent =>
    let frames := match parent with
      | some p => [.decrement p]
      | none => []
    let h := h.record (.finish s)
    (frames, if (h.series s).inParallel = none then h.record (.deleteSeries s) else h)
  | .decrement p =>
    let h := h.setNleft p (h.nleft p - 1)
    if h.nleft p = 0 then ([.done (.work p)], h.land (.work p)) else ([], h)
  | .delete (.leaf n) => ([], h.record (.delete (.leaf n)))
  | .delete (.work p) => ((h.allSeries p).map .dismiss, h.record (.delete (.work p)))
  | .dismiss s =>
    ([.delete (h.series s).first, .dismissLoop s],
      (h.record (.dismiss s)).setSeries s fun x => { x with inParallel := none })
  | .dismissLoop s =>
    match h.popTask s with
    | (some t, h) => ([.delete t, .dismissLoop s], h)
    | (none, h) => ([], h.record (.deleteSeries s))

end Heap

structure State where
  heap : Heap
  threads : List (List Frame)

def State.init : State := ⟨.init, []⟩

/-- What users do; `complete` is a leaf's call of `subtask_done`, `run` a step of a thread. -/
inductive Action where
  | newSeries (first : Task)
  | pushBack (s : SeriesId) (t : Task)
  | pushFront (s : SeriesId) (t : Task)
  | setLastTask (s : SeriesId) (t : Task)
  | unsetLastTask (s : SeriesId)
  | addSeries (p : ParallelId) (s : SeriesId)
  | cancel (s : SeriesId)
  | start (s : SeriesId)
  | dismiss (s : SeriesId)
  | dismissWork (p : ParallelId)
  | complete (n : ℕ)
  | run (thread : List Frame) (sync : Bool)
deriving DecidableEq, Repr

namespace Heap

def Free (h : Heap) (t : Task) : Prop := h.pointer t = none ∧ .delete t ∉ h.log

instance (h : Heap) (t : Task) : Decidable (h.Free t) := inferInstanceAs (Decidable (_ ∧ _))

def Open (h : Heap) (s : SeriesId) : Prop := s < h.created ∧ (h.series s).finished = false

instance (h : Heap) (s : SeriesId) : Decidable (h.Open s) := inferInstanceAs (Decidable (_ ∧ _))

def Unused (h : Heap) (s : SeriesId) : Prop :=
  s < h.created ∧ (h.series s).inParallel = none ∧ .start s ∉ h.log ∧ .dismiss s ∉ h.log

instance (h : Heap) (s : SeriesId) : Decidable (h.Unused s) :=
  inferInstanceAs (Decidable (_ ∧ _ ∧ _ ∧ _))

def newSeries (first : Task) (h : Heap) : Heap :=
  { h.setPointer first h.created with
    series := Function.update h.series h.created (.ofFirst first)
    created := h.created + 1 }

def pushBack (s : SeriesId) (t : Task) (h : Heap) : Heap :=
  (h.setPointer t s).setSeries s fun x => { x with queue := x.queue ++ [t] }

def pushFront (s : SeriesId) (t : Task) (h : Heap) : Heap :=
  (h.setPointer t s).setSeries s fun x => { x with queue := t :: x.queue }

def displaceLast (s : SeriesId) (h : Heap) : Heap :=
  match (h.series s).last with
  | some t => h.record (.displace t)
  | none => h

/-- `set_last_task` takes no lock, nor does `unset_last_task`: `last` is a plain pointer, and calling
    them while another thread is in `pop_task` of the series would be a data race. So neither falls
    between the read and the clearing of `last` there. -/
def setLastTask (s : SeriesId) (t : Task) (h : Heap) : Heap :=
  ((h.displaceLast s).setPointer t s).setSeries s fun x => { x with last := some t }

def unsetLastTask (s : SeriesId) (h : Heap) : Heap :=
  (h.displaceLast s).setSeries s fun x => { x with last := none }

def addSeries (p : ParallelId) (s : SeriesId) (h : Heap) : Heap :=
  { h.setSeries s fun x => { x with inParallel := some p } with
    allSeries := Function.update h.allSeries p (h.allSeries p ++ [s]) }

def cancel (s : SeriesId) (h : Heap) : Heap :=
  h.setSeries s fun x => { x with canceled := true }

end Heap

def State.spawn (s : State) (frames : List Frame) (h : Heap) : State :=
  ⟨h, frames :: s.threads⟩

/-- A task is pushed once, and onto a series that has still to look for its next one; series are
    added to a `ParallelWork` before it is dispatched. -/
def step (s : State) : Action → Option State
  | .newSeries first =>
    if s.heap.Free first then some { s with heap := s.heap.newSeries first } else none
  | .pushBack i t =>
    if s.heap.Free t ∧ s.heap.Open i then some { s with heap := s.heap.pushBack i t } else none
  | .pushFront i t =>
    if s.heap.Free t ∧ s.heap.Open i then some { s with heap := s.heap.pushFront i t } else none
  | .setLastTask i t =>
    if s.heap.Free t ∧ s.heap.Open i then some { s with heap := s.heap.setLastTask i t } else none
  | .unsetLastTask i =>
    if s.heap.Open i then some { s with heap := s.heap.unsetLastTask i } else none
  | .addSeries p i =>
    if s.heap.Unused i ∧ .dispatch (.work p) ∉ s.heap.log ∧ .delete (.work p) ∉ s.heap.log then
      some { s with heap := s.heap.addSeries p i }
    else none
  | .cancel i => if s.heap.Open i then some { s with heap := s.heap.cancel i } else none
  | .start i =>
    if s.heap.Unused i then
      some (s.spawn [.dispatch (s.heap.series i).first] (s.heap.record (.start i)))
    else none
  | .dismiss i =>
    if s.heap.Unused i then
      some (s.spawn [.delete (s.heap.series i).first, .dismissLoop i]
        (s.heap.record (.dismiss i)))
    else none
  | .dismissWork p =>
    if s.heap.Free (.work p) then
      let r := s.heap.exec false (.delete (.work p))
      some (s.spawn r.1 r.2)
    else none
  | .complete n =>
    if .leaf n ∈ s.heap.running then
      some (s.spawn [.done (.leaf n)] (s.heap.land (.leaf n)))
    else none
  | .run thread sync =>
    match thread with
    | f :: rest =>
      if thread ∈ s.threads then
        let r := s.heap.exec sync f
        some ⟨r.2, replace thread [r.1 ++ rest] s.threads⟩
      else none
    | [] => none

end MyWorkflow.Workflow
