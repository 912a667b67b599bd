import MyWorkflow.CircularBuffer
import MyWorkflow.Workflow

set_option autoImplicit false

namespace MyWorkflow.Workflow
open Function CircularBuffer Runs

/-- A `SeriesWork` that is not cancelled. A slot that was never written has nothing to read;
    `callbacks` counts how often the series has finished. -/
structure SeriesWork where
  queue : ℕ → Option Task := fun _ => none
  queueSize : ℕ := 4
  front : ℕ := 0
  back : ℕ := 0
  last : Option Task := none
  finished : Bool := false
  callbacks : ℕ := 0

namespace SeriesWork

/-- The `do` loop of `expand_queue`, at most so many rounds: the final `i` and the new array. -/
def copyLoop (queue : ℕ → Option Task) (queueSize back : ℕ) :
    ℕ → ℕ → ℕ → (ℕ → Option Task) → Option (ℕ × (ℕ → Option Task))
  | 0, _, _, _ => none
  | rounds + 1, i, j, new =>
    let new := update new i (queue j)
    let j := next queueSize j
    if j ≠ back then copyLoop queue queueSize back rounds (i + 1) j new else some (i + 1, new)

def expandQueue (w : SeriesWork) : Option SeriesWork :=
  if 2 * w.queueSize < 2 ^ 31 then
    (copyLoop w.queue w.queueSize w.back w.queueSize 0 w.front fun _ => none).map fun r =>
      { w with queue := r.2, queueSize := 2 * w.queueSize, front := 0, back := r.1 }
  else none

def pushFront (t : Task) (w : SeriesWork) : Option SeriesWork :=
  let front := prev w.queueSize w.front
  let w := { w with front, queue := update w.queue front (some t) }
  if w.front = w.back then w.expandQueue else some w

def pushBack (t : Task) (w : SeriesWork) : Option SeriesWork :=
  let w := { w with
    queue := update w.queue w.back (some t)
    back := next w.queueSize w.back }
  if w.front = w.back then w.expandQueue else some w

def popTask (w : SeriesWork) : Option (Option Task × SeriesWork) :=
  if w.front ≠ w.back then
    (w.queue w.front).map fun t => (some t, { w with front := next w.queueSize w.front })
  else
    match w.last with
    | some t => some (some t, { w with last := none })
    | none => some (none, { w with finished := true, callbacks := w.callbacks + 1 })

end SeriesWork

inductive QueueOp where
  | pushBack (t : Task)
  | pushFront (t : Task)
  | setLastTask (t : Task)
  | unsetLastTask
  | pop
deriving DecidableEq, Repr

def SeriesWork.apply (w : SeriesWork) : QueueOp → Option (Option Task × SeriesWork)
  | .pushBack t => (w.pushBack t).map (none, ·)
  | .pushFront t => (w.pushFront t).map (none, ·)
  | .setLastTask t => some (none, { w with last := some t })
  | .unsetLastTask => some (none, { w with last := none })
  | .pop => w.popTask

def Series.apply (x : Series) : QueueOp → Option Task × Series
  | .pushBack t => (none, { x with queue := x.queue ++ [t] })
  | .pushFront t => (none, { x with queue := t :: x.queue })
  | .setLastTask t => (none, { x with last := some t })
  | .unsetLastTask => (none, { x with last := none })
  | .pop =>
    match x.queue with
    | t :: rest => (some t, { x with queue := rest })
    | [] =>
      match x.last with
      | some t => (some t, { x with last := none })
      | none => (none, { x with finished := true })

theorem heap_applies (h : Heap) (s : SeriesId) (t : Task) :
    (h.pushBack s t).series s = ((h.series s).apply (.pushBack t)).2 ∧
    (h.pushFront s t).series s = ((h.series s).apply (.pushFront t)).2 ∧
    (h.setLastTask s t).series s = ((h.series s).apply (.setLastTask t)).2 ∧
    (h.unsetLastTask s).series s = ((h.series s).apply .unsetLastTask).2 ∧
    ((h.popTask s).1, (h.popTask s).2.series s) = (h.series s).apply .pop := by
  have hlast : (h.displaceLast s).series = h.series := by
    unfold Heap.displaceLast
    split <;> rfl
  refine ⟨?_, ?_, ?_, ?_, ?_⟩
  · simp [Heap.pushBack, Heap.setSeries, Heap.setPointer, Series.apply]
  · simp [Heap.pushFront, Heap.setSeries, Heap.setPointer, Series.apply]
  · simp [Heap.setLastTask, Heap.setSeries, Heap.setPointer, Series.apply, hlast]
  · simp [Heap.unsetLastTask, Heap.setSeries, Series.apply, hlast]
  · unfold Heap.popTask Series.apply
    cases hqueue : (h.series s).queue with
    | cons t rest => simp [Heap.setSeries]
    | nil => cases hlast : (h.series s).last <;> simp [Heap.setSeries, hqueue, hlast]

theorem copyLoop_spec {queue : ℕ → Option Task} {size front : ℕ} (h : front < size)
    (rounds : ℕ) : ∀ (i : ℕ) (new : ℕ → Option Task), i + rounds = size → 0 < rounds →
      (∀ k < i, new k = queue (place size front k)) →
      ∃ new', SeriesWork.copyLoop queue size front rounds i (place size front i) new =
          some (size, new') ∧ ∀ k < size, new' k = queue (place size front k) := by
  induction rounds with
  | zero => intro i new _ hpos; cases hpos
  | succ rounds ih =>
    intro i new hi _ hnew
    have hcopied : ∀ k < i + 1, update new i (queue (place size front i)) k =
        queue (place size front k) := by
      intro k hk
      by_cases hki : k = i
      · rw [hki, update_self]
      · rw [update_of_ne hki, hnew k (by omega)]
    rw [SeriesWork.copyLoop, next_place h (by omega)]
    by_cases hlast : i + 1 = size
    · refine ⟨_, ?_, fun k hk => hcopied k (by omega)⟩
      rw [(eq_front_iff h).mpr (.inr hlast)]
      simp only [ne_eq, not_true_eq_false, ↓reduceIte, hlast]
    · have hne : place size front (i + 1) ≠ front := by simpa [eq_front_iff h] using hlast
      simp only [ne_eq, hne, not_false_eq_true, ↓reduceIte]
      exact ih (i + 1) _ (by omega) (by omega) hcopied

theorem expandQueue_spec {w : SeriesWork} {l : List Task} (hfront : w.front < w.queueSize)
    (hback : w.back = w.front) (hfull : l.length = w.queueSize)
    (hfilled : Filled w.queue w.queueSize w.front l) (hsize : w.queueSize < 2 ^ 30) :
    ∃ w', w.expandQueue = some w' ∧ Holds w'.queue w'.queueSize w'.front w'.back l ∧
      w'.last = w.last ∧ w'.finished = w.finished ∧ w'.callbacks = w.callbacks := by
  obtain ⟨new, hcopy, hnew⟩ := copyLoop_spec hfront w.queueSize 0 (fun _ => none) (by omega)
    (by omega) (by simp)
  rw [place_zero hfront] at hcopy
  rw [SeriesWork.expandQueue, if_pos (by omega), hback, hcopy]
  refine ⟨_, rfl, ⟨?_, ?_, ?_, ?_⟩, rfl, rfl, rfl⟩
  · dsimp only
    omega
  · dsimp only
    omega
  · simp only [place]
    rw [if_pos (by omega)]
    omega
  · intro k hk
    have hplace : place (2 * w.queueSize) 0 k = k := by
      rw [place, if_pos (by omega), Nat.zero_add]
    simp only [hplace]
    rw [hnew k (by omega), hfilled k hk]

structure Represents (w : SeriesWork) (x : Series) : Prop where
  holds : Holds w.queue w.queueSize w.front w.back x.queue
  last : w.last = x.last
  finished : w.finished = x.finished
  callbacks : w.callbacks = if x.finished then 1 else 0

theorem Represents.grown {w : SeriesWork} {x : Series} (hfront : w.front < w.queueSize)
    (hpos : 0 < x.queue.length) (hle : x.queue.length ≤ w.queueSize)
    (hback : w.back = place w.queueSize w.front x.queue.length)
    (hfilled : Filled w.queue w.queueSize w.front x.queue) (hsize : w.queueSize < 2 ^ 30)
    (hlast : w.last = x.last) (hfinished : w.finished = x.finished)
    (hcallbacks : w.callbacks = if x.finished then 1 else 0) :
    ∃ w', (if w.front = w.back then w.expandQueue else some w) = some w' ∧ Represents w' x := by
  have hfull := eq_front_iff (k := x.queue.length) hfront
  rw [← hback] at hfull
  split_ifs with heq
  · have hlength : x.queue.length = w.queueSize := by
      have := hfull.mp heq.symm
      omega
    obtain ⟨w', hw', hholds, hl, hf, hc⟩ := expandQueue_spec hfront heq.symm hlength hfilled hsize
    exact ⟨w', hw', hholds, hl.trans hlast, hf.trans hfinished, hc.trans hcallbacks⟩
  · have hne : x.queue.length ≠ w.queueSize := fun h => heq (hfull.mpr (.inr h)).symm
    exact ⟨w, rfl, ⟨hfront, by omega, hback, hfilled⟩, hlast, hfinished, hcallbacks⟩

theorem Represents.pushBack {w : SeriesWork} {x : Series} (h : Represents w x)
    (hsize : w.queueSize < 2 ^ 30) (t : Task) :
    ∃ w', w.pushBack t = some w' ∧ Represents w' (x.apply (.pushBack t)).2 := by
  obtain ⟨⟨hfront, hroom, hback, hfilled⟩, hlast, hfinished, hcallbacks⟩ := h
  have hlength : (x.queue ++ [t]).length = x.queue.length + 1 := List.length_append
  refine Represents.grown hfront ?_ ?_ ?_ ?_ hsize hlast hfinished hcallbacks
  · exact hlength.symm ▸ Nat.succ_pos _
  · exact hlength.symm ▸ hroom
  · change next w.queueSize w.back = place w.queueSize w.front (x.queue ++ [t]).length
    rw [hback, next_place hfront hroom, hlength]
  · change Filled (update w.queue w.back (some t)) w.queueSize w.front (x.queue ++ [t])
    rw [hback]
    exact hfilled.append hroom t

theorem Represents.pushFront {w : SeriesWork} {x : Series} (h : Represents w x)
    (hsize : w.queueSize < 2 ^ 30) (t : Task) :
    ∃ w', w.pushFront t = some w' ∧ Represents w' (x.apply (.pushFront t)).2 := by
  obtain ⟨⟨hfront, hroom, hback, hfilled⟩, hlast, hfinished, hcallbacks⟩ := h
  rw [← next_prev hfront] at hfilled hback
  rw [place_next hroom] at hback
  exact Represents.grown (prev_lt hfront) (Nat.succ_pos _) hroom hback
    (hfilled.cons (prev_lt hfront) hroom t) hsize hlast hfinished hcallbacks

theorem Represents.pop {w : SeriesWork} {x : Series} (h : Represents w x)
    (hopen : w.finished = false) :
    ∃ w', w.popTask = some ((x.apply .pop).1, w') ∧ Represents w' (x.apply .pop).2 := by
  have hempty := h.holds.empty_iff
  obtain ⟨hholds, hlast, hfinished, hcallbacks⟩ := h
  unfold SeriesWork.popTask
  cases hqueue : x.queue with
  | cons t rest =>
    rw [hqueue] at hholds hempty
    obtain ⟨hfirst, htail⟩ := hholds.pop
    rw [if_pos (by simpa using hempty), hfirst]
    simp only [Series.apply, hqueue]
    exact ⟨_, rfl, htail, hlast, hfinished, hcallbacks⟩
  | nil =>
    rw [if_neg (by simpa [hqueue] using hempty)]
    cases hx : x.last with
    | some t =>
      simp only [Series.apply, hqueue, hlast, hx]
      exact ⟨_, rfl, by simpa [hqueue] using hholds, rfl, hfinished, hcallbacks⟩
    | none =>
      simp only [Series.apply, hqueue, hlast, hx]
      rw [← hfinished, hopen] at hcallbacks
      exact ⟨_, rfl, by simpa [hqueue] using hholds, rfl, rfl, by simp [hcallbacks]⟩

/-- An `int` holds the size after the next growth, and `pop` has not returned NULL yet. -/
def Usable (p : SeriesWork × Series) (_ : QueueOp) : Prop :=
  p.1.queueSize < 2 ^ 30 ∧ p.1.finished = false

instance (p : SeriesWork × Series) (op : QueueOp) : Decidable (Usable p op) :=
  inferInstanceAs (Decidable (_ ∧ _))

theorem Represents.apply {w : SeriesWork} {x : Series} (h : Represents w x) (op : QueueOp)
    (husable : Usable (w, x) op) :
    ∃ w', w.apply op = some ((x.apply op).1, w') ∧ Represents w' (x.apply op).2 := by
  obtain ⟨hsize, hopen⟩ := husable
  cases op with
  | pushBack t =>
    obtain ⟨w', hw', hrep⟩ := h.pushBack hsize t
    exact ⟨w', by rw [SeriesWork.apply, hw']; rfl, hrep⟩
  | pushFront t =>
    obtain ⟨w', hw', hrep⟩ := h.pushFront hsize t
    exact ⟨w', by rw [SeriesWork.apply, hw']; rfl, hrep⟩
  | setLastTask | unsetLastTask => exact ⟨_, rfl, h.holds, rfl, h.finished, h.callbacks⟩
  | pop => exact h.pop hopen

def callBoth (p : SeriesWork × Series) (op : QueueOp) : Option (SeriesWork × Series) :=
  (p.1.apply op).map fun r => (r.2, (p.2.apply op).2)

theorem reaches_represents {first : Task} {p : SeriesWork × Series}
    (h : Reaches callBoth Usable ({}, .ofFirst first) p) : Represents p.1 p.2 := by
  refine h.invariant (P := fun p => Represents p.1 p.2) ?_ ?_
  · exact ⟨⟨Nat.succ_pos 3, Nat.succ_pos 3, rfl, (by rintro _ ⟨⟩)⟩, rfl, rfl, rfl⟩
  · rintro ⟨w, x⟩ op s' hrep husable hstep
    obtain ⟨w', hw', hrep'⟩ := Represents.apply hrep op husable
    rw [callBoth, hw'] at hstep
    cases hstep
    exact hrep'

/-- After any calls the buffer holds the list, and a further call returns what it returns for the
    list. -/
theorem series_buffer_is_deque (first : Task) (w : SeriesWork) (x : Series)
    (h : Reaches callBoth Usable ({}, .ofFirst first) (w, x)) :
    Holds w.queue w.queueSize w.front w.back x.queue ∧
    (w.front < w.queueSize ∧ w.back < w.queueSize ∧ (w.front = w.back ↔ x.queue = [])) ∧
    w.last = x.last ∧ w.finished = x.finished ∧ w.callbacks = (if x.finished then 1 else 0) ∧
    ∀ op, Usable (w, x) op → ∃ w', w.apply op = some ((x.apply op).1, w') := by
  have hrep := reaches_represents h
  refine ⟨hrep.holds, ⟨hrep.holds.front_lt, hrep.holds.back_lt, hrep.holds.empty_iff⟩, hrep.last,
    hrep.finished, hrep.callbacks, ?_⟩
  intro op husable
  obtain ⟨w', hw', -⟩ := hrep.apply op husable
  exact ⟨w', hw'⟩

def growingRun : List QueueOp :=
  [.pushFront (.leaf 1), .pushBack (.leaf 2), .pushBack (.leaf 3), .setLastTask (.leaf 9),
    .pushBack (.leaf 4), .pop, .pop]

theorem growingRun_buffer : ∃ w x,
    Reaches callBoth Usable ({}, .ofFirst (.leaf 0)) (w, x) ∧ x.queue = [.leaf 3, .leaf 4] ∧
      w.queueSize = 8 ∧ w.apply .pop = some (some (.leaf 3), { w with front := 3 }) ∧
      Holds w.queue w.queueSize w.front w.back x.queue := by
  obtain ⟨⟨w, x⟩, hrun⟩ : ∃ p, guardedRun callBoth Usable ({}, .ofFirst (.leaf 0)) growingRun =
      some p := Option.isSome_iff_exists.mp (by decide)
  have hreach := reaches_of_guardedRun growingRun .start hrun
  have hdeque := series_buffer_is_deque _ w x hreach
  cases hrun
  exact ⟨_, _, hreach, rfl, rfl, rfl, hdeque.1⟩

end MyWorkflow.Workflow
