import MyWorkflow.Workflow

set_option autoImplicit false

namespace MyWorkflow.Workflow
open List Bags

namespace Heap

variable (h : Heap)

@[simp] theorem record_log (e : Event) : (h.record e).log = e :: h.log := rfl
@[simp] theorem record_running (e : Event) : (h.record e).running = h.running := rfl
@[simp] theorem setSeries_running (s : SeriesId) (f : Series → Series) :
    (h.setSeries s f).running = h.running := rfl
@[simp] theorem setParent_running (t : Task) (parent : Option ParallelId) :
    (h.setParent t parent).running = h.running := rfl
@[simp] theorem setNleft_running (p : ParallelId) (n : ℕ) :
    (h.setNleft p n).running = h.running := rfl
@[simp] theorem launch_running (t : Task) : (h.launch t).running = t :: h.running := rfl
@[simp] theorem land_running (t : Task) : (h.land t).running = h.running.erase t := rfl

end Heap

/-! ## What a frame can do -/

structure Takes (h : Heap) (s : SeriesId) (t : Task) (x : Series) : Prop where
  first : x.first = (h.series s).first
  canceled : x.canceled = (h.series s).canceled
  finished : x.finished = (h.series s).finished
  inParallel : x.inParallel = (h.series s).inParallel
  count : ∀ u, ((h.series s).queue ++ (h.series s).last.toList).count u =
    (x.queue ++ x.last.toList).count u + [t].count u

/-- What `subtask_done` adds to the log. -/
def Heap.taskLog (h : Heap) : Task → List Event
  | .leaf n => [.done (.leaf n)]
  | .work p => .done (.work p) :: ((h.allSeries p).reverse.map .deleteSeries ++ [.callback p])

/-- A frame leaves frames, adds events to the log and changes the heap. -/
inductive Exec (h : Heap) : Frame → List Frame → List Event → Heap → Prop
  | sync (n : ℕ) : Exec h (.dispatch (.leaf n)) [.done (.leaf n)] [.dispatch (.leaf n)]
      (h.record (.dispatch (.leaf n)))
  | async (n : ℕ) : Exec h (.dispatch (.leaf n)) [] [.dispatch (.leaf n)]
      ((h.record (.dispatch (.leaf n))).launch (.leaf n))
  | fork (p : ParallelId) (hne : h.allSeries p ≠ []) :
      Exec h (.dispatch (.work p)) [.loop p (h.allSeries p)] [.dispatch (.work p)]
        (((h.record (.dispatch (.work p))).setNleft p (h.allSeries p).length).launch (.work p))
  | forkNone (p : ParallelId) (hnil : h.allSeries p = []) :
      Exec h (.dispatch (.work p)) [.done (.work p)] [.dispatch (.work p)]
        ((h.record (.dispatch (.work p))).setNleft p 0)
  | loopEnd (p : ParallelId) : Exec h (.loop p []) [] [] h
  | loop (p : ParallelId) (s : SeriesId) (rest : List SeriesId) :
      Exec h (.loop p (s :: rest)) [.dispatch (h.series s).first, .loop p rest] [.start s]
        ((h.record (.start s)).setParent (h.series s).first (some p))
  | done (t : Task) (s : SeriesId) (hs : h.pointer t = some s) :
      Exec h (.done t) [.pop s (h.parent t)] (h.taskLog t) (h.taskDone t)
  | doneNone (t : Task) (hs : h.pointer t = none) :
      Exec h (.done t) [] (h.taskLog t) (h.taskDone t)
  | pop (s : SeriesId) (parent : Option ParallelId) :
      Exec h (.pop s parent) [.popTask s parent (h.series s).canceled] [] h
  | take (s : SeriesId) (parent : Option ParallelId) (t : Task) (x : Series) (ht : Takes h s t x) :
      Exec h (.popTask s parent false) [.dispatch t] []
        ((h.setSeries s fun _ => x).setParent t parent)
  | drop (s : SeriesId) (parent : Option ParallelId) (t : Task) (x : Series) (ht : Takes h s t x) :
      Exec h (.popTask s parent true) [.delete t, .popTask s parent true] []
        (h.setSeries s fun _ => x)
  | close (s : SeriesId) (parent : Option ParallelId) (canceled : Bool)
      (hqueue : (h.series s).queue = []) (hlast : (h.series s).last = none) :
      Exec h (.popTask s parent canceled) [.callback s parent] []
        (h.setSeries s fun x => { x with finished := true })
  | finish (s : SeriesId) (parent : Option ParallelId) (hs : (h.series s).inParallel ≠ none) :
      Exec h (.callback s parent) (parent.toList.map .decrement) [.finish s] (h.record (.finish s))
  | finishDelete (s : SeriesId) (parent : Option ParallelId)
      (hs : (h.series s).inParallel = none) :
      Exec h (.callback s parent) (parent.toList.map .decrement) [.deleteSeries s, .finish s]
        ((h.record (.finish s)).record (.deleteSeries s))
  | join (p : ParallelId) (hp : h.nleft p - 1 = 0) :
      Exec h (.decrement p) [.done (.work p)] [] ((h.setNleft p (h.nleft p - 1)).land (.work p))
  | joinNot (p : ParallelId) (hp : h.nleft p - 1 ≠ 0) :
      Exec h (.decrement p) [] [] (h.setNleft p (h.nleft p - 1))
  | deleteLeaf (n : ℕ) :
      Exec h (.delete (.leaf n)) [] [.delete (.leaf n)] (h.record (.delete (.leaf n)))
  | deleteWork (p : ParallelId) :
      Exec h (.delete (.work p)) ((h.allSeries p).map .dismiss) [.delete (.work p)]
        (h.record (.delete (.work p)))
  | dismiss (s : SeriesId) :
      Exec h (.dismiss s) [.delete (h.series s).first, .dismissLoop s] [.dismiss s]
        ((h.record (.dismiss s)).setSeries s fun x => { x with inParallel := none })
  | dismissTake (s : SeriesId) (t : Task) (x : Series) (ht : Takes h s t x) :
      Exec h (.dismissLoop s) [.delete t, .dismissLoop s] [] (h.setSeries s fun _ => x)
  | dismissEnd (s : SeriesId) (hqueue : (h.series s).queue = [])
      (hlast : (h.series s).last = none) :
      Exec h (.dismissLoop s) [] [.deleteSeries s]
        ((h.setSeries s fun x => { x with finished := true }).record (.deleteSeries s))

theorem popTask_cases (h : Heap) (s : SeriesId) :
    (∃ t x, h.popTask s = (some t, h.setSeries s fun _ => x) ∧ Takes h s t x) ∨
      h.popTask s = (none, h.setSeries s fun x => { x with finished := true }) ∧
        (h.series s).queue = [] ∧ (h.series s).last = none := by
  unfold Heap.popTask
  split
  next t rest hqueue =>
    refine .inl ⟨t, { h.series s with queue := rest }, rfl, rfl, rfl, rfl, rfl, ?_⟩
    intro u
    rw [hqueue, cons_append, ← singleton_append, count_append, Nat.add_comm]
  next hqueue =>
    split
    next t hlast =>
      refine .inl ⟨t, { h.series s with last := none }, rfl, rfl, rfl, rfl, rfl, ?_⟩
      intro u
      simp [hqueue, hlast]
    next hlast => exact .inr ⟨rfl, hqueue, hlast⟩

theorem exec_spec (sync : Bool) (h : Heap) (f : Frame) :
    ∃ extra, Exec h f (h.exec sync f).1 extra (h.exec sync f).2 := by
  cases f with
  | dispatch t =>
    cases t with
    | leaf n =>
      cases sync
      · exact ⟨_, .async n⟩
      · exact ⟨_, .sync n⟩
    | work p =>
      by_cases hnil : h.allSeries p = []
      · have hexec : h.exec sync (.dispatch (.work p)) =
            ([.done (.work p)], (h.record (.dispatch (.work p))).setNleft p 0) := by
          simp [Heap.exec, Heap.setNleft, hnil]
        rw [hexec]
        exact ⟨_, .forkNone p hnil⟩
      · have hexec : h.exec sync (.dispatch (.work p)) = ([.loop p (h.allSeries p)],
            ((h.record (.dispatch (.work p))).setNleft p (h.allSeries p).length).launch
              (.work p)) := by
          simp [Heap.exec, Heap.setNleft, Heap.record, hnil]
        rw [hexec]
        exact ⟨_, .fork p hnil⟩
  | loop p rest =>
    cases rest with
    | nil => exact ⟨_, .loopEnd p⟩
    | cons s rest => exact ⟨_, .loop p s rest⟩
  | done t =>
    simp only [Heap.exec]
    split
    · exact ⟨_, .done t _ ‹_›⟩
    · exact ⟨_, .doneNone t ‹_›⟩
  | pop s parent => exact ⟨_, .pop s parent⟩
  | popTask s parent canceled =>
    rcases popTask_cases h s with ⟨t, x, heq, ht⟩ | ⟨heq, hqueue, hlast⟩
    · cases canceled
      · simp only [Heap.exec, heq, Bool.false_eq_true, if_false]
        exact ⟨_, .take s parent t x ht⟩
      · simp only [Heap.exec, heq, if_true]
        exact ⟨_, .drop s parent t x ht⟩
    · simp only [Heap.exec, heq]
      exact ⟨_, .close s parent canceled hqueue hlast⟩
  | callback s parent =>
    have hframes : (h.exec sync (.callback s parent)).1 = parent.toList.map .decrement := by
      cases parent <;> rfl
    rw [hframes]
    simp only [Heap.exec]
    split_ifs with hs
    · exact ⟨_, .finishDelete s parent hs⟩
    · exact ⟨_, .finish s parent hs⟩
  | decrement p =>
    by_cases hp : h.nleft p - 1 = 0
    · have hexec : h.exec sync (.decrement p) =
          ([.done (.work p)], (h.setNleft p (h.nleft p - 1)).land (.work p)) := by
        simp [Heap.exec, Heap.setNleft, hp]
      rw [hexec]
      exact ⟨_, .join p hp⟩
    · have hexec : h.exec sync (.decrement p) = ([], h.setNleft p (h.nleft p - 1)) := by
        simp [Heap.exec, Heap.setNleft, hp]
      rw [hexec]
      exact ⟨_, .joinNot p hp⟩
  | delete t =>
    cases t with
    | leaf n => exact ⟨_, .deleteLeaf n⟩
    | work p => exact ⟨_, .deleteWork p⟩
  | dismiss s => exact ⟨_, .dismiss s⟩
  | dismissLoop s =>
    rcases popTask_cases h s with ⟨t, x, heq, ht⟩ | ⟨heq, hqueue, hlast⟩
    · simp only [Heap.exec, heq]
      exact ⟨_, .dismissTake s t x ht⟩
    · simp only [Heap.exec, heq]
      exact ⟨_, .dismissEnd s hqueue hlast⟩

/-! ## The invariant -/

def Heap.waiting (h : Heap) (s : SeriesId) : List Task :=
  (if s < h.created ∧ .start s ∉ h.log ∧ .dismiss s ∉ h.log then [(h.series s).first] else []) ++
    ((h.series s).queue ++ (h.series s).last.toList)

def Frame.taken : Frame → List Task
  | .dispatch t | .delete t => [t]
  | _ => []

def Event.taken : Event → List Task
  | .dispatch t | .delete t | .displace t => [t]
  | _ => []

def Heap.taken (h : Heap) (F : List Frame) : List Task :=
  holdings Frame.taken F ++ holdings Event.taken h.log

structure Places (h : Heap) (F : List Frame) : Prop where
  pointer : ∀ s, ∀ t ∈ h.waiting s, h.pointer t = some s
  once : ∀ s t, h.pointer t = some s → (h.waiting s).count t + (h.taken F).count t = 1
  free : ∀ t, h.pointer t = none → t ∉ holdings Frame.taken F ∧ .dispatch t ∉ h.log ∧
    .displace t ∉ h.log

structure Births (h : Heap) (F : List Frame) : Prop where
  unborn : ∀ s, h.created ≤ s → (h.series s).queue = [] ∧ (h.series s).last = none ∧
    (h.series s).inParallel = none ∧ .start s ∉ h.log ∧ .dismiss s ∉ h.log ∧
    ∀ t, h.pointer t ≠ some s
  closed : ∀ s, (h.series s).finished = true → (h.series s).queue = [] ∧ (h.series s).last = none
  ended : ∀ s, .finish s ∈ h.log → (h.series s).finished = true
  ending : ∀ s parent, .callback s parent ∈ F → (h.series s).finished = true
  why : ∀ s, (h.series s).finished = true → .finish s ∈ h.log ∨ .dismiss s ∈ h.log ∨
    ∃ parent, .callback s parent ∈ F

structure Drops (h : Heap) (F : List Frame) : Prop where
  deleted : ∀ s t, h.pointer t = some s → (.delete t ∈ F ∨ .delete t ∈ h.log) →
    (h.series s).canceled = true ∨ .dismiss s ∈ h.log
  canceled : ∀ s parent, .popTask s parent true ∈ F → (h.series s).canceled = true
  dismissLoop : ∀ s, .dismissLoop s ∈ F → .dismiss s ∈ h.log
  dismissing : ∀ s, F.count (.dismiss s) =
    if (h.series s).inParallel.any (fun p => .delete (.work p) ∈ h.log) then 1 else 0
  dismissed : ∀ s, .dismiss s ∈ h.log → (h.series s).inParallel = none ∧ .start s ∉ h.log

def Frame.held (pointer : Task → Option SeriesId) : Frame → List (Option SeriesId)
  | .dispatch t | .done t => [pointer t]
  | .pop s _ | .popTask s _ _ | .callback s _ => [some s]
  | _ => []

def Heap.tokens (h : Heap) (F : List Frame) (s : SeriesId) : ℕ :=
  (holdings (Frame.held h.pointer) F).count (some s) + (h.running.map h.pointer).count (some s)

structure Control (h : Heap) (F : List Frame) : Prop where
  token : ∀ s, h.tokens F s = if .start s ∈ h.log ∧ .finish s ∉ h.log then 1 else 0
  busy : ∀ t, .dispatch t ∈ h.log → .done t ∈ h.log ∨ t ∈ h.running ∨ .done t ∈ F
  active : ∀ t, t ∈ h.running ∨ .done t ∈ F → .dispatch t ∈ h.log ∧ .done t ∉ h.log

def Frame.carried : Frame → Option (SeriesId × Option ParallelId)
  | .pop s parent | .popTask s parent _ | .callback s parent => some (s, parent)
  | _ => none

/-- `parent` of a task, and of the frames that carry it on, is the `ParallelWork` of its
    series. -/
structure Parents (h : Heap) (F : List Frame) : Prop where
  carried : ∀ f ∈ F, ∀ s parent, f.carried = some (s, parent) → parent = (h.series s).inParallel
  task : ∀ s t, h.pointer t = some s → (.dispatch t ∈ F ∨ .done t ∈ F ∨ t ∈ h.running) →
    h.parent t = (h.series s).inParallel
  fresh : ∀ t, .dispatch t ∉ F → .dispatch t ∉ h.log → h.parent t = none

def Heap.forked (h : Heap) (s : SeriesId) : Bool :=
  (h.series s).inParallel.any fun p => .dispatch (.work p) ∈ h.log

def Frame.left : Frame → List SeriesId
  | .loop _ rest => rest
  | _ => []

structure Forks (h : Heap) (F : List Frame) : Prop where
  left : ∀ s, (holdings Frame.left F).count s =
    if h.forked s = true ∧ .start s ∉ h.log then 1 else 0
  loop : ∀ p rest, .loop p rest ∈ F → ∀ s ∈ rest, (h.series s).inParallel = some p

structure Joins (h : Heap) (F : List Frame) : Prop where
  members : ∀ p, .done (.work p) ∉ h.log → .delete (.work p) ∉ h.log →
    ∀ s, s ∈ h.allSeries p ↔ (h.series s).inParallel = some p
  nodup : ∀ p, (h.allSeries p).Nodup
  nleft : ∀ p, .work p ∈ h.running → h.nleft p =
    (h.allSeries p).countP (fun s => .finish s ∉ h.log) + F.count (.decrement p)
  nleft_pos : ∀ p, .work p ∈ h.running → 0 < h.nleft p
  decrement : ∀ p, .decrement p ∈ F → .work p ∈ h.running
  joined : ∀ p, .dispatch (.work p) ∈ h.log → .work p ∉ h.running →
    ∀ s, (h.series s).inParallel = some p → .finish s ∈ h.log
  called : ∀ p, .callback p ∈ h.log → .done (.work p) ∈ h.log

def Legal (h : Heap) : Event → List Event → Prop
  | .start s, l => .start s ∉ l ∧ ∀ p, (h.series s).inParallel = some p → .dispatch (.work p) ∈ l
  | .dispatch t, l => .dispatch t ∉ l ∧ ∃ s, h.pointer t = some s ∧ .start s ∈ l ∧
      ∀ u, h.pointer u = some s → .dispatch u ∈ l → .done u ∈ l
  | .done t, l => .done t ∉ l ∧ .dispatch t ∈ l ∧ ∀ p, t = .work p → .callback p ∈ l
  | .callback p, l => .callback p ∉ l ∧ .dispatch (.work p) ∈ l ∧
      ∀ s, (h.series s).inParallel = some p → .finish s ∈ l
  | .finish s, l => .finish s ∉ l ∧ .start s ∈ l ∧
      ∀ u, h.pointer u = some s → .dispatch u ∈ l → .done u ∈ l
  | _, _ => True

def LegalLog (h : Heap) (log : List Event) : Prop := ∀ e l, e :: l <:+ log → Legal h e l

def History (h : Heap) : Prop := LegalLog h h.log

structure Inv (h : Heap) (F : List Frame) : Prop where
  places : Places h F
  births : Births h F
  drops : Drops h F
  control : Control h F
  parents : Parents h F
  forks : Forks h F
  joins : Joins h F
  history : History h

variable {h h' : Heap} {F F' : List Frame}

theorem Inv.perm (inv : Inv h F) (hF : F'.Perm F) : Inv h F' := by
  have hcount : ∀ f, F'.count f = F.count f := fun f => hF.count_eq f
  have hmem : ∀ f, f ∈ F' ↔ f ∈ F := fun f => hF.mem_iff
  have htaken : (holdings Frame.taken F').Perm (holdings Frame.taken F) := hF.flatMap_right _
  have hcounts : ∀ t, (h.taken F').count t = (h.taken F).count t := by
    intro t
    rw [Heap.taken, Heap.taken, count_append, count_append, htaken.count_eq]
  have htokens : ∀ s, h.tokens F' s = h.tokens F s := by
    intro s
    rw [Heap.tokens, Heap.tokens, holdings, holdings, (hF.flatMap_right _).count_eq]
  have hleft : ∀ s, (holdings Frame.left F').count s = (holdings Frame.left F).count s :=
    fun s => (hF.flatMap_right _).count_eq s
  obtain ⟨hplaces, hbirths, hdrops, hcontrol, hparents, hforks, hjoins, hhistory⟩ := inv
  refine ⟨?_, ?_, ?_, ?_, ?_, ?_, ?_, hhistory⟩
  · obtain ⟨h₁, h₂, h₃⟩ := hplaces
    refine ⟨h₁, ?_, ?_⟩
    · simpa only [hcounts] using h₂
    · simpa only [htaken.mem_iff] using h₃
  · obtain ⟨h₁, h₂, h₃, h₄, h₅⟩ := hbirths
    refine ⟨h₁, h₂, h₃, ?_, ?_⟩
    · simpa only [hmem] using h₄
    · simpa only [hmem] using h₅
  · obtain ⟨h₁, h₂, h₃, h₄, h₅⟩ := hdrops
    refine ⟨?_, ?_, ?_, ?_, h₅⟩
    · simpa only [hmem] using h₁
    · simpa only [hmem] using h₂
    · simpa only [hmem] using h₃
    · simpa only [hcount] using h₄
  · obtain ⟨h₁, h₂, h₃⟩ := hcontrol
    refine ⟨?_, ?_, ?_⟩
    · simpa only [htokens] using h₁
    · simpa only [hmem] using h₂
    · simpa only [hmem] using h₃
  · obtain ⟨h₁, h₂, h₃⟩ := hparents
    refine ⟨?_, ?_, ?_⟩
    · simpa only [hmem] using h₁
    · simpa only [hmem] using h₂
    · simpa only [hmem] using h₃
  · obtain ⟨h₁, h₂⟩ := hforks
    refine ⟨?_, ?_⟩
    · simpa only [hleft] using h₁
    · simpa only [hmem] using h₂
  · obtain ⟨h₁, h₂, h₃, h₄, h₅, h₆, h₇⟩ := hjoins
    refine ⟨h₁, h₂, ?_, h₄, ?_, h₆, h₇⟩
    · simpa only [hcount] using h₃
    · simpa only [hmem] using h₅

/-! ## Consequences -/

theorem History.legal (hist : History h) {e : Event} (he : e ∈ h.log) :
    ∃ l, (∀ x ∈ l, x ∈ h.log) ∧ Legal h e l := by
  obtain ⟨l₁, l₂, hl⟩ := append_of_mem he
  refine ⟨l₂, ?_, hist e l₂ ⟨l₁, hl.symm⟩⟩
  intro x hx
  rw [hl]
  exact mem_append_right _ (mem_cons_of_mem _ hx)

theorem History.dispatch_of_done (hist : History h) {t : Task} (ht : .done t ∈ h.log) :
    .dispatch t ∈ h.log := by
  obtain ⟨l, hl, hlegal⟩ := hist.legal ht
  exact hl _ hlegal.2.1

theorem History.not_done (hist : History h) {t : Task} (ht : .dispatch t ∉ h.log) :
    .done t ∉ h.log :=
  fun hdone => ht (hist.dispatch_of_done hdone)

theorem History.start_of_finish (hist : History h) {s : SeriesId} (hs : .finish s ∈ h.log) :
    .start s ∈ h.log := by
  obtain ⟨l, hl, hlegal⟩ := hist.legal hs
  exact hl _ hlegal.2.1

theorem History.dispatch_of_start (hist : History h) {s : SeriesId} (hs : .start s ∈ h.log)
    {p : ParallelId} (hp : (h.series s).inParallel = some p) : .dispatch (.work p) ∈ h.log := by
  obtain ⟨l, hl, hlegal⟩ := hist.legal hs
  exact hl _ (hlegal.2 p hp)

theorem History.dispatch_of_callback (hist : History h) {p : ParallelId}
    (hp : .callback p ∈ h.log) : .dispatch (.work p) ∈ h.log := by
  obtain ⟨l, hl, hlegal⟩ := hist.legal hp
  exact hl _ hlegal.2.1

theorem History.start_of_dispatch (hist : History h) {t : Task} (ht : .dispatch t ∈ h.log) :
    ∃ s, h.pointer t = some s ∧ .start s ∈ h.log := by
  obtain ⟨l, hl, -, s, hs, hstart, -⟩ := hist.legal ht
  exact ⟨s, hs, hl _ hstart⟩

theorem tokens_cons (f : Frame) (s : SeriesId) :
    h.tokens (f :: F) s = (f.held h.pointer).count (some s) + h.tokens F s := by
  rw [Heap.tokens, Heap.tokens, count_holdings_cons]
  omega

theorem tokens_eq_zero {s : SeriesId} (hzero : h.tokens F s = 0) :
    (∀ f ∈ F, some s ∉ f.held h.pointer) ∧ ∀ t ∈ h.running, h.pointer t ≠ some s := by
  obtain ⟨hF, hrunning⟩ := Nat.add_eq_zero_iff.mp hzero
  constructor
  · intro f hf hs
    exact count_eq_zero.mp hF (mem_flatMap.mpr ⟨f, hf, hs⟩)
  · intro t ht hs
    exact count_eq_zero.mp hrunning (mem_map.mpr ⟨t, ht, hs⟩)

theorem Control.sole {f : Frame} {s : SeriesId} (c : Control h (f :: F))
    (hf : f.held h.pointer = [some s]) :
    .start s ∈ h.log ∧ .finish s ∉ h.log ∧ h.tokens F s = 0 := by
  have htoken := c.token s
  rw [tokens_cons, hf, count_singleton_self] at htoken
  split_ifs at htoken with hs
  · exact ⟨hs.1, hs.2, by omega⟩
  · omega

theorem Control.all_done {f : Frame} {s : SeriesId} (c : Control h (f :: F))
    (hf : f.held h.pointer = [some s]) {t : Task} (ht : h.pointer t = some s)
    (hne : f ≠ .done t) (hd : .dispatch t ∈ h.log) : .done t ∈ h.log := by
  obtain ⟨hF, hrunning⟩ := tokens_eq_zero (c.sole hf).2.2
  rcases c.busy t hd with hdone | hrun | hframe
  · exact hdone
  · exact absurd ht (hrunning t hrun)
  · rcases mem_cons.mp hframe with heq | hmem
    · exact absurd heq.symm hne
    · exact absurd (mem_singleton.mpr ht.symm) (hF _ hmem)

theorem Control.not_running {t : Task} {s : SeriesId} (c : Control h (.done t :: F))
    (hs : h.pointer t = some s) : t ∉ h.running := by
  have hsole := c.sole (s := s) (congrArg (fun x => [x]) hs)
  exact fun ht => (tokens_eq_zero hsole.2.2).2 t ht hs

theorem Control.running_count {t : Task} {s : SeriesId} (c : Control h F)
    (hs : h.pointer t = some s) : h.running.count t ≤ 1 := by
  have htoken := c.token s
  have hle : h.running.count t ≤ (h.running.map h.pointer).count (some s) := by
    rw [← hs]
    exact count_le_count_map
  rw [Heap.tokens] at htoken
  split_ifs at htoken <;> omega

theorem Places.owned {t : Task} (P : Places h F)
    (ht : t ∈ holdings Frame.taken F ∨ .dispatch t ∈ h.log) : ∃ s, h.pointer t = some s := by
  cases hp : h.pointer t with
  | some s => exact ⟨s, rfl⟩
  | none =>
    obtain ⟨h₁, h₂, -⟩ := P.free t hp
    tauto

theorem count_taken (l : List Event) (t : Task) : (holdings Event.taken l).count t =
    l.count (.dispatch t) + l.count (.delete t) + l.count (.displace t) := by
  induction l with
  | nil => rfl
  | cons e l ih =>
    rw [count_holdings_cons, ih]
    have hhead : e.taken.count t =
        [e].count (.dispatch t) + [e].count (.delete t) + [e].count (.displace t) := by
      cases e <;> simp [Event.taken, count_cons]
    have hcons : ∀ x : Event, (e :: l).count x = [e].count x + l.count x := by
      intro x
      rw [← singleton_append, count_append]
    rw [hhead, hcons, hcons, hcons]
    omega

theorem Places.taken_le (P : Places h F) {t : Task} {s : SeriesId} (hs : h.pointer t = some s) :
    (holdings Frame.taken F).count t + h.log.count (.dispatch t) + h.log.count (.delete t) ≤
      1 := by
  have hone := P.once s t hs
  rw [Heap.taken, count_append, count_taken] at hone
  omega

theorem Places.next {f : Frame} {t : Task} (P : Places h (f :: F)) (ht : f.taken = [t]) :
    .dispatch t ∉ h.log ∧ .delete t ∉ h.log ∧ t ∉ holdings Frame.taken F := by
  obtain ⟨s, hs⟩ := P.owned (t := t) (.inl (mem_holdings_cons.mpr (.inl (by simp [ht]))))
  have hle := P.taken_le hs
  rw [count_holdings_cons, ht, count_singleton_self] at hle
  refine ⟨?_, ?_, ?_⟩
  · intro hmem
    have := count_pos_iff.mpr hmem
    omega
  · intro hmem
    have := count_pos_iff.mpr hmem
    omega
  · intro hmem
    have := count_pos_iff.mpr hmem
    omega

theorem Places.not_deleted {t : Task} (P : Places h F) (ht : .dispatch t ∈ h.log) :
    .delete t ∉ h.log := by
  obtain ⟨s, hs⟩ := P.owned (.inr ht)
  have hle := P.taken_le hs
  have hpos := count_pos_iff.mpr ht
  intro hmem
  have := count_pos_iff.mpr hmem
  omega

end MyWorkflow.Workflow
