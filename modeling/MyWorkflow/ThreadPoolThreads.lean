import MyWorkflow.ThreadPool

set_option autoImplicit false

/-!
# The threads of a pool

The threads that have left stand in a chain: each one joins the one that left before it.
-/
namespace MyWorkflow.ThreadPool
open Function List Runs Bags

def Thread.live : Thread → Bool
  | .top | .getting | .running _ | .ran | .exiting => true
  | _ => false

def Thread.left : Thread → Bool
  | .joining _ | .ended => true
  | _ => false

def State.counts (s : State) (i : ThreadId) : Bool :=
  (s.thread i).live && decide (s.destroyer ≠ some i)

def State.gone (s : State) : Bool :=
  match s.destroyer with
  | none => decide (s.stage = .returned)
  | some i => decide (s.thread i = .ended)

def Stage.joined : Stage → Bool
  | .draining | .returned => true
  | _ => false

def Stage.passed : Stage → Bool
  | .none | .waiting => false
  | _ => true

def Joins (s : State) (a b : ThreadId) : Prop :=
  (s.thread a = .joining (some b) ∧ s.joined b = []) ∨
    (s.thread a = .ended ∧ s.thread b = .ended ∧ s.joined b = [some a])

def Chained (s : State) : List ThreadId → Prop
  | [] => True
  | [a] => s.thread a = .joining none ∨ s.thread a = .ended
  | a :: b :: l => Joins s a b ∧ Chained s (b :: l)

variable {s s' : State} {a b i j : ThreadId} {l : List ThreadId}

theorem Chained.frame (h : Chained s l) (hthread : ∀ i ∈ l, s'.thread i = s.thread i)
    (hjoined : ∀ i ∈ l.tail, s'.joined i = s.joined i) : Chained s' l := by
  induction l with
  | nil => trivial
  | cons a l ih =>
    cases l with
    | nil =>
      rw [Chained, hthread a (by simp)]
      exact h
    | cons b l =>
      obtain ⟨hab, hrest⟩ := h
      refine ⟨?_, ih hrest (fun i hi => hthread i (by simp [hi]))
        (fun i hi => hjoined i (by simp_all))⟩
      rw [Joins, hthread a (by simp), hthread b (by simp), hjoined b (by simp)]
      exact hab

theorem Chained.next_mem (h : Chained s (b :: l)) (hi : i ∈ b :: l)
    (hthread : s.thread i = .joining (some j)) : j ∈ l := by
  induction l generalizing b with
  | nil =>
    rw [mem_singleton.mp hi] at hthread
    rcases h with h | h
    · rw [h] at hthread
      cases hthread
    · rw [h] at hthread
      cases hthread
  | cons c l ih =>
    obtain ⟨hbc, hrest⟩ := h
    rcases mem_cons.mp hi with rfl | hi
    · rcases hbc with ⟨hjoining, -⟩ | ⟨hended, -⟩
      · rw [hthread] at hjoining
        cases hjoining
        exact mem_cons_self
      · rw [hended] at hthread
        cases hthread
    · exact mem_cons_of_mem _ (ih hrest hi)

theorem Chained.ended (h : Chained s (a :: l)) (ha : s.thread a = .ended) :
    ∀ i ∈ l, s.thread i = .ended ∧ ∃ k ∈ a :: l, s.joined i = [some k] := by
  induction l generalizing a with
  | nil => simp
  | cons b l ih =>
    obtain ⟨hab, hrest⟩ := h
    rcases hab with ⟨hjoining, -⟩ | ⟨-, hb, hjoined⟩
    · rw [ha] at hjoining
      cases hjoining
    · intro i hi
      rcases mem_cons.mp hi with rfl | hi
      · exact ⟨hb, a, by simp, hjoined⟩
      · obtain ⟨hended, k, hk, hjoined⟩ := ih hrest hb i hi
        exact ⟨hended, k, mem_cons_of_mem _ hk, hjoined⟩

theorem Chained.joined_once (h : Chained s (a :: l)) (hnodup : (a :: l).Nodup) (hi : i ∈ l) :
    s.joined i = [] ∨ ∃ k, k ≠ i ∧ s.joined i = [some k] := by
  induction l generalizing a with
  | nil => cases hi
  | cons b l ih =>
    obtain ⟨hab, hrest⟩ := h
    rcases mem_cons.mp hi with rfl | hi
    · rcases hab with ⟨-, hjoined⟩ | ⟨-, -, hjoined⟩
      · exact .inl hjoined
      · refine .inr ⟨a, ?_, hjoined⟩
        rintro rfl
        exact (nodup_cons.mp hnodup).1 mem_cons_self
    · exact ih hrest (nodup_cons.mp hnodup).2 hi

theorem join_spec {who tid : Option ThreadId} (h : s.join who tid = some s') :
    ∃ joined, s' = { s with joined := joined } ∧
      (∀ j, tid = some j → s.thread j = .ended ∧ joined j = who :: s.joined j) ∧
      ∀ k, tid ≠ some k → joined k = s.joined k := by
  cases tid with
  | none =>
    cases h
    exact ⟨s.joined, rfl, (by simp), fun _ _ => rfl⟩
  | some j =>
    simp only [State.join] at h
    split_ifs at h with hj
    cases h
    refine ⟨_, rfl, ?_, ?_⟩
    · intro k hk
      cases hk
      exact ⟨hj, update_self _ _ _⟩
    · intro k hk
      exact update_of_ne (fun h => hk (congrArg some h.symm)) _ _

theorem setThread_self (s : State) (i : ThreadId) (x : Thread) :
    (s.setThread i x).thread i = x := update_self _ _ _

theorem setThread_of_ne (s : State) (x : Thread) (h : j ≠ i) :
    (s.setThread i x).thread j = s.thread j := update_of_ne h _ _

theorem Chained.join {tid : Option ThreadId} {joined : ThreadId → List (Option ThreadId)}
    (h : Chained s l) (hnodup : l.Nodup) (hi : s.thread i = .joining tid) (hmem : i ∈ l)
    (hended : ∀ j, tid = some j → s.thread j = .ended ∧ joined j = some i :: s.joined j)
    (hother : ∀ k, tid ≠ some k → joined k = s.joined k) :
    Chained ({ s with joined := joined }.setThread i .ended) l := by
  have hthread := fun k hk => setThread_of_ne (i := i) (j := k) { s with joined := joined } .ended hk
  have hself := setThread_self { s with joined := joined } i .ended
  induction l with
  | nil => cases hmem
  | cons a l ih =>
    obtain ⟨hal, hnodup'⟩ := nodup_cons.mp hnodup
    by_cases hai : a = i
    · subst hai
      cases l with
      | nil => exact .inr hself
      | cons b l =>
        obtain ⟨hab, hrest⟩ := h
        rcases hab with ⟨hjoining, hnone⟩ | ⟨hgone, -⟩
        · rw [hi] at hjoining
          cases hjoining
          obtain ⟨hb, hjoined⟩ := hended b rfl
          have hbl : b ∉ l := (nodup_cons.mp hnodup').1
          refine ⟨.inr ⟨hself, ?_, ?_⟩, hrest.frame ?_ ?_⟩
          · rw [hthread b (fun h => hal (by simp [h]))]
            exact hb
          · rw [hnone] at hjoined
            exact hjoined
          · exact fun k hk => hthread k (fun h => hal (h ▸ hk))
          · exact fun k hk => hother k (fun h => hbl (Option.some.inj h ▸ hk))
        · rw [hi] at hgone
          cases hgone
    · have hil : i ∈ l := (mem_cons.mp hmem).resolve_left (fun h => hai h.symm)
      cases l with
      | nil => cases hil
      | cons b l =>
        obtain ⟨hab, hrest⟩ := h
        refine ⟨?_, ih hrest hnodup' hil⟩
        -- the thread that is joined comes behind `i`, so it is not `b`
        have hb : joined b = s.joined b := by
          apply hother
          rintro rfl
          exact (nodup_cons.mp hnodup').1 (hrest.next_mem hil hi)
        rcases hab with ⟨hjoining, hnone⟩ | ⟨ha, hgone, hjoined⟩
        · refine .inl ⟨?_, hb.trans hnone⟩
          rw [hthread a hai]
          exact hjoining
        · have hbi : b ≠ i := by
            rintro rfl
            rw [hi] at hgone
            cases hgone
          refine .inr ⟨?_, ?_, hb.trans hjoined⟩
          · rw [hthread a hai]
            exact ha
          · rw [hthread b hbi]
            exact hgone

structure Exits (s : State) (l : List ThreadId) : Prop where
  nodup : l.Nodup
  mem : ∀ i, i ∈ l ↔ (s.thread i).left = true ∧ s.destroyer ≠ some i
  tid : s.tid = l.head?
  chain : Chained s l
  last : ∀ i, l.head? = some i → if s.stage.joined then
      s.thread i = .ended ∧ s.joined i = [s.destroyer] else s.joined i = []
  other : ∀ i, i ∉ l → s.joined i = []
  read : ∀ t, s.stage = .joining t → t = s.tid

structure Threads (s : State) : Prop where
  count : s.nthreads = (total s.created fun i => if s.counts i then 1 else 0 : ℕ)
  unborn : ∀ i, s.thread i = .unborn ↔ s.created ≤ i
  terminate : s.terminate = decide (s.stage ≠ .none)
  destroyer : ∀ i, s.destroyer = some i → s.stage ≠ .none ∧ ((∃ t, s.thread i = .running t) ∨
    s.stage = .returned ∧ (s.thread i = .ran ∨ s.thread i = .ended))
  passed : s.stage.passed = true → s.nthreads = 0
  freed : s.freed = if s.gone then 1 else 0

theorem setThread_destroyer (s : State) (x : Thread) (hi : s.destroyer ≠ some i) (j : ThreadId)
    (hj : s.destroyer = some j) : (s.setThread i x).thread j = s.thread j := by
  apply setThread_of_ne
  rintro rfl
  exact hi hj

theorem counts_congr (ht : s'.thread i = s.thread i) (hd : s'.destroyer = s.destroyer) :
    s'.counts i = s.counts i := by rw [State.counts, State.counts, ht, hd]

theorem freed_congr (h : s.freed = if s.gone then 1 else 0) (hf : s'.freed = s.freed)
    (hd : s'.destroyer = s.destroyer) (hs : s'.stage = s.stage)
    (ht : ∀ i, s.destroyer = some i → s'.thread i = s.thread i) :
    s'.freed = if s'.gone then 1 else 0 := by
  have hgone : s'.gone = s.gone := by
    unfold State.gone
    rw [hd, hs]
    cases hdes : s.destroyer with
    | none => rfl
    | some i => simp only [ht i hdes]
  rw [hf, hgone]
  exact h

namespace Threads

variable (h : Threads s)
include h

theorem lt_created (hi : s.thread i ≠ .unborn) : i < s.created := by
  by_contra hlt
  exact hi ((h.unborn i).mpr (Nat.not_lt.mp hlt))

theorem lt_of_live (hi : (s.thread i).live = true) : i < s.created := by
  apply h.lt_created
  intro hu
  rw [hu] at hi
  cases hi

theorem nonneg : 0 ≤ s.nthreads := by
  rw [h.count]
  exact Int.natCast_nonneg _

theorem pos (hi : s.counts i = true) : 0 < s.nthreads := by
  have hlive : (s.thread i).live = true := (Bool.and_eq_true_iff.mp hi).1
  have hle := le_total (h.lt_of_live hlive) fun i => if s.counts i then 1 else 0
  simp only [hi, if_true] at hle
  rw [h.count]
  omega

theorem not_passed (hi : s.counts i = true) : s.stage.passed = false := by
  by_contra hp
  have hzero := h.passed (Bool.eq_true_of_not_eq_false hp)
  have hpos := h.pos hi
  omega

theorem not_destroyer {x : Thread} (hi : s.thread i = x)
    (hx : (∀ t, x ≠ .running t) ∧ x ≠ .ran ∧ x ≠ .ended) : s.destroyer ≠ some i := by
  subst hi
  intro hd
  obtain ⟨-, ⟨t, ht⟩ | ⟨-, hs | hs⟩⟩ := h.destroyer i hd
  · exact hx.1 t ht
  · exact hx.2.1 hs
  · exact hx.2.2 hs

theorem nthreads_zero (hzero : s.nthreads = 0) (hi : (s.thread i).live = true) :
    s.destroyer = some i := by
  by_contra hd
  have hpos := h.pos (i := i) (by simp [State.counts, hi, hd])
  omega

theorem unborn_setThread (hi : i < s.created) {x : Thread} (hx : x ≠ .unborn) (j : ThreadId) :
    (s.setThread i x).thread j = .unborn ↔ s.created ≤ j := by
  by_cases hj : j = i
  · subst hj
    rw [setThread_self]
    exact iff_of_false hx (Nat.not_le.mpr hi)
  · rw [setThread_of_ne s x hj]
    exact h.unborn j

theorem change (hi : s.destroyer ≠ some i) (hborn : s.thread i ≠ .unborn) {x : Thread}
    (hx : x ≠ .unborn) (nthreads : ℤ) (tid : Option ThreadId)
    (joined : ThreadId → List (Option ThreadId))
    (hn : nthreads + (if (s.thread i).live then 1 else 0) =
      s.nthreads + if x.live then 1 else 0)
    (hpassed : s.stage.passed = true → nthreads = 0) :
    Threads { s.setThread i x with nthreads := nthreads, tid := tid, joined := joined } := by
  have hlt := h.lt_created hborn
  refine ⟨?_, ?_, h.terminate, ?_, hpassed, ?_⟩
  · have hcount := total_change hlt (f := fun j => if s.counts j then 1 else 0)
      (g := fun j => if (s.setThread i x).counts j then 1 else 0) (by
        intro j hj
        rw [counts_congr (setThread_of_ne s x hj) rfl])
    have hold : s.counts i = (s.thread i).live := by simp [State.counts, hi]
    have hnew : (s.setThread i x).counts i = x.live := by
      rw [State.counts, setThread_self]
      simp [State.setThread, hi]
    simp only [hold, hnew] at hcount
    have hs := h.count
    change nthreads = (total s.created fun j => if (s.setThread i x).counts j then 1 else 0 : ℕ)
    split_ifs at hn hcount <;> omega
  · exact h.unborn_setThread hlt hx
  · intro j hj
    obtain ⟨hstage, hthread⟩ := h.destroyer j hj
    rw [← setThread_destroyer s x hi j hj] at hthread
    exact ⟨hstage, hthread⟩
  · exact freed_congr h.freed rfl rfl rfl (setThread_destroyer s x hi)

theorem changeDestroyer (hi : s.destroyer = some i) (hs : s.stage = .returned)
    (hthread : (s.thread i).live = true) {x : Thread} (hx' : x = .ran ∨ x = .ended) :
    Threads { s.setThread i x with freed := if x = .ended then s.freed + 1 else s.freed } := by
  have hlt := h.lt_of_live hthread
  have hx : x ≠ .unborn := by rcases hx' with rfl | rfl <;> exact (by simp)
  refine ⟨?_, ?_, h.terminate, ?_, h.passed, ?_⟩
  · have hcounts : ∀ j, (s.setThread i x).counts j = s.counts j := by
      intro j
      by_cases hj : j = i
      · subst hj
        simp [State.counts, State.setThread, hi]
      · exact counts_congr (setThread_of_ne s x hj) rfl
    change s.nthreads = (total s.created fun j => if (s.setThread i x).counts j then 1 else 0 : ℕ)
    rw [total_congr (fun j _ => by rw [hcounts j])]
    exact h.count
  · exact h.unborn_setThread hlt hx
  · intro j hj
    have hji : i = j := Option.some.inj (hi.symm.trans hj)
    subst hji
    refine ⟨(h.destroyer i hi).1, .inr ⟨hs, ?_⟩⟩
    exact hx'.imp (setThread_self s i x).trans (setThread_self s i x).trans
  · have hold : s.freed = 0 := by
      have hne : s.thread i ≠ .ended := by
        intro he
        rw [he] at hthread
        cases hthread
      rw [h.freed, State.gone, hi]
      simp only [decide_eq_false hne]
      rfl
    have hgone : (s.setThread i x).gone = decide (x = .ended) := by
      simp only [State.gone, show (s.setThread i x).destroyer = some i from hi, setThread_self]
    change (if x = .ended then s.freed + 1 else s.freed) = if (s.setThread i x).gone then 1 else 0
    rw [hgone, hold]
    simp

theorem move (hi : s.destroyer ≠ some i) (hlive : (s.thread i).live = true) {x : Thread}
    (hx : x.live = true) : Threads (s.setThread i x) := by
  refine h.change hi ?_ ?_ s.nthreads s.tid s.joined (by rw [hlive, hx]) h.passed
  · intro hu
    rw [hu] at hlive
    cases hlive
  · intro hu
    rw [hu] at hx
    cases hx

theorem exitStep (hi : s.thread i = .exiting) : Threads (s.exitStep i) := by
  have hd := h.not_destroyer hi (by simp)
  have hcounts : s.counts i = true := by simp [State.counts, hi, hd, Thread.live]
  refine h.change hd (by simp [hi]) (x := .joining s.tid) (by simp) (s.nthreads - 1) (some i)
    s.joined ?_ ?_
  · simp [hi, Thread.live]
  · intro hp
    rw [h.not_passed hcounts] at hp
    cases hp

theorem ended {tid : Option ThreadId} (hi : s.thread i = .joining tid)
    (joined : ThreadId → List (Option ThreadId)) :
    Threads ({ s with joined := joined }.setThread i .ended) := by
  have hd := h.not_destroyer hi (by simp)
  exact h.change hd (by simp [hi]) (x := .ended) (by simp) s.nthreads s.tid joined
    (by simp [hi, Thread.live]) h.passed

theorem check (hi : s.thread i = .ran) : Threads (s.check i) := by
  have hlive : (s.thread i).live = true := by rw [hi]; rfl
  unfold State.check
  split_ifs with hzero
  · have hd := h.nthreads_zero hzero hlive
    obtain ⟨-, ⟨t, ht⟩ | ⟨hs, -⟩⟩ := h.destroyer i hd
    · rw [hi] at ht
      cases ht
    · exact h.changeDestroyer hd hs hlive (.inr rfl)
  · refine h.move ?_ hlive rfl
    intro hd
    obtain ⟨-, ⟨t, ht⟩ | ⟨hs, -⟩⟩ := h.destroyer i hd
    · rw [hi] at ht
      cases ht
    · exact hzero (h.passed (by rw [hs]; rfl))

theorem finish {t : TaskId} (hi : s.thread i = .running t)
    (hd : ¬(s.destroyer = some i ∧ s.stage ≠ .returned)) : Threads (s.setThread i .ran) := by
  have hlive : (s.thread i).live = true := by rw [hi]; rfl
  by_cases hdes : s.destroyer = some i
  · have hs : s.stage = .returned := by
      by_contra hs
      exact hd ⟨hdes, hs⟩
    exact h.changeDestroyer hdes hs hlive (.inl rfl)
  · exact h.move hdes hlive rfl

theorem increase (hs : s.stage.passed = false) : Threads s.increase := by
  have hu := (h.unborn s.created).mpr (Nat.le_refl _)
  have hd := h.not_destroyer hu (by simp)
  refine ⟨?_, ?_, h.terminate, ?_, ?_, ?_⟩
  · have hcounts : ∀ j, j < s.created → s.increase.counts j = s.counts j := by
      intro j hj
      exact counts_congr (setThread_of_ne s .top (Nat.ne_of_lt hj)) rfl
    have hnew : s.increase.counts s.created = true := by
      simp [State.counts, State.increase, State.setThread, Thread.live, hd]
    have hn := h.count
    change s.nthreads + 1 = (total (s.created + 1) fun j => if s.increase.counts j then 1 else 0 : ℕ)
    rw [total_succ, total_congr (fun j hj => by rw [hcounts j hj]), hnew, hn]
    rfl
  · intro j
    change (s.setThread s.created .top).thread j = .unborn ↔ s.created + 1 ≤ j
    by_cases hj : j = s.created
    · subst hj
      rw [setThread_self]
      exact iff_of_false (by simp) (Nat.not_succ_le_self _)
    · rw [setThread_of_ne s .top hj, h.unborn j]
      exact ⟨fun hle => Nat.lt_of_le_of_ne hle (Ne.symm hj), Nat.le_of_succ_le⟩
  · intro j hj
    obtain ⟨hstage, hthread⟩ := h.destroyer j hj
    rw [← setThread_destroyer s .top hd j hj] at hthread
    exact ⟨hstage, hthread⟩
  · intro hp
    have hp' : s.stage.passed = true := hp
    rw [hs] at hp'
    cases hp'
  · exact freed_congr h.freed rfl rfl rfl (setThread_destroyer s .top hd)

theorem before (hs : s.stage = .none) : s.destroyer = none ∧ s.freed = 0 := by
  have hd : s.destroyer = none := by
    by_contra hd
    obtain ⟨i, hi⟩ := Option.ne_none_iff_exists'.mp hd
    exact (h.destroyer i hi).1 hs
  refine ⟨hd, ?_⟩
  rw [h.freed, State.gone, hd]
  simp [hs]

theorem destroyOutside (hs : s.stage = .none) : Threads (s.terminateSection none) := by
  obtain ⟨hd, hfreed⟩ := h.before hs
  refine ⟨?_, h.unborn, rfl, (by intros; contradiction), (by intros; contradiction), hfreed⟩
  have hcounts : ∀ j, (s.terminateSection none).counts j = s.counts j := by
    intro j
    simp [State.counts, State.terminateSection, hd]
  change s.nthreads =
    (total s.created fun j => if (s.terminateSection none).counts j then 1 else 0 : ℕ)
  rw [total_congr (fun j _ => by rw [hcounts j])]
  exact h.count

theorem destroyInside (hs : s.stage = .none) {t : TaskId} (hi : s.thread i = .running t) :
    Threads (s.terminateSection (some i)) := by
  obtain ⟨hd, hfreed⟩ := h.before hs
  have hlt : i < s.created := h.lt_of_live (by rw [hi]; rfl)
  refine ⟨?_, h.unborn, rfl, ?_, (by rintro ⟨⟩), ?_⟩
  · have hcount := total_change hlt (f := fun j => if s.counts j then 1 else 0)
      (g := fun j => if (s.terminateSection (some i)).counts j then 1 else 0) (by
        intro j hj
        simp [State.counts, State.terminateSection, hd, hj.symm])
    have hold : s.counts i = true := by simp [State.counts, hi, hd, Thread.live]
    have hnew : (s.terminateSection (some i)).counts i = false := by
      simp [State.counts, State.terminateSection]
    simp only [hold, hnew] at hcount
    have hn := h.count
    change s.nthreads - 1 =
      (total s.created fun j => if (s.terminateSection (some i)).counts j then 1 else 0 : ℕ)
    rw [hn]
    simp only [if_true] at hcount
    have hfalse : (if false = true then 1 else 0) = 0 := rfl
    omega
  · intro j hj
    have hji : i = j := Option.some.inj hj
    subst hji
    exact ⟨(by rintro ⟨⟩), .inl ⟨t, hi⟩⟩
  · rw [State.gone]
    simp only [State.terminateSection, hi]
    exact hfreed

theorem setStage (stage : Stage) (joined : ThreadId → List (Option ThreadId))
    (hs : s.stage ≠ .none) (hne : stage ≠ .none) (hold : s.stage ≠ .returned)
    (hnew : stage ≠ .returned) (hpassed : stage.passed = true → s.nthreads = 0) :
    Threads { s with stage := stage, joined := joined } := by
  refine ⟨h.count, h.unborn, ?_, ?_, hpassed, ?_⟩
  · rw [h.terminate, decide_eq_true hs, decide_eq_true hne]
  · intro i hi
    obtain ⟨-, hrun | ⟨hret, -⟩⟩ := h.destroyer i hi
    · exact ⟨hne, .inl hrun⟩
    · exact absurd hret hold
  · have hfreed := h.freed
    unfold State.gone at hfreed ⊢
    cases hd : s.destroyer with
    | none => simpa [hd, hold, hnew] using hfreed
    | some i => simpa [hd] using hfreed

theorem returned (hs : s.stage = .draining) :
    Threads { s with
      stage := .returned
      freed := if s.destroyer.isSome then s.freed else s.freed + 1 } := by
  refine ⟨h.count, h.unborn, ?_, ?_, fun _ => h.passed (by rw [hs]; rfl), ?_⟩
  · rw [h.terminate, hs]
    rfl
  · intro i hi
    obtain ⟨-, hrun | ⟨hret, -⟩⟩ := h.destroyer i hi
    · exact ⟨(by simp), .inl hrun⟩
    · rw [hs] at hret
      cases hret
  · have hfreed := h.freed
    unfold State.gone at hfreed ⊢
    cases hd : s.destroyer with
    | none => simpa [hd, hs] using hfreed
    | some i => simpa [hd] using hfreed

end Threads

namespace Exits

variable (h : Exits s l)
include h

theorem not_mem (hi : (s.thread i).left = false) : i ∉ l := by
  intro hmem
  rw [((h.mem i).mp hmem).1] at hi
  cases hi

theorem move {x : Thread} (hi : (s.thread i).left = false)
    (hx : x.left = false ∨ s.destroyer = some i) : Exits (s.setThread i x) l := by
  have hil := h.not_mem hi
  have hne : ∀ j ∈ l, j ≠ i := fun j hj hji => hil (hji ▸ hj)
  refine ⟨h.nodup, ?_, h.tid, h.chain.frame ?_ (fun _ _ => rfl), ?_, h.other, h.read⟩
  · intro j
    by_cases hj : j = i
    · subst hj
      rw [setThread_self]
      refine iff_of_false hil ?_
      rcases hx with hx | hd
      · simp [hx]
      · exact fun h => h.2 hd
    · rw [setThread_of_ne s x hj]
      exact h.mem j
  · exact fun j hj => setThread_of_ne s x (hne j hj)
  · intro j hj
    rw [setThread_of_ne s x (hne j (mem_of_mem_head? hj))]
    exact h.last j hj

theorem exitStep (hi : s.thread i = .exiting) (hd : s.destroyer ≠ some i)
    (hs : s.stage.passed = false) : Exits (s.exitStep i) (i :: l) := by
  have hil := h.not_mem (i := i) (by rw [hi]; rfl)
  have hne : ∀ j ∈ l, j ≠ i := fun j hj hji => hil (hji ▸ hj)
  have hself : (s.exitStep i).thread i = .joining s.tid := update_self _ _ _
  have hother : ∀ j, j ≠ i → (s.exitStep i).thread j = s.thread j :=
    fun j hj => update_of_ne hj _ _
  have hchain : Chained (s.exitStep i) l :=
    h.chain.frame (fun j hj => hother j (hne j hj)) (fun _ _ => rfl)
  have hjoined : s.stage.joined = false := by
    cases hst : s.stage <;> rw [hst] at hs <;> first | rfl | cases hs
  refine ⟨nodup_cons.mpr ⟨hil, h.nodup⟩, ?_, rfl, ?_, ?_, ?_, ?_⟩
  · intro j
    by_cases hj : j = i
    · subst hj
      rw [hself]
      exact iff_of_true mem_cons_self ⟨rfl, hd⟩
    · rw [mem_cons, or_iff_right hj, hother j hj]
      exact h.mem j
  · cases l with
    | nil =>
      refine .inl (hself.trans ?_)
      rw [h.tid]
      rfl
    | cons b l =>
      refine ⟨.inl ⟨?_, ?_⟩, hchain⟩
      · rw [hself, h.tid]
        rfl
      · have hlast := h.last b rfl
        rw [hjoined] at hlast
        exact hlast
  · intro j hj
    have hji : i = j := Option.some.inj hj
    subst hji
    rw [show (s.exitStep i).stage.joined = false from hjoined]
    exact h.other i hil
  · intro j hj
    exact h.other j (fun hmem => hj (mem_cons_of_mem _ hmem))
  · intro t ht
    have ht' : s.stage = .joining t := ht
    rw [ht'] at hs
    cases hs

theorem join {tid : Option ThreadId} {joined : ThreadId → List (Option ThreadId)}
    (hi : s.thread i = .joining tid) (hd : s.destroyer ≠ some i)
    (hended : ∀ j, tid = some j → s.thread j = .ended ∧ joined j = some i :: s.joined j)
    (hother : ∀ k, tid ≠ some k → joined k = s.joined k) :
    Exits ({ s with joined := joined }.setThread i .ended) l := by
  have hil : i ∈ l := (h.mem i).mpr ⟨by rw [hi]; rfl, hd⟩
  have hthread := fun k hk => setThread_of_ne (i := i) (j := k) { s with joined := joined } .ended hk
  have hself := setThread_self { s with joined := joined } i .ended
  refine ⟨h.nodup, ?_, h.tid, h.chain.join h.nodup hi hil hended hother, ?_, ?_, h.read⟩
  · intro j
    by_cases hj : j = i
    · subst hj
      rw [hself]
      exact iff_of_true hil ⟨rfl, hd⟩
    · rw [hthread j hj]
      exact h.mem j
  · intro j hj
    have hlast := h.last j hj
    cases l with
    | nil => cases hil
    | cons b l =>
      cases hj
      -- the last thread is joined by the destroyer only
      have hjoined : joined j = s.joined j := by
        apply hother
        rintro rfl
        exact (nodup_cons.mp h.nodup).1 (h.chain.next_mem hil hi)
      change if s.stage.joined then _ ∧ joined j = [s.destroyer] else joined j = []
      rw [hjoined]
      split_ifs at hlast ⊢
      · refine ⟨?_, hlast.2⟩
        by_cases hji : j = i
        · rw [hji]
          exact hself
        · rw [hthread j hji]
          exact hlast.1
      · exact hlast
  · intro j hj
    have hjoined : joined j = s.joined j := by
      apply hother
      rintro rfl
      cases l with
      | nil => cases hil
      | cons b l => exact hj (mem_cons_of_mem _ (h.chain.next_mem hil hi))
    exact hjoined.trans (h.other j hj)

theorem destroyJoin {tid : Option ThreadId} {joined : ThreadId → List (Option ThreadId)}
    (hs : s.stage = .joining tid)
    (hended : ∀ j, tid = some j → s.thread j = .ended ∧ joined j = s.destroyer :: s.joined j)
    (hother : ∀ k, tid ≠ some k → joined k = s.joined k) :
    Exits { s with stage := .draining, joined := joined } l := by
  have htid : tid = l.head? := (h.read tid hs).trans h.tid
  refine ⟨h.nodup, h.mem, h.tid, h.chain.frame (fun _ _ => rfl) ?_, ?_, ?_, (by simp)⟩
  · intro k hk
    apply hother
    rw [htid]
    intro hhead
    cases l with
    | nil => cases hk
    | cons b l =>
      cases hhead
      exact (nodup_cons.mp h.nodup).1 hk
  · intro j hj
    obtain ⟨hthread, hjoined⟩ := hended j (htid.trans hj)
    have hlast := h.last j hj
    rw [hs] at hlast
    refine ⟨hthread, ?_⟩
    change joined j = [s.destroyer]
    rw [hjoined, show s.joined j = [] from hlast]
  · intro j hj
    have hjoined : joined j = s.joined j := by
      apply hother
      rw [htid]
      exact fun hhead => hj (mem_of_mem_head? hhead)
    exact hjoined.trans (h.other j hj)

theorem frame (hthread : s'.thread = s.thread) (hdes : s'.destroyer = s.destroyer)
    (htid : s'.tid = s.tid) (hjoined : s'.joined = s.joined) (hstage : s'.stage = s.stage) :
    Exits s' l := by
  refine ⟨h.nodup, ?_, htid.trans h.tid,
    h.chain.frame (fun i _ => congrFun hthread i) (fun i _ => congrFun hjoined i), ?_, ?_, ?_⟩
  · rw [hthread, hdes]
    exact h.mem
  · rw [hstage, hthread, hjoined, hdes]
    exact h.last
  · rw [hjoined]
    exact h.other
  · rw [hstage, htid]
    exact h.read

theorem setStage (stage : Stage) (hjoined : stage.joined = s.stage.joined)
    (hread : ∀ t, stage = .joining t → t = s.tid) : Exits { s with stage := stage } l := by
  refine ⟨h.nodup, h.mem, h.tid, h.chain.frame (fun _ _ => rfl) (fun _ _ => rfl), ?_, h.other,
    hread⟩
  intro i hi
  rw [hjoined]
  exact h.last i hi

theorem destroy (hs : s.stage = .none) (hd : s.destroyer = none) (who : Option ThreadId)
    (hwho : ∀ i, who = some i → (s.thread i).left = false) : Exits (s.terminateSection who) l := by
  refine ⟨h.nodup, ?_, h.tid, h.chain.frame (fun _ _ => rfl) (fun _ _ => rfl), ?_, h.other,
    (by rintro _ ⟨⟩)⟩
  · intro i
    rw [h.mem i, hd]
    constructor
    · rintro ⟨hleft, -⟩
      refine ⟨hleft, ?_⟩
      intro hi
      rw [hwho i hi] at hleft
      cases hleft
    · rintro ⟨hleft, -⟩
      exact ⟨hleft, (by simp)⟩
  · intro i hi
    have hlast := h.last i hi
    rw [hs] at hlast
    exact hlast

end Exits

end MyWorkflow.ThreadPool
