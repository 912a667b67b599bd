import Mathlib.Algebra.Order.Ring.Int
import Mathlib.Data.List.Infix
import Mathlib.Tactic.Common

set_option autoImplicit false

/-!
# Handler threads for blocking operations

`WFGlobal` adds handler threads while more operations block than ever before and takes them away
when less than half of them are left. An operation in progress occupies a thread, so the counters
stay far below `INT_MAX`.
-/
namespace MyWorkflow.HandlerThreads
open List

/-- `sync_count_` and `sync_max_`, and the calls made: all of `increase_handler_thread`, those that
    returned 0, and all of `decrease_handler_thread`. -/
structure Sync where
  count : ℤ := 0
  max : ℤ := 0
  increases : ℕ := 0
  succeeded : ℕ := 0
  decreases : ℕ := 0
deriving DecidableEq, Repr

/-- `Communicator::increase_handler_thread`: -1 unless `malloc` and `thrdpool_increase` succeed. -/
def increaseHandlerThread (malloc increase : Bool) : ℤ :=
  if malloc then
    if increase then 0 else -1
  else -1

def syncOperationBegin (malloc increase : Bool) (s : Sync) : Sync :=
  let s := { s with count := s.count + 1 }
  if s.max < s.count then
    -- the result of the call is not looked at
    { s with
      max := s.count, increases := s.increases + 1,
      succeeded := s.succeeded + if 0 ≤ increaseHandlerThread malloc increase then 1 else 0 }
  else s

def dec (count max : ℤ) : ℤ :=
  if count < (max + 1).tdiv 2 then max - 2 * count else 0

def syncOperationEnd (s : Sync) : Sync :=
  let count := s.count - 1
  { s with
    count, max := s.max - dec count s.max
    decreases := s.decreases + (dec count s.max).toNat }

/-- The calls of `WFGlobal`: a thread that is no handler thread gets cookie 0. -/
inductive Op where
  | syncBegin (handler malloc increase : Bool)
  | syncEnd (cookie : Bool)
deriving DecidableEq, Repr

def step (s : Sync) : Op → Sync
  | .syncBegin handler malloc increase =>
    if handler then syncOperationBegin malloc increase s else s
  | .syncEnd cookie => if cookie then syncOperationEnd s else s

def after (ops : List Op) : Sync := ops.foldl step {}

def Op.begins : Op → ℕ
  | .syncBegin handler _ _ => handler.toNat
  | .syncEnd _ => 0

def Op.ends : Op → ℕ
  | .syncBegin _ _ _ => 0
  | .syncEnd cookie => cookie.toNat

def begins (ops : List Op) : ℕ := (ops.map Op.begins).sum
def ends (ops : List Op) : ℕ := (ops.map Op.ends).sum

def EndsFit (ops : List Op) : Prop := ∀ pre, pre <+: ops → ends pre ≤ begins pre

instance (ops : List Op) : Decidable (EndsFit ops) :=
  decidable_of_iff (∀ pre ∈ ops.inits, ends pre ≤ begins pre) (by simp [EndsFit])

theorem after_concat (ops : List Op) (op : Op) : after (ops ++ [op]) = step (after ops) op := by
  simp [after]

theorem EndsFit.of_concat {ops : List Op} {op : Op} (h : EndsFit (ops ++ [op])) : EndsFit ops :=
  fun pre hpre => h pre (hpre.trans (prefix_append _ _))

theorem begin_grow {s : Sync} (malloc increase : Bool) (h : s.max < s.count + 1) :
    syncOperationBegin malloc increase s =
      { s with
        count := s.count + 1, max := s.count + 1, increases := s.increases + 1
        succeeded := s.succeeded + if 0 ≤ increaseHandlerThread malloc increase then 1 else 0 } :=
  if_pos h

theorem begin_stay {s : Sync} (malloc increase : Bool) (h : ¬s.max < s.count + 1) :
    syncOperationBegin malloc increase s = { s with count := s.count + 1 } :=
  if_neg h

theorem dec_eq (count : ℤ) {max : ℤ} (hmax : 0 ≤ max) :
    dec count max = if 2 * count < max then max - 2 * count else 0 := by
  have hdiv : (max + 1).tdiv 2 = (max + 1) / 2 := Int.tdiv_eq_ediv_of_nonneg (by omega)
  rw [dec, hdiv]
  by_cases h : 2 * count < max
  · rw [if_pos (by omega), if_pos h]
  · rw [if_neg (by omega), if_neg h]

theorem dec_nonneg {count max : ℤ} (hmax : 0 ≤ max) : 0 ≤ dec count max := by
  rw [dec_eq count hmax]
  split_ifs <;> omega

structure Inv (s : Sync) (begun ended : ℕ) : Prop where
  count_eq : s.count = (begun : ℤ) - ended
  count_le : s.count ≤ s.max
  le_twice : s.max ≤ 2 * s.count
  balance : (s.increases : ℤ) - s.decreases = s.max

theorem Inv.max_nonneg {s : Sync} {b e : ℕ} (inv : Inv s b e) : 0 ≤ s.max := by
  have hle := inv.count_le
  have htwice := inv.le_twice
  omega

theorem Inv.begin {s : Sync} {b e : ℕ} (inv : Inv s b e) (malloc increase : Bool) :
    Inv (syncOperationBegin malloc increase s) (b + 1) e := by
  obtain ⟨hcount, hle, htwice, hbalance⟩ := inv
  by_cases hmax : s.max < s.count + 1
  · rw [begin_grow malloc increase hmax]
    constructor <;> dsimp only <;> omega
  · rw [begin_stay malloc increase hmax]
    constructor <;> dsimp only <;> omega

theorem Inv.end {s : Sync} {b e : ℕ} (inv : Inv s b e) (hfit : e + 1 ≤ b) :
    Inv (syncOperationEnd s) b (e + 1) := by
  have hdec := dec_eq (s.count - 1) inv.max_nonneg
  obtain ⟨hcount, hle, htwice, hbalance⟩ := inv
  unfold syncOperationEnd
  split_ifs at hdec <;> constructor <;> dsimp only <;> omega

theorem Inv.step {s : Sync} {b e : ℕ} (inv : Inv s b e) (op : Op)
    (hfit : e + op.ends ≤ b + op.begins) : Inv (step s op) (b + op.begins) (e + op.ends) := by
  cases op with
  | syncBegin handler malloc increase =>
    cases handler
    · exact inv
    · exact inv.begin malloc increase
  | syncEnd cookie =>
    cases cookie
    · exact inv
    · exact inv.end hfit

theorem after_inv (ops : List Op) (hops : EndsFit ops) :
    Inv (after ops) (begins ops) (ends ops) := by
  induction ops using List.reverseRecOn with
  | nil => constructor <;> decide
  | append_singleton ops op ih =>
    have hfit := hops _ (prefix_refl _)
    have hstep := (ih hops.of_concat).step op (by simpa [begins, ends] using hfit)
    rw [after_concat]
    simpa [begins, ends] using hstep

theorem sync_max_keeps_pace (ops : List Op) (hops : EndsFit ops) :
    (0 ≤ (after ops).count ∧ (after ops).count ≤ (after ops).max ∧
      (after ops).max ≤ 2 * (after ops).count) ∧
    ((after ops).increases : ℤ) - (after ops).decreases = (after ops).max ∧
    0 ≤ dec ((after ops).count - 1) (after ops).max ∧
    (ends ops = begins ops → (after ops).increases = (after ops).decreases) := by
  have inv := after_inv ops hops
  have hnonneg := inv.max_nonneg
  have hpos := hops _ (prefix_refl _)
  obtain ⟨hcount, hle, htwice, hbalance⟩ := inv
  refine ⟨⟨by omega, hle, htwice⟩, hbalance, dec_nonneg hnonneg, ?_⟩
  intro hall
  omega

/-- Three operations at once; the first that ends leaves `sync_max_` where it is. -/
def threeOps : List Op :=
  [.syncBegin true true true, .syncBegin true true true, .syncBegin true true true,
    .syncEnd true, .syncEnd true, .syncEnd true]

theorem threeOps_keep_pace : EndsFit threeOps ∧
    (after (threeOps.take 4)).count < (after (threeOps.take 4)).max ∧
    (after threeOps).increases = (after threeOps).decreases := by
  exact ⟨by decide, by decide, (sync_max_keeps_pace _ (by decide)).2.2.2 (by decide)⟩

def Succeeds (s : Sync) : Op → Prop
  | .syncBegin true malloc increase =>
    s.max < s.count + 1 → 0 ≤ increaseHandlerThread malloc increase
  | _ => True

def AllSucceed (ops : List Op) : Prop :=
  ∀ pre op, pre ++ [op] <+: ops → Succeeds (after pre) op

/-- The threads left when all messages of `decrease_handler_thread` have been taken, out of
    `configured` at the start. -/
def handlerThreads (configured : ℕ) (s : Sync) : ℤ := configured + s.succeeded - s.decreases

theorem step_succeeded (s : Sync) (op : Op) (h : s.succeeded ≤ s.increases) :
    (step s op).succeeded ≤ (step s op).increases ∧
      ((step s op).succeeded = (step s op).increases ↔
        s.succeeded = s.increases ∧ Succeeds s op) := by
  cases op with
  | syncBegin handler malloc increase =>
    cases handler
    · exact ⟨h, by simp [step, Succeeds]⟩
    by_cases hmax : s.max < s.count + 1
    · simp only [step, ↓reduceIte, begin_grow malloc increase hmax, Succeeds, hmax, true_imp_iff]
      split_ifs with hok
      · exact ⟨by omega, by simp [hok]⟩
      · exact ⟨by omega, iff_of_false (by omega) fun h => hok h.2⟩
    · simpa [step, begin_stay malloc increase hmax, Succeeds, hmax] using h
  | syncEnd cookie => cases cookie <;> simpa [step, syncOperationEnd, Succeeds] using h

theorem allSucceed_concat (ops : List Op) (op : Op) :
    AllSucceed (ops ++ [op]) ↔ AllSucceed ops ∧ Succeeds (after ops) op := by
  constructor
  · intro h
    exact ⟨fun pre op' hpre => h pre op' (hpre.trans (prefix_append _ _)),
      h ops op (prefix_refl _)⟩
  · rintro ⟨hops, hop⟩ pre op' hpre
    rcases prefix_concat_iff.mp hpre with heq | hpre
    · obtain ⟨rfl, hlast⟩ := append_inj' heq rfl
      cases hlast
      exact hop
    · exact hops pre op' hpre

theorem after_succeeded (ops : List Op) :
    (after ops).succeeded ≤ (after ops).increases ∧
      ((after ops).succeeded = (after ops).increases ↔ AllSucceed ops) := by
  induction ops using List.reverseRecOn with
  | nil => exact ⟨le_refl _, by simp [after, AllSucceed]⟩
  | append_singleton ops op ih =>
    obtain ⟨hle, hiff⟩ := step_succeeded (after ops) op ih.1
    rw [after_concat, allSucceed_concat, ← ih.2]
    exact ⟨hle, hiff⟩

/-- The configured threads are kept exactly when no thread that was asked for is refused. -/
theorem configured_threads_kept_iff (configured : ℕ) (ops : List Op) (hops : EndsFit ops)
    (hall : ends ops = begins ops) :
    (∀ pre, pre <+: ops → (after pre).decreases ≤ (after pre).succeeded ∧
      (configured : ℤ) ≤ handlerThreads configured (after pre)) ↔ AllSucceed ops := by
  obtain ⟨hle, hiff⟩ := after_succeeded ops
  constructor
  · intro h
    have hlast := (h ops (prefix_refl _)).1
    obtain ⟨hcount, hmax, htwice, hbalance⟩ := after_inv ops hops
    exact hiff.mp (by omega)
  · intro h pre hpre
    have hsucceed : AllSucceed pre := fun p op hp => h p op (hp.trans hpre)
    have heq := (after_succeeded pre).2.mpr hsucceed
    have inv := after_inv pre fun p hp => hops p (hp.trans hpre)
    have hnonneg := inv.max_nonneg
    have hbalance := inv.balance
    unfold handlerThreads
    omega

theorem threeOps_kept : AllSucceed threeOps := by
  refine (configured_threads_kept_iff 1 _ (by decide) (by decide)).mp ?_
  intro pre hpre
  rw [← mem_inits] at hpre
  revert pre
  decide

/-- The only handler thread is told to leave for one that was never created. -/
theorem refused_thread_shrinks_pool :
    ∃ ops, EndsFit ops ∧ ends ops = begins ops ∧ ¬AllSucceed ops ∧
      (after ops).succeeded < (after ops).decreases ∧ handlerThreads 1 (after ops) = 0 := by
  refine ⟨[.syncBegin true true false, .syncEnd true], by decide, by decide, ?_, by decide,
    by decide⟩
  intro h
  exact absurd (h [] _ ⟨[.syncEnd true], rfl⟩ (by decide)) (by decide)

end MyWorkflow.HandlerThreads
