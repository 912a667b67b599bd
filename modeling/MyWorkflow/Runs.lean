import Mathlib.Tactic.Common

set_option autoImplicit false

/-!
# Runs of a transition system

`step s a` is the state behind action `a`, or `none` where `a` is not enabled. `allowed`
restricts a run to the actions that meet a condition on the state before them.
-/
namespace MyWorkflow.Runs

variable {σ α : Type} {step : σ → α → Option σ} {allowed : σ → α → Prop} {init s : σ}

inductive Reaches (step : σ → α → Option σ) (allowed : σ → α → Prop) (init : σ) : σ → Prop
  | start : Reaches step allowed init init
  | next {s s' : σ} {a : α} : Reaches step allowed init s → allowed s a → step s a = some s' →
      Reaches step allowed init s'

theorem of_guard {c : Prop} [Decidable c] {x y : σ} (h : (if c then some x else none) = some y) :
    c ∧ y = x := by
  split_ifs at h with hc
  exact ⟨hc, (Option.some.inj h).symm⟩

abbrev Reachable (step : σ → α → Option σ) (init : σ) : σ → Prop :=
  Reaches step (fun _ _ => True) init

theorem Reaches.invariant {P : σ → Prop} (h : Reaches step allowed init s) (hinit : P init)
    (hstep : ∀ s a s', P s → allowed s a → step s a = some s' → P s') : P s := by
  induction h with
  | start => exact hinit
  | next _ ha hs ih => exact hstep _ _ _ ih ha hs

def run (step : σ → α → Option σ) : σ → List α → Option σ
  | s, [] => some s
  | s, a :: as => (step s a).bind (fun s' => run step s' as)

theorem reaches_of_run {p : α → Prop} {s₀ s₁ : σ} (as : List α) (hp : ∀ a ∈ as, p a)
    (h₀ : Reaches step (fun _ a => p a) init s₀) (h : run step s₀ as = some s₁) :
    Reaches step (fun _ a => p a) init s₁ := by
  induction as generalizing s₀ with
  | nil =>
    cases h
    exact h₀
  | cons a as ih =>
    obtain ⟨s', hs, hrun⟩ := Option.bind_eq_some_iff.mp h
    have hp' := List.forall_mem_cons.mp hp
    exact ih hp'.2 (h₀.next hp'.1 hs) hrun

theorem reachable_of_run {s₀ s₁ : σ} (as : List α) (h₀ : Reachable step init s₀)
    (h : run step s₀ as = some s₁) : Reachable step init s₁ :=
  reaches_of_run as (fun _ _ => trivial) h₀ h

def guardedRun (step : σ → α → Option σ) (allowed : σ → α → Prop)
    [∀ s a, Decidable (allowed s a)] : σ → List α → Option σ
  | s, [] => some s
  | s, a :: as =>
    if allowed s a then (step s a).bind (fun s' => guardedRun step allowed s' as) else none

theorem reaches_of_guardedRun [∀ s a, Decidable (allowed s a)] {s₀ s₁ : σ} (as : List α)
    (h₀ : Reaches step allowed init s₀) (h : guardedRun step allowed s₀ as = some s₁) :
    Reaches step allowed init s₁ := by
  induction as generalizing s₀ with
  | nil =>
    cases h
    exact h₀
  | cons a as ih =>
    simp only [guardedRun] at h
    split_ifs at h with ha
    obtain ⟨s', hs, hrun⟩ := Option.bind_eq_some_iff.mp h
    exact ih (h₀.next ha hs) hrun

end MyWorkflow.Runs
