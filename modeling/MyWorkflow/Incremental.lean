import Mathlib.Data.List.Basic
import Mathlib.Tactic.Common

set_option autoImplicit false

/-!
# Resumable scans of a growing message

A scan reads the whole message collected so far and either settles or asks to be called again
with a longer one.
-/
namespace MyWorkflow.Incremental
open List

variable {β σ : Type}

inductive Verdict where
  | again
  | bad
  | done
deriving DecidableEq, Repr

/-- A settled verdict survives every longer message, and a call that asked for more can be repeated.
    -/
structure Resumable (step : List β → σ → Verdict × σ) : Prop where
  settle : ∀ {msg : List β} (more : List β) {s s' : σ} {v : Verdict},
    step msg s = (v, s') → v ≠ .again → step (msg ++ more) s = (v, s')
  restart : ∀ {msg : List β} (more : List β) {s s' : σ},
    step msg s = (.again, s') → step (msg ++ more) s' = step (msg ++ more) s

/-- `do { ret = step(message, s); } while (ret > 0)`, left early once `halted`. -/
def drive (step : List β → σ → Verdict × σ) (halted : σ → Bool) :
    ℕ → List β → σ → Verdict × σ
  | 0, _, s => (.again, s)
  | fuel + 1, msg, s =>
    match step msg s with
    | (.done, s') => if halted s' then (.done, s') else drive step halted fuel msg s'
    | (.again, s') => (.again, s')
    | (.bad, s') => (.bad, s')

def Advances (step : List β → σ → Verdict × σ) (pos : σ → ℕ) : Prop :=
  ∀ msg s s', step msg s = (.done, s') → pos s < pos s' ∧ pos s' ≤ msg.length

section Drive

variable {step : List β → σ → Verdict × σ} {halted : σ → Bool} {pos : σ → ℕ}

theorem drive_stop {fuel : ℕ} {msg : List β} {s s' : σ} {v : Verdict} (h : step msg s = (v, s'))
    (hv : v = .done → halted s' = true) : drive step halted (fuel + 1) msg s = (v, s') := by
  cases v with
  | again | bad => simp [drive, h]
  | done => simp [drive, h, hv rfl]

theorem drive_next {fuel : ℕ} {msg : List β} {s s' : σ} (h : step msg s = (.done, s'))
    (hh : halted s' = false) :
    drive step halted (fuel + 1) msg s = drive step halted fuel msg s' := by
  simp [drive, h, hh]

/-- The fuel is only a recursion bound: the unread length already pays for every step. -/
theorem drive_fuel (adv : Advances step pos) {m n : ℕ} {msg : List β} {s : σ}
    (hm : msg.length - pos s < m) (hn : msg.length - pos s < n) :
    drive step halted m msg s = drive step halted n msg s := by
  induction m generalizing n s with
  | zero => omega
  | succ m ih =>
    obtain _ | n := n
    · omega
    · rcases hs : step msg s with ⟨v, s'⟩
      by_cases hv : v = .done → halted s' = true
      · rw [drive_stop hs hv, drive_stop hs hv]
      · obtain ⟨rfl, hh⟩ : v = .done ∧ halted s' = false := by simpa using hv
        obtain ⟨h1, h2⟩ := adv msg s s' hs
        rw [drive_next hs hh, drive_next hs hh]
        exact ih (by omega) (by omega)

def loop (step : List β → σ → Verdict × σ) (halted : σ → Bool) (msg : List β) (s : σ) :
    Verdict × σ :=
  drive step halted (msg.length + 1) msg s

theorem loop_next (adv : Advances step pos) {msg : List β} {s s' : σ}
    (h : step msg s = (.done, s')) (hh : halted s' = false) :
    loop step halted msg s = loop step halted msg s' := by
  obtain ⟨h1, h2⟩ := adv msg s s' h
  unfold loop
  rw [drive_next h hh]
  exact drive_fuel adv (by omega) (by omega)

theorem loop_stop {msg : List β} {s s' : σ} {v : Verdict} (h : step msg s = (v, s'))
    (hv : v = .done → halted s' = true) : loop step halted msg s = (v, s') :=
  drive_stop h hv

theorem loop_induct (adv : Advances step pos) {msg : List β}
    {motive : σ → Verdict × σ → Prop}
    (stop : ∀ s s' v, step msg s = (v, s') → (v = .done → halted s' = true) → motive s (v, s'))
    (next : ∀ s s' r, step msg s = (.done, s') → halted s' = false →
      loop step halted msg s' = r → motive s' r → motive s r)
    (s : σ) : motive s (loop step halted msg s) := by
  -- the unread length strictly falls, so it carries the induction
  induction hk : msg.length - pos s using Nat.strongRecOn generalizing s with
  | _ k ih =>
    rcases hs : step msg s with ⟨v, s'⟩
    by_cases hv : v = .done → halted s' = true
    · rw [loop_stop hs hv]
      exact stop s s' v hs hv
    · obtain ⟨rfl, hh⟩ : v = .done ∧ halted s' = false := by simpa using hv
      obtain ⟨h1, h2⟩ := adv msg s s' hs
      rw [loop_next adv hs hh]
      exact next s s' _ hs hh rfl (ih _ (by omega) s' rfl)

/-! ### The states of a loop -/

inductive Visited (step : List β → σ → Verdict × σ) (halted : σ → Bool) (msg : List β) (s : σ) :
    σ → Prop
  | start : Visited step halted msg s s
  | next {t t' : σ} : Visited step halted msg s t → step msg t = (.done, t') → halted t' = false →
      Visited step halted msg s t'

/-- One byte of look-ahead is enough for every step, and none for a halting one. -/
def Frugal (step : List β → σ → Verdict × σ) (halted : σ → Bool) (pos : σ → ℕ) : Prop :=
  ∀ msg s s' m, step msg s = (.done, s') →
    (if halted s' then pos s' ≤ m else pos s' < m) → step (msg.take m) s = (.done, s')

section Visited

variable {msg : List β} {s t : σ}

theorem Visited.head {s' : σ} (h : step msg s = (.done, s')) (hh : halted s' = false)
    (ht : Visited step halted msg s' t) : Visited step halted msg s t := by
  induction ht with
  | start => exact .next .start h hh
  | next _ hs hh' ih => exact .next ih hs hh'

theorem Visited.loop_eq (adv : Advances step pos) (h : Visited step halted msg s t) :
    loop step halted msg s = loop step halted msg t := by
  induction h with
  | start => rfl
  | next _ hs hh ih => rw [ih, loop_next adv hs hh]

theorem Visited.le_pos (adv : Advances step pos) (h : Visited step halted msg s t) :
    pos s ≤ pos t := by
  induction h with
  | start => exact Nat.le_refl _
  | next _ hs _ ih =>
    have hadv := adv msg _ _ hs
    omega

theorem Visited.pos_le (adv : Advances step pos) (h : Visited step halted msg s t)
    (hs : pos s ≤ msg.length) : pos t ≤ msg.length := by
  cases h with
  | start => exact hs
  | next _ hstep _ => exact (adv msg _ _ hstep).2

theorem Visited.running (h : Visited step halted msg s t) (hs : halted s = false) :
    halted t = false := by
  cases h with
  | start => exact hs
  | next _ _ hh => exact hh

theorem Visited.preserves {P : σ → Prop}
    (keep : ∀ msg s s' v, step msg s = (v, s') → P s → P s')
    (h : Visited step halted msg s t) (hs : P s) : P t := by
  induction h with
  | start => exact hs
  | next _ hstep _ ih => exact keep msg _ _ _ hstep ih

theorem Visited.append (res : Resumable step) (more : List β) (h : Visited step halted msg s t) :
    Visited step halted (msg ++ more) s t := by
  induction h with
  | start => exact .start
  | next _ hs hh ih => exact .next ih (res.settle more hs (by decide)) hh

theorem Visited.take (adv : Advances step pos) (frugal : Frugal step halted pos) {m : ℕ}
    (h : Visited step halted msg s t) (hm : pos t < m) :
    Visited step halted (msg.take m) s t := by
  induction h with
  | start => exact .start
  | next _ hs hh ih =>
    have hlt := (adv msg _ _ hs).1
    exact .next (ih (by omega)) (frugal msg _ _ m hs (by simpa [hh] using hm)) hh

theorem loop_visited (adv : Advances step pos) {s' : σ} {v : Verdict}
    (h : loop step halted msg s = (v, s')) : ∃ t, Visited step halted msg s t ∧
      step msg t = (v, s') ∧ (v = .done → halted s' = true) := by
  refine loop_induct (motive := fun s r => r = (v, s') → ∃ t, Visited step halted msg s t ∧
    step msg t = (v, s') ∧ (v = .done → halted s' = true)) adv ?_ ?_ s h
  · rintro s u w hs hw ⟨⟩
    exact ⟨s, .start, hs, hw⟩
  · intro s u r hs hh _ ih hr
    obtain ⟨t, ht, hstep⟩ := ih hr
    exact ⟨t, ht.head hs hh, hstep⟩

end Visited

section Loop

variable {msg : List β} {s s' : σ} {v : Verdict} (adv : Advances step pos)

include adv

theorem loop_settle (res : Resumable step) (more : List β) (h : loop step halted msg s = (v, s'))
    (hv : v ≠ .again) : loop step halted (msg ++ more) s = (v, s') := by
  obtain ⟨t, ht, hs, hd⟩ := loop_visited adv h
  rw [(ht.append res more).loop_eq adv]
  exact loop_stop (res.settle more hs hv) hd

theorem loop_restart (res : Resumable step) (more : List β)
    (h : loop step halted msg s = (.again, s')) :
    loop step halted (msg ++ more) s' = loop step halted (msg ++ more) s := by
  obtain ⟨t, ht, hs, -⟩ := loop_visited adv h
  rw [(ht.append res more).loop_eq adv]
  unfold loop drive
  rw [res.restart more hs]

theorem Resumable.loop (res : Resumable step) : Resumable (loop step halted) where
  settle := fun more _ _ _ h hv => loop_settle adv res more h hv
  restart := fun more _ _ h => loop_restart adv res more h

theorem loop_advances : Advances (loop step halted) pos := by
  intro msg s s' h
  obtain ⟨t, ht, hs, -⟩ := loop_visited adv h
  exact ⟨Nat.lt_of_le_of_lt (ht.le_pos adv) (adv msg t s' hs).1, (adv msg t s' hs).2⟩

theorem loop_halted (h : loop step halted msg s = (.done, s')) : halted s' = true := by
  obtain ⟨-, -, -, hd⟩ := loop_visited adv h
  exact hd rfl

theorem loop_preserves {P : σ → Prop} (keep : ∀ msg s s' v, step msg s = (v, s') → P s → P s')
    (h : loop step halted msg s = (v, s')) (hs : P s) : P s' := by
  obtain ⟨t, ht, hstep, -⟩ := loop_visited adv h
  exact keep msg t s' v hstep (ht.preserves keep hs)

theorem loop_waiting (stays : ∀ {msg s s' v}, step msg s = (v, s') → v ≠ .done → s' = s)
    (h : loop step halted msg s = (v, s')) (hv : v ≠ .done) (hs : halted s = false) :
    halted s' = false := by
  obtain ⟨t, ht, hstep, -⟩ := loop_visited adv h
  rw [stays hstep hv]
  exact ht.running hs

theorem loop_pos_le (stays : ∀ {msg s s' v}, step msg s = (v, s') → v ≠ .done → s' = s)
    (h : loop step halted msg s = (v, s')) (hs : pos s ≤ msg.length) :
    pos s ≤ pos s' ∧ pos s' ≤ msg.length := by
  obtain ⟨t, ht, hstep, -⟩ := loop_visited adv h
  have hle := ht.le_pos adv
  by_cases hv : v = .done
  · have hadv := adv msg t s' (hv ▸ hstep)
    omega
  · rw [stays hstep hv]
    exact ⟨hle, ht.pos_le adv hs⟩

theorem loop_exact (frugal : Frugal step halted pos) {m : ℕ}
    (h : loop step halted msg s = (.done, s')) (hm : pos s' ≤ m) :
    loop step halted (msg.take m) s = (.done, s') := by
  obtain ⟨t, ht, hs, hd⟩ := loop_visited adv h
  have hlt := (adv msg t s' hs).1
  rw [(ht.take adv frugal (by omega)).loop_eq adv]
  exact loop_stop (frugal msg t s' m hs (by simpa [hd rfl] using hm)) hd

end Loop

end Drive

/-! ## Two scans in sequence -/

/-- Runs `first` until it finishes, prepares its result, then goes on with `second`. -/
def andThen (finished : σ → Bool) (first second : List β → σ → Verdict × σ) (prepare : σ → σ)
    (msg : List β) (s : σ) : Verdict × σ :=
  if finished s then second msg s
  else match first msg s with
    | (.done, s') => second msg (prepare s')
    | (.again, s') => (.again, s')
    | (.bad, s') => (.bad, s')

section AndThen

variable {finished : σ → Bool} {first second : List β → σ → Verdict × σ} {prepare : σ → σ}

theorem andThen_second {msg : List β} {s : σ} (h : finished s = true) :
    andThen finished first second prepare msg s = second msg s := by
  simp [andThen, h]

theorem andThen_done {msg : List β} {s s' : σ} (h : finished s = false)
    (hs : first msg s = (.done, s')) :
    andThen finished first second prepare msg s = second msg (prepare s') := by
  simp [andThen, h, hs]

theorem andThen_stop {msg : List β} {s s' : σ} {v : Verdict} (h : finished s = false)
    (hs : first msg s = (v, s')) (hv : v ≠ .done) :
    andThen finished first second prepare msg s = (v, s') := by
  cases v with
  | again | bad => simp [andThen, h, hs]
  | done => exact absurd rfl hv

theorem andThen_cases {msg : List β} {s u : σ} {v : Verdict} (h : finished s = false)
    (hu : andThen finished first second prepare msg s = (v, u)) :
    (∃ s', first msg s = (.done, s') ∧ second msg (prepare s') = (v, u)) ∨
      v ≠ .done ∧ first msg s = (v, u) := by
  rcases hs : first msg s with ⟨w, s'⟩
  by_cases hw : w = .done
  · subst hw
    rw [andThen_done h hs] at hu
    exact .inl ⟨s', rfl, hu⟩
  · rw [andThen_stop h hs hw] at hu
    cases hu
    exact .inr ⟨hw, rfl⟩

theorem andThen_inv {msg : List β} {s u : σ} (h : finished s = false)
    (hu : andThen finished first second prepare msg s = (.done, u)) :
    ∃ s', first msg s = (.done, s') ∧ second msg (prepare s') = (.done, u) :=
  (andThen_cases h hu).resolve_right fun hstop => hstop.1 rfl

theorem Resumable.andThen (h1 : Resumable first) (h2 : Resumable second)
    (wait : ∀ msg s s', finished s = false → first msg s = (.again, s') → finished s' = false)
    (keep : ∀ msg s s', finished s = true → second msg s = (.again, s') → finished s' = true)
    (enter : ∀ msg s s', first msg s = (.done, s') → finished (prepare s') = true) :
    Resumable (andThen finished first second prepare) where
  settle := by
    intro msg more s s' v h hv
    cases hf : finished s with
    | true =>
      rw [andThen_second hf] at h ⊢
      exact h2.settle more h hv
    | false =>
      obtain ⟨u, hs, h⟩ | ⟨hd, hs⟩ := andThen_cases hf h
      · rw [andThen_done hf (h1.settle more hs (by decide))]
        exact h2.settle more h hv
      · exact andThen_stop hf (h1.settle more hs hv) hd
  restart := by
    intro msg more s s' h
    cases hf : finished s with
    | true =>
      rw [andThen_second hf] at h
      rw [andThen_second hf, andThen_second (keep msg s s' hf h)]
      exact h2.restart more h
    | false =>
      obtain ⟨u, hs, h⟩ | ⟨-, hs⟩ := andThen_cases hf h
      · rw [andThen_done hf (h1.settle more hs (by decide)),
          andThen_second (keep msg _ s' (enter msg s u hs) h)]
        exact h2.restart more h
      · unfold Incremental.andThen
        simp only [hf, wait msg s s' hf hs, h1.restart more hs, Bool.false_eq_true, ↓reduceIte]

end AndThen

/-! ## Keeping a record -/

def recording {α : Type} (step : List β → σ → Verdict × σ) (note : List β → σ → List α)
    (msg : List β) (s : σ × List α) : Verdict × (σ × List α) :=
  match step msg s.1 with
  | (.done, s') => (.done, s', s.2 ++ note msg s.1)
  | (.again, s') => (.again, s', s.2)
  | (.bad, s') => (.bad, s', s.2)

def forget {α : Type} (r : Verdict × (σ × List α)) : Verdict × σ := (r.1, r.2.1)

section Recording

variable {α : Type} {step : List β → σ → Verdict × σ} {note : List β → σ → List α}
variable {halted : σ → Bool} {pos : σ → ℕ}

theorem recording_iff {msg : List β} {s s' : σ} {seen seen' : List α} {v : Verdict} :
    recording step note msg (s, seen) = (v, s', seen') ↔
      step msg s = (v, s') ∧ seen' = seen ++ if v = .done then note msg s else [] := by
  unfold recording
  rcases step msg s with ⟨_ | _ | _, u⟩ <;> cases v <;> simp [eq_comm]

theorem recording_done_iff {msg : List β} {s s' : σ} {seen seen' : List α} :
    recording step note msg (s, seen) = (.done, s', seen') ↔
      step msg s = (.done, s') ∧ seen' = seen ++ note msg s :=
  recording_iff

theorem recording_stop_iff {msg : List β} {s s' : σ} {seen seen' : List α} {v : Verdict}
    (hv : v ≠ .done) : recording step note msg (s, seen) = (v, s', seen') ↔
      step msg s = (v, s') ∧ seen' = seen := by
  rw [recording_iff, if_neg hv, append_nil]

theorem forget_recording (msg : List β) (s : σ × List α) :
    forget (recording step note msg s) = step msg s.1 := by
  unfold forget recording
  rcases step msg s.1 with ⟨_ | _ | _, u⟩ <;> rfl

theorem exists_of_forget {r : Verdict × (σ × List α)} {v : Verdict} {s : σ}
    (h : forget r = (v, s)) : ∃ seen, r = (v, s, seen) := by
  obtain ⟨v', s', seen⟩ := r
  cases h
  exact ⟨seen, rfl⟩

theorem Resumable.recording (res : Resumable step)
    (stable : ∀ msg more s s', step msg s = (.done, s') → note (msg ++ more) s = note msg s)
    (again : ∀ msg more s s', step msg s = (.again, s') →
      note (msg ++ more) s' = note (msg ++ more) s) :
    Resumable (recording step note) where
  settle := by
    rintro msg more ⟨s, seen⟩ ⟨s', seen'⟩ v h hv
    obtain ⟨hs, hseen⟩ := recording_iff.mp h
    refine recording_iff.mpr ⟨res.settle more hs hv, ?_⟩
    split_ifs at hseen ⊢ with hd
    · rw [stable msg more s s' (hd ▸ hs), hseen]
    · exact hseen
  restart := by
    rintro msg more ⟨s, seen⟩ ⟨s', seen'⟩ h
    obtain ⟨hs, rfl⟩ := (recording_stop_iff (by decide)).mp h
    unfold Incremental.recording
    simp only [res.restart more hs, again msg more s s' hs]

theorem Advances.recording (adv : Advances step pos) :
    Advances (recording step note) (fun s => pos s.1) := by
  rintro msg ⟨s, seen⟩ ⟨s', seen'⟩ h
  exact adv msg s s' (recording_iff.mp h).1

theorem forget_loop (adv : Advances step pos) (msg : List β) (s : σ × List α) :
    forget (loop (recording step note) (fun s => halted s.1) msg s) = loop step halted msg s.1 := by
  have adv' : Advances (recording step note) (fun s => pos s.1) := adv.recording
  refine loop_induct (motive := fun s r => forget r = loop step halted msg s.1) adv' ?_ ?_ s
  · rintro ⟨s, seen⟩ ⟨s', seen'⟩ v h hv
    exact (loop_stop (recording_iff.mp h).1 hv).symm
  · rintro ⟨s, seen⟩ ⟨s', seen'⟩ r h hh - ih
    rw [ih, loop_next adv (recording_iff.mp h).1 hh]

theorem forget_andThen {finished : σ → Bool} {first second : List β → σ → Verdict × σ}
    {prepare : σ → σ} {finished' : σ × List α → Bool}
    {first' second' : List β → σ × List α → Verdict × (σ × List α)}
    (hfin : ∀ s, finished' s = finished s.1)
    (h1 : ∀ msg s, forget (first' msg s) = first msg s.1)
    (h2 : ∀ msg s, forget (second' msg s) = second msg s.1) (msg : List β) (s : σ × List α) :
    forget (andThen finished' first' second' (Prod.map prepare id) msg s) =
      andThen finished first second prepare msg s.1 := by
  cases hf : finished s.1 with
  | true =>
    rw [andThen_second hf, andThen_second ((hfin s).trans hf), h2]
  | false =>
    have hf' := (hfin s).trans hf
    have hs := h1 msg s
    rcases hr : first' msg s with ⟨v, u⟩
    rw [hr] at hs
    by_cases hv : v = .done
    · subst hv
      rw [andThen_done hf' hr, andThen_done hf hs.symm, h2]
      rfl
    · rw [andThen_stop hf' hr hv, andThen_stop hf hs.symm hv]
      rfl

end Recording

/-! ## Bounded scans for a stop symbol -/

/-- Collects at most `limit` symbols up to one that satisfies `stop`; one that satisfies `reject` is
    an error. -/
def scanUntil (limit : ℕ) (stop reject : β → Bool) : List β → List β → Verdict × List β × List β
  | text, [] => (if text.length = limit then .bad else .again, text, [])
  | text, c :: rest =>
    if text.length = limit then (.bad, text, c :: rest)
    else if stop c then (.done, text, rest)
    else if reject c then (.bad, text, c :: rest)
    else scanUntil limit stop reject (text ++ [c]) rest

section ScanUntil

variable {limit : ℕ} {stop reject : β → Bool}

theorem scanUntil_append {text xs : List β} (ys : List β) {v : Verdict} {t rest : List β}
    (h : scanUntil limit stop reject text xs = (v, t, rest)) (hv : v ≠ .again) :
    scanUntil limit stop reject text (xs ++ ys) = (v, t, rest ++ ys) := by
  induction xs generalizing text with
  | nil =>
    by_cases hl : text.length = limit
    · obtain ⟨rfl, rfl, rfl⟩ : .bad = v ∧ text = t ∧ [] = rest := by simpa [scanUntil, hl] using h
      cases ys <;> simp [scanUntil, hl]
    · obtain ⟨rfl, -⟩ : .again = v ∧ _ := by simpa [scanUntil, hl] using h
      exact absurd rfl hv
  | cons c xs ih =>
    simp only [scanUntil, cons_append] at h ⊢
    split_ifs at h ⊢ with h1 h2 h3
    · cases h; rfl
    · cases h; rfl
    · cases h; rfl
    · exact ih h

theorem scanUntil_done_iff {text xs t rest : List β} (ht : text.length ≤ limit) :
    scanUntil limit stop reject text xs = (.done, t, rest) ↔
      ∃ mid c, t = text ++ mid ∧ xs = mid ++ c :: rest ∧ stop c = true ∧ t.length < limit ∧
        ∀ e ∈ mid, stop e = false ∧ reject e = false := by
  induction xs generalizing text with
  | nil =>
    simp only [scanUntil]
    constructor
    · intro h
      split at h <;> cases h
    · rintro ⟨mid, c, _, h, _⟩
      simp at h
  | cons b xs ih =>
    -- a nonempty `mid` starts with `b`, so each early exit excludes it
    by_cases hl : text.length = limit
    · simp only [scanUntil, hl, ↓reduceIte, Prod.mk.injEq, reduceCtorEq, false_and, false_iff]
      rintro ⟨mid, c, rfl, _, _, h, _⟩
      simp only [length_append] at h
      omega
    cases hs : stop b with
    | true =>
      simp only [scanUntil, hl, hs, ↓reduceIte, Prod.mk.injEq, true_and]
      constructor
      · rintro ⟨rfl, rfl⟩
        exact ⟨[], b, by simp, rfl, hs, by omega, by simp⟩
      · rintro ⟨_ | ⟨e, mid⟩, c, rfl, hx, _, _, hm⟩
        · simpa using (cons_eq_cons.mp hx).2
        · obtain ⟨rfl, _⟩ := cons_eq_cons.mp hx
          simp [hs] at hm
    | false =>
      cases hr : reject b with
      | true =>
        simp only [scanUntil, hl, hs, hr, Bool.false_eq_true, ↓reduceIte, Prod.mk.injEq,
          reduceCtorEq, false_and, false_iff]
        rintro ⟨_ | ⟨e, mid⟩, c, rfl, hx, hc, _, hm⟩
        · obtain ⟨rfl, _⟩ := cons_eq_cons.mp hx
          simp [hs] at hc
        · obtain ⟨rfl, _⟩ := cons_eq_cons.mp hx
          simp [hr] at hm
      | false =>
        simp only [scanUntil, hl, hs, hr, Bool.false_eq_true, ↓reduceIte]
        rw [ih (by simp; omega)]
        constructor
        · rintro ⟨mid, c, h1, rfl, h3, h4, hm⟩
          refine ⟨b :: mid, c, by simp [h1], rfl, h3, h4, ?_⟩
          intro e he
          rcases mem_cons.mp he with rfl | he
          · exact ⟨hs, hr⟩
          · exact hm e he
        · rintro ⟨_ | ⟨e, mid⟩, c, h1, hx, h3, h4, hm⟩
          · obtain ⟨rfl, _⟩ := cons_eq_cons.mp hx
            simp [hs] at h3
          · obtain ⟨rfl, rfl⟩ := cons_eq_cons.mp hx
            exact ⟨mid, c, by simp [h1], rfl, h3, h4, fun e he => hm e (by simp [he])⟩

theorem scanUntil_length {xs t rest : List β}
    (h : scanUntil limit stop reject [] xs = (.done, t, rest)) :
    xs.length = t.length + 1 + rest.length := by
  obtain ⟨mid, c, rfl, rfl, _⟩ := (scanUntil_done_iff (by simp)).mp h
  simp only [length_append, length_cons]
  omega

theorem scanUntil_take {xs t rest : List β} (k : ℕ)
    (h : scanUntil limit stop reject [] xs = (.done, t, rest)) :
    scanUntil limit stop reject [] (xs.take (t.length + 1 + k)) = (.done, t, rest.take k) := by
  rw [scanUntil_done_iff (by simp)] at h ⊢
  obtain ⟨mid, c, ht, rfl, h3, h4, h5⟩ := h
  refine ⟨mid, c, ht, ?_, h3, h4, h5⟩
  rw [ht, nil_append, Nat.add_assoc, take_length_add_append, Nat.add_comm 1 k,
    take_succ_cons]

end ScanUntil

end MyWorkflow.Incremental
