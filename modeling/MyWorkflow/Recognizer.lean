import Mathlib.Data.List.TakeWhile
import Mathlib.Tactic.Common

set_option autoImplicit false

/-!
# Readers of a grammar

A reader takes a text off the front of its input. `Recognizes` ties it to the texts of a grammar:
it takes nothing else, and it takes such a text whole wherever the text may end, unless it gives up
on it.
-/
namespace MyWorkflow.Recognizer
open List

variable {β ε α : Type}

abbrev Reader (β ε α : Type) := List β → Except ε (α × List β)

/-- `x`, or an error with which a reader may give up. -/
def Yields (up : ε → Prop) (r : Except ε α) (x : α) : Prop :=
  r = .ok x ∨ ∃ e, up e ∧ r = .error e

/-- `stop` says what may follow a text; a reader of digits, say, cannot tell where a number ends if
    more digits follow it. -/
structure Recognizes (read : Reader β ε α) (R : List β → α → Prop) (stop : List β → Prop)
    (up : ε → Prop) : Prop where
  sound : ∀ {s rest : List β} {a : α}, read s = .ok (a, rest) → ∃ t, s = t ++ rest ∧ R t a
  complete : ∀ {t r : List β} {a : α}, R t a → stop r → Yields up (read (t ++ r)) (a, r)

/-! ## As many symbols as there are -/

def Ends (p : β → Bool) (s : List β) : Prop := ∀ c, s.head? = some c → p c = false

theorem takeWhile_exact {p : β → Bool} {w rest : List β} (hw : ∀ c ∈ w, p c = true)
    (hrest : Ends p rest) : (w ++ rest).takeWhile p = w := by
  rw [takeWhile_append_of_pos hw]
  cases rest with
  | nil => simp
  | cons c rest => simp [hrest c rfl]

theorem dropWhile_exact {p : β → Bool} {w rest : List β} (hw : ∀ c ∈ w, p c = true)
    (hrest : Ends p rest) : (w ++ rest).dropWhile p = rest := by
  rw [dropWhile_append_of_pos hw]
  cases rest with
  | nil => simp
  | cons c rest => simp [hrest c rfl]

theorem dropWhile_split (p : β → Bool) (s : List β) :
    ∃ w, s = w ++ s.dropWhile p ∧ w = s.takeWhile p ∧ (∀ c ∈ w, p c = true) ∧
      Ends p (s.dropWhile p) := by
  refine ⟨s.takeWhile p, takeWhile_append_dropWhile.symm, rfl,
    fun _ hc => mem_takeWhile_imp hc, ?_⟩
  intro c hc
  have hne : s.dropWhile p ≠ [] := by
    intro h
    rw [h] at hc
    cases hc
  have hhead := head_dropWhile_not p hne
  rw [List.head?_eq_some_head hne] at hc
  cases hc
  exact hhead

theorem dropWhile_skip {p : β → Bool} {w : List β} {c : β} {rest : List β}
    (hw : ∀ c ∈ w, p c = true) (hc : p c = false) :
    (w ++ c :: rest).dropWhile p = c :: rest := by
  apply dropWhile_exact hw
  intro d hd
  cases hd
  exact hc

/-! ## Items between separators -/

inductive SepBy (R : List β → α → Prop) (space : β → Bool) (sep : β) : List β → List α → Prop where
  | one {t w : List β} {a : α} (item : R t a) (behind : ∀ c ∈ w, space c = true) :
      SepBy R space sep (t ++ w) [a]
  | more {t w w' u : List β} {a : α} {as : List α} (item : R t a)
      (behind : ∀ c ∈ w, space c = true) (before : ∀ c ∈ w', space c = true)
      (tail : SepBy R space sep u as) : SepBy R space sep (t ++ w ++ sep :: w' ++ u) (a :: as)

/-- Reads items up to `close`, counting them. Items are not empty, so `fuel` may be any number
    above the length of the input. -/
def separated (read : Reader β ε α) (space : β → Bool) [DecidableEq β] (sep close : β)
    (bad full : ε) (limit : ℕ) : ℕ → ℕ → Reader β ε (ℕ × List α)
  | 0, _, _ => .error bad
  | fuel + 1, count, s =>
    match read s with
    | .error e => .error e
    | .ok (a, s) =>
      if count = limit then .error full
      else
        match s.dropWhile space with
        | [] => .error bad
        | c :: s =>
          if c = sep then
            match separated read space sep close bad full limit fuel (count + 1)
                (s.dropWhile space) with
            | .error e => .error e
            | .ok ((n, as), s) => .ok ((n, a :: as), s)
          else if c = close then .ok ((count + 1, [a]), s)
          else .error bad

section SepBy

variable {R : List β → α → Prop} {space : β → Bool} {sep : β}

theorem SepBy.forall {P : α → Prop} {t : List β} {as : List α} (hs : SepBy R space sep t as)
    (h : ∀ u a, R u a → P a) : ∀ a ∈ as, P a := by
  induction hs with
  | one item _ => exact forall_mem_singleton.mpr (h _ _ item)
  | more item _ _ _ ih => exact forall_mem_cons.mpr ⟨h _ _ item, ih⟩

theorem SepBy.first {t : List β} {as : List α} (hs : SepBy R space sep t as) :
    ∃ u a t', t = u ++ t' ∧ R u a := by
  cases hs with
  | one item _ => exact ⟨_, _, _, rfl, item⟩
  | @more t w w' u a as item _ _ _ =>
    exact ⟨t, a, w ++ (sep :: w' ++ u), by simp only [append_assoc], item⟩

variable [DecidableEq β] {read : Reader β ε α} {close : β} {bad full : ε} {limit : ℕ}
variable {stop : List β → Prop} {up : ε → Prop}

theorem separated_sound (h : Recognizes read R stop up) (fuel count : ℕ) :
    ∀ (s rest : List β) (n : ℕ) (as : List α),
      separated read space sep close bad full limit fuel count s = .ok ((n, as), rest) →
      count ≤ limit →
      ∃ t, s = t ++ close :: rest ∧ SepBy R space sep t as ∧ n = count + as.length ∧ n ≤ limit := by
  induction fuel generalizing count with
  | zero =>
    intro s rest n as hs
    cases hs
  | succ fuel ih =>
    intro s rest n as hs hcount
    rw [separated] at hs
    cases hread : read s with
    | error e => simp [hread] at hs
    | ok r =>
      obtain ⟨a, s₁⟩ := r
      obtain ⟨t, rfl, ht⟩ := h.sound hread
      simp only [hread] at hs
      split at hs
      · cases hs
      next hfull =>
      obtain ⟨w, hsplit, -, hw, -⟩ := dropWhile_split space s₁
      cases hdrop : s₁.dropWhile space with
      | nil => simp [hdrop] at hs
      | cons c s₂ =>
        rw [hdrop] at hsplit
        simp only [hdrop] at hs
        split at hs
        · next hc =>
          obtain ⟨w', hsplit', -, hw', -⟩ := dropWhile_split space s₂
          split at hs
          · cases hs
          · next m as' s₃ htail =>
            cases hs
            obtain ⟨u, hu, hsep, hn, hle⟩ := ih (count + 1) _ _ _ _ htail (by omega)
            refine ⟨t ++ w ++ sep :: w' ++ u, ?_, .more ht hw hw' hsep, ?_, hle⟩
            · rw [hsplit, hsplit', hu, hc]
              simp
            · rw [hn, length_cons]
              omega
        · split at hs
          · next hc =>
            cases hs
            refine ⟨t ++ w, ?_, .one ht hw, rfl, by omega⟩
            rw [hsplit, hc]
            simp
          · cases hs

variable (bad full limit) in
theorem separated_complete (h : Recognizes read R stop up)
    (hstop : ∀ c rest, space c = true ∨ c = sep ∨ c = close → stop (c :: rest))
    (hhead : ∀ t a, R t a → ∃ c t', t = c :: t' ∧ space c = false)
    (hsep : space sep = false) (hclose : space close = false) (hne : sep ≠ close)
    {t : List β} {as : List α} (ht : SepBy R space sep t as) (rest : List β) :
    ∀ fuel count, t.length < fuel → count + as.length ≤ limit ∨ up full →
      Yields up (separated read space sep close bad full limit fuel count (t ++ close :: rest))
        ((count + as.length, as), rest) := by
  have hfollow : ∀ (w : List β) (c : β) (u : List β), (∀ c ∈ w, space c = true) →
      c = sep ∨ c = close → stop (w ++ c :: u) := by
    intro w c u hw hc
    cases w with
    | nil => exact hstop c u (.inr hc)
    | cons d w => exact hstop d _ (.inl (hw d mem_cons_self))
  have hfull : ∀ count n, count + (n + 1) ≤ limit ∨ up full → count = limit → up full := by
    rintro count n (h | h) hc
    · omega
    · exact h
  induction ht with
  | @one t w a item behind =>
    intro fuel count hfuel hlimit
    obtain _ | fuel := fuel
    · cases hfuel
    rw [append_assoc, separated]
    obtain hread | ⟨e, he, hread⟩ := h.complete item (hfollow w close rest behind (.inr rfl))
    · rw [hread]
      by_cases hcount : count = limit
      · exact .inr ⟨full, hfull count 0 hlimit hcount, if_pos hcount⟩
      · refine .inl ?_
        simp only [hcount, ↓reduceIte, dropWhile_skip behind hclose, hne.symm, length_cons,
          length_nil, Nat.zero_add]
    · rw [hread]
      exact .inr ⟨e, he, rfl⟩
  | @more t w w' u a as item behind before tail ih =>
    intro fuel count hfuel hlimit
    obtain _ | fuel := fuel
    · cases hfuel
    have hskip : (w' ++ (u ++ close :: rest)).dropWhile space = u ++ close :: rest := by
      obtain ⟨x, b, u', rfl, hx⟩ := tail.first
      obtain ⟨c, x', rfl, hc⟩ := hhead x b hx
      exact dropWhile_skip before hc
    have htail := ih fuel (count + 1) (by
      simp only [length_append, length_cons] at hfuel
      omega) (hlimit.imp_left fun hle => by
      rw [length_cons] at hle
      omega)
    simp only [append_assoc, cons_append, separated]
    obtain hread | ⟨e, he, hread⟩ := h.complete item
      (hfollow w sep (w' ++ (u ++ close :: rest)) behind (.inl rfl))
    · rw [hread]
      by_cases hcount : count = limit
      · exact .inr ⟨full, hfull count as.length hlimit hcount, if_pos hcount⟩
      · simp only [hcount, ↓reduceIte, dropWhile_skip behind hsep, hskip]
        obtain htail | ⟨e, he, htail⟩ := htail
        · refine .inl ?_
          simp only [htail, length_cons]
          congr 3
          omega
        · exact .inr ⟨e, he, by rw [htail]⟩
    · rw [hread]
      exact .inr ⟨e, he, rfl⟩

/-- Running out of numbers takes at least as many symbols. -/
theorem separated_full (hitem : ∀ s, read s = .error full → limit < s.length)
    (hmove : ∀ s a rest, read s = .ok (a, rest) → rest.length < s.length) (hne : bad ≠ full)
    (fuel count : ℕ) : ∀ s, separated read space sep close bad full limit fuel count s = .error full →
      limit < count + s.length := by
  have hdrop : ∀ s : List β, (s.dropWhile space).length ≤ s.length := fun s =>
    (dropWhile_suffix space).length_le
  induction fuel generalizing count with
  | zero =>
    intro s hs
    cases hs
    exact absurd rfl hne
  | succ fuel ih =>
    intro s hs
    rw [separated] at hs
    cases hread : read s with
    | error e =>
      rw [hread] at hs
      cases hs
      have := hitem s hread
      omega
    | ok r =>
      obtain ⟨a, s₁⟩ := r
      have hlt := hmove s a s₁ hread
      have hle := hdrop s₁
      simp only [hread] at hs
      split at hs
      · omega
      cases hnext : s₁.dropWhile space with
      | nil =>
        rw [hnext] at hs
        cases hs
        exact absurd rfl hne
      | cons c s₂ =>
        rw [hnext, length_cons] at hle
        simp only [hnext] at hs
        split at hs
        · split at hs
          · next e htail =>
            cases hs
            have := ih (count + 1) _ htail
            have := hdrop s₂
            omega
          · cases hs
        · split at hs
          · cases hs
          · cases hs
            exact absurd rfl hne

end SepBy

end MyWorkflow.Recognizer
