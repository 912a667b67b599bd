import MyWorkflow.LruCacheRuns

set_option autoImplicit false

/-!
# What an LRU cache evicts

A clock and the times of the releases stand beside the cache.
-/
namespace MyWorkflow.Lru
open List RedBlack SearchTree Runs

variable {κ ν : Type}

structure Clocked (κ ν : Type) where
  state : State κ ν
  now : ℕ
  released : HandleId → Option ℕ

namespace Clocked

def init (κ ν : Type) : Clocked κ ν := ⟨.init κ ν, 0, fun _ => none⟩

def tick (s : Clocked κ ν) (s' : State κ ν) : Clocked κ ν where
  state := s'
  now := s.now + 1
  released e := if s.state.cache.dropped s'.cache e then some s.now else s.released e

def Earlier (s : Clocked κ ν) (a b : HandleId) : Prop :=
  ∃ t u, s.released a = some t ∧ s.released b = some u ∧ t < u

structure LeastRecentFirst (s : Clocked κ ν) : Prop where
  past : ∀ e ∈ s.state.cache.notUse, ∃ t < s.now, s.released e = some t
  ordered : s.state.cache.notUse.Pairwise s.Earlier

theorem LeastRecentFirst.init : (init κ ν).LeastRecentFirst :=
  ⟨fun _ he => absurd he not_mem_nil, .nil⟩

/-- A handle of `not_use` has one reference, so no release leaves it with one. -/
theorem tick_released {s : Clocked κ ν} (C : Core s.state.cache s.state.held) (s' : State κ ν)
    {e : HandleId} (he : e ∈ s.state.cache.notUse) : (s.tick s').released e = s.released e := by
  obtain ⟨h, hh, -, hone⟩ := C.mem_notUse he
  simp [tick, Cache.dropped, hh, hone]

theorem LeastRecentFirst.keep {s : Clocked κ ν} (L : s.LeastRecentFirst)
    (C : Core s.state.cache s.state.held) (s' : State κ ν) :
    (∀ e ∈ s.state.cache.notUse, ∃ t < s.now, (s.tick s').released e = some t) ∧
      s.state.cache.notUse.Pairwise (s.tick s').Earlier := by
  constructor
  · intro e he
    rw [tick_released C s' he]
    exact L.past e he
  · refine L.ordered.imp_of_mem ?_
    rintro a b ha hb ⟨t, u, hta, hub, hlt⟩
    exact ⟨t, u, (tick_released C s' ha).trans hta, (tick_released C s' hb).trans hub, hlt⟩

theorem LeastRecentFirst.sublist {s : Clocked κ ν} (L : s.LeastRecentFirst)
    (C : Core s.state.cache s.state.held) {s' : State κ ν}
    (hsub : s'.cache.notUse.Sublist s.state.cache.notUse) : (s.tick s').LeastRecentFirst := by
  obtain ⟨hpast, hordered⟩ := L.keep C s'
  refine ⟨?_, hordered.sublist hsub⟩
  intro e he
  obtain ⟨t, ht, hrel⟩ := hpast e (hsub.subset he)
  exact ⟨t, Nat.lt_succ_of_lt ht, hrel⟩

theorem LeastRecentFirst.append {s : Clocked κ ν} (L : s.LeastRecentFirst)
    (C : Core s.state.cache s.state.held) {s' : State κ ν} {e : HandleId}
    (hnotUse : s'.cache.notUse = s.state.cache.notUse ++ [e])
    (hdropped : s.state.cache.dropped s'.cache e = true) : (s.tick s').LeastRecentFirst := by
  obtain ⟨hpast, hordered⟩ := L.keep C s'
  have hnew : (s.tick s').released e = some s.now := if_pos hdropped
  constructor
  · intro d hd
    change d ∈ s'.cache.notUse at hd
    rw [hnotUse, mem_append, mem_singleton] at hd
    rcases hd with hold | rfl
    · obtain ⟨t, ht, hrel⟩ := hpast d hold
      exact ⟨t, Nat.lt_succ_of_lt ht, hrel⟩
    · exact ⟨s.now, Nat.lt_succ_self _, hnew⟩
  · change s'.cache.notUse.Pairwise _
    rw [hnotUse, pairwise_append]
    refine ⟨hordered, pairwise_singleton _ _, ?_⟩
    intro a ha b hb
    rw [mem_singleton.mp hb]
    obtain ⟨t, ht, hrel⟩ := hpast a ha
    exact ⟨t, s.now, hrel, hnew, ht⟩

end Clocked

section Map

variable [LinearOrder κ] (past : Option ℤ)

def clockedStep (s : Clocked κ ν) (a : Action κ ν) : Option (Clocked κ ν) :=
  (step past s.state a).map s.tick

theorem exists_clocked {s : State κ ν} (hs : Reaches (step past) Allowed (.init κ ν) s) :
    ∃ t : Clocked κ ν, t.state = s ∧
      Reaches (clockedStep past) (fun s => Allowed s.state) (.init κ ν) t := by
  induction hs with
  | start => exact ⟨.init κ ν, rfl, .start⟩
  | next _ ha hstep ih =>
    obtain ⟨t, rfl, ht⟩ := ih
    refine ⟨t.tick _, rfl, ht.next ha ?_⟩
    rw [clockedStep, hstep]
    rfl

theorem clocked_inv {s : Clocked κ ν}
    (hs : Reaches (clockedStep past) (fun s => Allowed s.state) (.init κ ν) s) :
    Inv s.state.cache s.state.held ∧ s.LeastRecentFirst := by
  refine hs.invariant
    (P := fun s => Inv s.state.cache s.state.held ∧ s.LeastRecentFirst)
    ⟨Inv.init, .init⟩ ?_
  rintro s a s' ⟨I, L⟩ ha hstep
  obtain ⟨t, ht, I', hmoved⟩ := step_spec past I ha
  rw [clockedStep, ht] at hstep
  cases hstep
  refine ⟨I', ?_⟩
  rcases hmoved with hsub | ⟨e, -, hnotUse, hdropped⟩
  · exact L.sublist I.core hsub
  · exact L.append I.core hnotUse hdropped

/-- What `put` does to the handles in the cache: the first `m` that it may take are gone. -/
structure EvictsFirst (s : State κ ν) (c' : Cache κ ν) (k : κ) (m : ℕ) : Prop where
  least : IsLeast {n | s.cache.grown k - n ≤ s.cache.maxSize ∨ (s.cache.unused k).length ≤ n} m
  gone : ∀ e, (s.cache.entry e ≠ none ∧ s.cache.find k ≠ some e ∧ c'.entry e = none) ↔
    e ∈ (s.cache.unused k).take m
  notUse : c'.notUse = (s.cache.unused k).drop m
  size : c'.size = s.cache.grown k - m
  spared : ∀ e ∈ (s.cache.unused k).take m, e ∉ s.held ∧ e ≠ s.cache.next
  find : ∀ k', c'.find k' = if k' = k then some s.cache.next else
    (s.cache.find k').filter fun e => e ∉ (s.cache.unused k).take m

theorem mem_unused {c : Cache κ ν} {k : κ} {e : HandleId} :
    e ∈ c.unused k ↔ e ∈ c.notUse ∧ c.find k ≠ some e := by
  simp [Cache.unused]

theorem Inv.idle {c : Cache κ ν} {held : List HandleId} (I : Inv c held) {e : HandleId}
    (he : e ∈ c.notUse) : c.entry e ≠ none ∧ e ∉ held ∧ e ≠ c.next := by
  obtain ⟨h, hh, hin, hone⟩ := I.core.mem_notUse he
  obtain ⟨hborn, -, href, -⟩ := I.core.sound_of hh
  refine ⟨?_, ?_, Nat.ne_of_lt hborn⟩
  · simp [Cache.entry, hh, hin]
  · rw [hin, if_pos rfl, hone] at href
    exact count_eq_zero.mp (by omega)

theorem Installs.entry_iff {c c₁ : Cache κ ν} {held : List HandleId} {k : κ} {v : ν}
    (I : Inv c held) (h : Installs c c₁ k v) {k' : κ} {v' : ν} {e : HandleId} :
    c₁.entry e = some (k', v') ↔
      if k' = k then e = c.next ∧ v' = v else c.entry e = some (k', v') := by
  have hnew := h.new
  constructor
  · intro he
    by_cases hnext : e = c.next
    · rw [hnext, hnew] at he
      cases he
      rw [if_pos rfl]
      exact ⟨hnext, rfl⟩
    · have hfind : c.find k ≠ some e := by
        intro hold
        rw [h.old e hold hnext] at he
        cases he
      rw [h.other e hfind hnext] at he
      have hk : k' ≠ k := by
        rintro rfl
        exact hfind (I.mapped.find.mpr ⟨v', he⟩)
      rwa [if_neg hk]
  · split_ifs with hk
    · rintro ⟨rfl, rfl⟩
      rw [hk]
      exact hnew
    · intro he
      refine h.keeps he ?_
      intro hold
      obtain ⟨w, hw⟩ := I.mapped.find.mp hold
      rw [he] at hw
      cases hw
      exact hk rfl

theorem Installs.evicts {s : State κ ν} {c₁ c' : Cache κ ν} {held' : List HandleId} {k : κ} {v : ν}
    {m : ℕ} (I : Inv s.cache s.held) (I' : Inv c' held') (h : Installs s.cache c₁ k v)
    (E : Evicts c₁ c' m) : EvictsFirst s c' k m := by
  obtain ⟨hleast, hnotUse, hsize, hentry⟩ := E
  rw [h.size, h.maxSize, h.notUse] at hleast
  rw [h.notUse] at hnotUse hentry
  have htaken : ∀ e ∈ (s.cache.unused k).take m, s.cache.find k ≠ some e ∧
      s.cache.entry e ≠ none ∧ e ∉ s.held ∧ e ≠ s.cache.next := by
    intro e he
    obtain ⟨hmem, hfind⟩ := mem_unused.mp (mem_of_mem_take he)
    exact ⟨hfind, I.idle hmem⟩
  refine ⟨hleast, ?_, hnotUse, hsize.trans (by rw [h.size]), fun e he => (htaken e he).2.2, ?_⟩
  · intro e
    constructor
    · rintro ⟨hin, hfind, hgone⟩
      by_contra hkept
      rw [hentry, if_neg hkept] at hgone
      obtain ⟨p, hp⟩ := Option.ne_none_iff_exists'.mp hin
      rw [h.keeps hp hfind] at hgone
      cases hgone
    · intro he
      refine ⟨(htaken e he).2.1, (htaken e he).1, ?_⟩
      rw [hentry, if_pos he]
  · intro k'
    have hfound : ∀ e, c'.find k' = some e ↔ e ∉ (s.cache.unused k).take m ∧
        ∃ v', c₁.entry e = some (k', v') := by
      intro e
      rw [I'.mapped.find, hentry]
      split_ifs with he <;> simp [he]
    apply Option.ext
    intro e
    rw [hfound]
    simp only [h.entry_iff I]
    split_ifs with hk
    · constructor
      · rintro ⟨-, v', rfl, -⟩
        rfl
      · intro he
        cases he
        exact ⟨fun he => (htaken _ he).2.2.2 rfl, v, rfl, rfl⟩
    · rw [Option.filter_eq_some_iff, I.mapped.find, decide_eq_true_eq]
      exact and_comm

/-- `not_use` is in the order of the releases, and `put` evicts the first handles of it, as few as
    bring `size` down to `max_size` if that is possible. -/
theorem put_evicts_least_recent {s : Clocked κ ν}
    (hs : Reaches (clockedStep past) (fun s => Allowed s.state) (.init κ ν) s)
    (hmax : 0 < s.state.cache.maxSize) (k : κ) (v : ν) :
    s.LeastRecentFirst ∧ ∃ s' m, clockedStep past s (.put k v) = some s' ∧
      EvictsFirst s.state s'.state.cache k m := by
  obtain ⟨I, L⟩ := clocked_inv past hs
  obtain ⟨c₁, c', hrun, I', h, -, hevicts⟩ := I.put k v
  obtain ⟨m, E⟩ := hevicts hmax
  refine ⟨L, s.tick ⟨c', s.state.cache.next :: s.state.held⟩, m, ?_, h.evicts I I' E⟩
  rw [clockedStep, step, hrun]
  rfl

end Map

def evictionRun : List (Action ℕ Bool) :=
  [.setMaxSize 2, .put 5 true, .put 6 true, .put 7 true, .release 1, .release 0]

theorem evictionRun_evicts :
    ∃ s s', guardedRun (clockedStep none) (fun s => Allowed s.state) (.init ℕ Bool)
        evictionRun = some s ∧ s.state.cache.notUse = [1, 0] ∧
      clockedStep none s (.put 8 false) = some s' ∧
      EvictsFirst s.state s'.state.cache 8 2 := by
  obtain ⟨s, hrun, hend⟩ := (Option.any_eq_true _ _).mp (by decide +kernel :
    (guardedRun (clockedStep none) (fun s => Allowed s.state) (.init ℕ Bool) evictionRun).any
      (fun s => s.state.cache.maxSize = 2 ∧ s.state.cache.notUse = [1, 0] ∧
        s.state.cache.unused 8 = [1, 0] ∧ s.state.cache.grown 8 = 4) = true)
  obtain ⟨hmax, hnotUse, hunused, hgrown⟩ := of_decide_eq_true hend
  obtain ⟨-, s', m, hs', E⟩ := put_evicts_least_recent none
    (reaches_of_guardedRun evictionRun .start hrun) (by rw [hmax]; decide) 8 false
  have hm : m = 2 := by
    obtain ⟨hmem, hleast⟩ := E.least
    rw [hgrown, hmax, hunused] at hmem hleast
    have hle : m ≤ 2 := hleast (.inl (by decide))
    rw [Set.mem_ofPred_eq, length_cons, length_singleton] at hmem
    omega
  rw [hm] at E
  exact ⟨s, s', hrun, hnotUse, hs', E⟩

theorem heldTimes_release (past : Option ℤ) (n : ℕ) :
    ∃ s, step past (heldTimes 1 2 (n + 1)) (.release 0) = some s ∧ s.held = List.replicate n 0 ∧
      s.cache = { (heldTimes 1 1 0).cache with notUse := [0], inUse := [] } := by
  refine ⟨_, rfl, erase_replicate_self, ?_⟩
  simp [heldTimes, Cache.setHandle]

/-- On a machine that wraps, 2³² handles of an entry count as none: the first release leaves the
    entry in `not_use`, and the next `put` deletes it. -/
theorem held_handle_evicted : ∃ s s', Reaches (step (some INT_MIN)) Released (.init ℕ Bool) s ∧
    s.cache.maxSize = 1 ∧ s.held = List.replicate (2 ^ 32) 0 ∧
    step (some INT_MIN) s (.put 6 false) = some s' ∧ s'.cache.deleted = [0] := by
  have hput : Reaches (step (some INT_MIN)) Released (.init ℕ Bool) (heldTimes 1 2 1) :=
    (Reaches.start.next (a := .setMaxSize 1) trivial rfl).next (a := .put 5 true) trivial rfl
  have hfull := heldTimes_reaches hput (k := 2 ^ 31 - 3) (by decide)
  have hwrapped : Reaches (step (some INT_MIN)) Released (.init ℕ Bool)
      (heldTimes 1 INT_MIN (1 + (2 ^ 31 - 3) + 1)) := by
    refine hfull.next (a := .get 5) trivial ?_
    rw [heldTimes_get, increment, if_neg (by decide), Option.map_some]
  have htwo := heldTimes_reaches hwrapped (k := 2 ^ 31 + 2) (by decide)
  have href : INT_MIN + ((2 ^ 31 + 2 : ℕ) : ℤ) = 2 := by decide
  have hcount : 1 + (2 ^ 31 - 3) + 1 + (2 ^ 31 + 2) = 2 ^ 32 + 1 := by decide
  rw [href, hcount] at htwo
  obtain ⟨s, hrelease, hheld, hcache⟩ := heldTimes_release (some INT_MIN) (2 ^ 32)
  obtain ⟨r, hr, hdeleted⟩ := (Option.any_eq_true _ _).mp (by decide +kernel :
    ((Cache.put 6 false { (heldTimes 1 1 0).cache with notUse := [0], inUse := [] }).any
      fun r => r.1.deleted = [0]) = true)
  refine ⟨s, ⟨r.1, r.2 :: s.held⟩, htwo.next (a := .release 0) ?_ hrelease, ?_, hheld, ?_,
    of_decide_eq_true hdeleted⟩
  · exact mem_replicate.mpr ⟨by decide, rfl⟩
  · rw [hcache]
    rfl
  · rw [step, hcache, hr, Option.map_some]

end MyWorkflow.Lru
