import Mathlib.Data.List.Induction
import Mathlib.Data.List.Nodup
import Mathlib.Logic.Function.Basic
import Mathlib.Tactic.Common

set_option autoImplicit false

/-!
# Rings of links

Doubly linked lists that close at a head, with the links inside the elements: `list_head`. The
head is `none`. `Holds` says which list a ring is, and each operation on the links is an operation
on that list.
-/
namespace MyWorkflow.Rings
open Function List

structure Ring (ι : Type) where
  next : Option ι → Option ι
  prev : Option ι → Option ι

namespace Ring

variable {ι : Type}

def init : Ring ι := ⟨fun _ => none, fun _ => none⟩

def Linked (r : Ring ι) : Option ι → List ι → Prop
  | u, [] => r.next u = none ∧ r.prev none = u
  | u, x :: l => r.next u = some x ∧ r.prev (some x) = u ∧ Linked r (some x) l

structure Holds (r : Ring ι) (l : List ι) : Prop where
  nodup : l.Nodup
  linked : Linked r none l

theorem holds_init : Holds (init : Ring ι) [] := ⟨nodup_nil, rfl, rfl⟩

def lastOr (u : Option ι) (a : List ι) : Option ι := a.getLast?.or u

@[simp] theorem lastOr_nil (u : Option ι) : lastOr u [] = u := rfl

@[simp] theorem lastOr_cons (u : Option ι) (x : ι) (a : List ι) :
    lastOr u (x :: a) = lastOr (some x) a := by
  rw [lastOr, lastOr, List.getLast?_cons]
  cases a.getLast? <;> rfl

@[simp] theorem lastOr_none (a : List ι) : lastOr none a = a.getLast? := Option.or_none

theorem lastOr_cases (u : Option ι) (a : List ι) :
    lastOr u a = u ∨ ∃ x ∈ a, lastOr u a = some x := by
  induction a generalizing u with
  | nil => exact .inl rfl
  | cons x a ih =>
    rw [lastOr_cons]
    obtain h | ⟨y, hy, h⟩ := ih (some x)
    · exact .inr ⟨x, mem_cons_self, h⟩
    · exact .inr ⟨y, mem_cons_of_mem _ hy, h⟩

variable {r r' : Ring ι} {u : Option ι} {a b l : List ι} {x : ι}

theorem Linked.next_eq (h : Linked r u (a ++ b)) : r.next (lastOr u a) = b.head? := by
  induction a generalizing u with
  | nil =>
    cases b with
    | nil | cons => exact h.1
  | cons x a ih =>
    rw [lastOr_cons]
    exact ih h.2.2

theorem Linked.prev_eq (h : Linked r u (a ++ b)) : r.prev b.head? = lastOr u a := by
  induction a generalizing u with
  | nil =>
    cases b with
    | nil => exact h.2
    | cons x b => exact h.2.1
  | cons x a ih =>
    rw [lastOr_cons]
    exact ih h.2.2

theorem Linked.frame (h : Linked r u l)
    (hnext : ∀ v, v = u ∨ (∃ x ∈ l, v = some x) → r'.next v = r.next v)
    (hprev : ∀ v, v = none ∨ (∃ x ∈ l, v = some x) → r'.prev v = r.prev v) : Linked r' u l := by
  induction l generalizing u with
  | nil => exact ⟨(hnext u (.inl rfl)).trans h.1, (hprev none (.inl rfl)).trans h.2⟩
  | cons x l ih =>
    refine ⟨(hnext u (.inl rfl)).trans h.1,
      (hprev _ (.inr ⟨x, mem_cons_self, rfl⟩)).trans h.2.1, ih h.2.2 ?_ ?_⟩
    · rintro v (rfl | ⟨y, hy, rfl⟩)
      · exact hnext _ (.inr ⟨x, mem_cons_self, rfl⟩)
      · exact hnext _ (.inr ⟨y, mem_cons_of_mem _ hy, rfl⟩)
    · rintro v (rfl | ⟨y, hy, rfl⟩)
      · exact hprev _ (.inl rfl)
      · exact hprev _ (.inr ⟨y, mem_cons_of_mem _ hy, rfl⟩)

/-! ## Going round -/

def forward (r : Ring ι) : ℕ → Option ι → List ι
  | 0, _ => []
  | n + 1, pos =>
    match r.next pos with
    | none => []
    | some x => x :: forward r n (some x)

def backward (r : Ring ι) : ℕ → Option ι → List ι
  | 0, _ => []
  | n + 1, pos =>
    match r.prev pos with
    | none => []
    | some x => x :: backward r n (some x)

theorem Linked.forward_eq (h : Linked r u l) {n : ℕ} (hn : l.length ≤ n) : r.forward n u = l := by
  induction l generalizing u n with
  | nil =>
    cases n with
    | zero => rfl
    | succ n => rw [forward, h.1]
  | cons x l ih =>
    obtain ⟨n, rfl⟩ : ∃ k, n = k + 1 := ⟨n - 1, by rw [length_cons] at hn; omega⟩
    rw [forward, h.1]
    exact congrArg (x :: ·) (ih h.2.2 (by simpa using hn))

theorem Linked.backward_eq (h : Linked r none (a ++ b)) {n : ℕ} (hn : a.length ≤ n) :
    r.backward n b.head? = a.reverse := by
  induction a using List.reverseRecOn generalizing b n with
  | nil =>
    have hprev := h.prev_eq
    cases n with
    | zero => rfl
    | succ n => rw [backward, hprev]; rfl
  | append_singleton a x ih =>
    have hprev := h.prev_eq
    rw [lastOr_none, List.getLast?_concat] at hprev
    rw [length_append, length_singleton] at hn
    obtain ⟨n, rfl⟩ : ∃ k, n = k + 1 := ⟨n - 1, by omega⟩
    rw [append_assoc, singleton_append] at h
    rw [backward, hprev, reverse_concat]
    exact congrArg (x :: ·) (ih h (by omega))

theorem Holds.forward_eq (h : Holds r l) {n : ℕ} (hn : l.length ≤ n) : r.forward n none = l :=
  h.linked.forward_eq hn

theorem Holds.backward_eq (h : Holds r l) {n : ℕ} (hn : l.length ≤ n) :
    r.backward n none = l.reverse := by
  have hlinked := h.linked
  rw [← append_nil l] at hlinked
  exact hlinked.backward_eq hn

variable [DecidableEq ι]

def insert (entry : ι) (before after : Option ι) (r : Ring ι) : Ring ι where
  prev := update (update r.prev after (some entry)) (some entry) before
  next := update (update r.next (some entry) after) before (some entry)

def add (entry : ι) (pos : Option ι) (r : Ring ι) : Ring ι := r.insert entry pos (r.next pos)

def del (entry : ι) (r : Ring ι) : Ring ι where
  prev := update r.prev (r.next (some entry)) (r.prev (some entry))
  next := update r.next (r.prev (some entry)) (r.next (some entry))

def splice (list : Ring ι) : Ring ι :=
  if list.next none = none then init
  else
    { prev := update (update list.prev (list.next none) none) none (list.prev none)
      next := update (update list.next none (list.next none)) (list.prev none) none }

theorem insert_next {before after v : Option ι} (h : v ≠ some x) :
    (r.insert x before after).next v = if v = before then some x else r.next v := by
  by_cases hv : v = before
  · rw [hv, if_pos rfl]
    exact update_self _ _ _
  · rw [if_neg hv]
    exact (update_of_ne hv _ _).trans (update_of_ne h _ _)

theorem insert_prev {before after v : Option ι} (h : v ≠ some x) :
    (r.insert x before after).prev v = if v = after then some x else r.prev v := by
  by_cases hv : v = after
  · rw [hv, if_pos rfl]
    exact (update_of_ne (hv ▸ h) _ _).trans (update_self _ _ _)
  · rw [if_neg hv]
    exact (update_of_ne h _ _).trans (update_of_ne hv _ _)

theorem insert_self (r : Ring ι) {before : Option ι} (after : Option ι) (h : before ≠ some x) :
    (r.insert x before after).next (some x) = after ∧
    (r.insert x before after).prev (some x) = before :=
  ⟨(update_of_ne (Ne.symm h) _ _).trans (update_self _ _ _),
    update_self _ _ _⟩

theorem Linked.insert (h : Linked r u (a ++ b)) (hn : (a ++ b).Nodup)
    (hu : ∀ y ∈ a ++ b, u ≠ some y) (hux : u ≠ some x) (hx : x ∉ a ++ b) :
    Linked (r.insert x (lastOr u a) b.head?) u (a ++ x :: b) := by
  induction a generalizing u with
  | nil =>
    rw [lastOr_nil]
    have hself := insert_self r b.head? hux
    refine ⟨by rw [insert_next hux, if_pos rfl], hself.2, ?_⟩
    rw [nil_append] at h hn hu hx
    cases b with
    | nil => exact ⟨hself.1, by rw [insert_prev (by simp)]; rfl⟩
    | cons y b =>
      have hyx : y ≠ x := by
        rintro rfl
        exact hx mem_cons_self
      refine ⟨hself.1, by rw [insert_prev (by simpa using hyx)]; exact if_pos rfl, ?_⟩
      refine h.2.2.frame ?_ ?_
      · intro v hv
        have hmem : ∃ z ∈ y :: b, v = some z := by
          obtain rfl | ⟨z, hz, rfl⟩ := hv
          · exact ⟨y, mem_cons_self, rfl⟩
          · exact ⟨z, mem_cons_of_mem _ hz, rfl⟩
        obtain ⟨z, hz, rfl⟩ := hmem
        have hzx : some z ≠ some x := by
          rintro ⟨rfl⟩
          exact hx hz
        rw [insert_next hzx, if_neg (Ne.symm (hu z hz))]
      · intro v hv
        have hvx : v ≠ some x := by
          obtain rfl | ⟨z, hz, rfl⟩ := hv
          · simp
          · rintro ⟨rfl⟩
            exact hx (mem_cons_of_mem _ hz)
        rw [insert_prev hvx, if_neg]
        obtain rfl | ⟨z, hz, rfl⟩ := hv
        · simp
        · rintro ⟨rfl⟩
          exact (nodup_cons.mp hn).1 hz
  | cons y a ih =>
    rw [cons_append] at h hn hu hx
    obtain ⟨hya, hn'⟩ := nodup_cons.mp hn
    have hyx : some y ≠ some x := by
      rintro ⟨rfl⟩
      exact hx mem_cons_self
    have hu' : ∀ z ∈ a ++ b, some y ≠ some z := by
      rintro z hz ⟨rfl⟩
      exact hya hz
    rw [lastOr_cons]
    refine ⟨?_, ?_, ih h.2.2 hn' hu' hyx (fun hmem => hx (mem_cons_of_mem _ hmem))⟩
    · rw [insert_next hux, if_neg]
      · exact h.1
      · -- the position in front of `x` lies behind `u`
        intro hlast
        obtain hsame | ⟨z, hz, hsome⟩ := lastOr_cases (some y) a
        · exact hu y mem_cons_self (hlast.trans hsame)
        · exact hu z (mem_cons_of_mem _ (mem_append_left _ hz)) (hlast.trans hsome)
    · rw [insert_prev hyx, if_neg]
      · exact h.2.1
      · intro hhead
        have hmem : y ∈ b := mem_of_mem_head? hhead.symm
        exact hya (mem_append_right _ hmem)

theorem Holds.add (h : Holds r (a ++ b)) (hx : x ∉ a ++ b) :
    Holds (r.add x a.getLast?) (a ++ x :: b) := by
  have hnext := h.linked.next_eq
  rw [lastOr_none] at hnext
  refine ⟨?_, ?_⟩
  · rw [nodup_middle, nodup_cons]
    exact ⟨hx, h.nodup⟩
  · have hlinked := h.linked.insert h.nodup (by simp) (by simp) hx
    rw [lastOr_none] at hlinked
    rw [Ring.add, hnext]
    exact hlinked

theorem Linked.del (h : Linked r u (a ++ x :: b)) (hn : (a ++ x :: b).Nodup)
    (hu : ∀ y ∈ a ++ x :: b, u ≠ some y)
    (hbefore : r.prev (some x) = lastOr u a) (hafter : r.next (some x) = b.head?) :
    Linked (r.del x) u (a ++ b) := by
  have hdel : r.del x = ⟨update r.next (lastOr u a) b.head?,
      update r.prev b.head? (lastOr u a)⟩ := by
    rw [Ring.del, hbefore, hafter]
  rw [hdel]
  clear hdel hbefore hafter
  induction a generalizing u with
  | nil =>
    rw [nil_append] at h hn hu
    rw [nil_append, lastOr_nil]
    cases b with
    | nil =>
      refine ⟨update_self u none r.next, ?_⟩
      exact update_self (none : Option ι) u r.prev
    | cons y b =>
      refine ⟨update_self _ _ _, update_self _ _ _, h.2.2.2.2.frame ?_ ?_⟩
      · intro v hv
        refine update_of_ne ?_ _ _
        rintro rfl
        obtain hv | ⟨z, hz, hv⟩ := hv
        · exact hu y (by simp) hv
        · exact hu z (by simp [hz]) hv
      · intro v hv
        refine update_of_ne ?_ _ _
        rintro rfl
        obtain hv | ⟨z, hz, hv⟩ := hv
        · simp at hv
        · have hyz : y = z := by simpa using hv
          rw [nodup_cons, nodup_cons] at hn
          exact hn.2.1 (hyz ▸ hz)
  | cons y a ih =>
    rw [cons_append] at h hn hu
    obtain ⟨hya, hn'⟩ := nodup_cons.mp hn
    have hu' : ∀ z ∈ a ++ x :: b, some y ≠ some z := by
      rintro z hz ⟨rfl⟩
      exact hya hz
    rw [lastOr_cons]
    refine ⟨?_, ?_, ih h.2.2 hn' hu'⟩
    · refine (update_of_ne ?_ _ _).trans h.1
      intro hlast
      obtain hsame | ⟨z, hz, hsome⟩ := lastOr_cases (some y) a
      · exact hu y mem_cons_self (hlast.trans hsame)
      · exact hu z (mem_cons_of_mem _ (mem_append_left _ hz)) (hlast.trans hsome)
    · refine (update_of_ne ?_ _ _).trans h.2.1
      intro hhead
      have hmem : y ∈ b := mem_of_mem_head? hhead.symm
      exact hya (mem_append_right _ (mem_cons_of_mem _ hmem))

theorem Holds.del (h : Holds r (a ++ x :: b)) : Holds (r.del x) (a ++ b) := by
  have hbefore := h.linked.prev_eq
  have hsplit : a ++ x :: b = (a ++ [x]) ++ b := by simp
  have hlinked := h.linked
  rw [hsplit] at hlinked
  have hafter := hlinked.next_eq
  rw [lastOr_none, List.getLast?_concat] at hafter
  have hn := h.nodup
  rw [nodup_middle, nodup_cons] at hn
  exact ⟨hn.2, h.linked.del h.nodup (by simp) hbefore hafter⟩

theorem Holds.splice (h : Holds r l) : Holds r.splice l := by
  cases l with
  | nil =>
    have hnext : r.next none = none := h.linked.1
    rw [Ring.splice, if_pos hnext]
    exact holds_init
  | cons x l =>
    have hfirst : r.prev (some x) = none := h.linked.2.1
    have hnext : r.next none = some x := h.linked.1
    have hlinked := h.linked
    rw [← append_nil (x :: l)] at hlinked
    have hlast : r.next (r.prev none) = none := by
      have hprev : r.prev none = lastOr none (x :: l) := hlinked.prev_eq
      rw [hprev, hlinked.next_eq]
      rfl
    -- every write leaves what stands there
    have hprev' : update (update r.prev (r.next none) none) none (r.prev none) =
        r.prev := by
      have hsame : update r.prev (r.next none) none = r.prev := by
        rw [hnext, ← hfirst, update_eq_self]
      rw [hsame, update_eq_self]
    have hnext' : update (update r.next none (r.next none)) (r.prev none) none =
        r.next := by
      have hback : update r.next (r.prev none) (r.next (r.prev none)) = r.next :=
        update_eq_self _ _
      rw [hlast] at hback
      rw [update_eq_self, hback]
    rw [Ring.splice, if_neg (by rw [hnext]; simp), hprev', hnext']
    exact h

end Ring

section Elements

variable {ι β : Type} [DecidableEq ι] {elem : ι → Option β} {a b l : List ι} {x : ι}

theorem live_add (h : ∀ e, elem e ≠ none ↔ e ∈ a ++ b) (v : β) (e : ι) :
    update elem x (some v) e ≠ none ↔ e ∈ a ++ x :: b := by
  by_cases he : e = x
  · simp [he]
  · rw [update_of_ne he, h]
    simp [he]

theorem live_del (hn : (a ++ x :: b).Nodup) (h : ∀ e, elem e ≠ none ↔ e ∈ a ++ x :: b) (e : ι) :
    update elem x none e ≠ none ↔ e ∈ a ++ b := by
  rw [nodup_middle, nodup_cons] at hn
  by_cases he : e = x
  · rw [he, update_self]
    simp [hn.1]
  · rw [update_of_ne he, h]
    simp [he]

theorem live_set {v : β} (hx : elem x = some v) (h : ∀ e, elem e ≠ none ↔ e ∈ l) (v' : β) (e : ι) :
    update elem x (some v') e ≠ none ↔ e ∈ l := by
  rw [← h]
  by_cases he : e = x
  · simp [he, hx]
  · rw [update_of_ne he]

end Elements

end MyWorkflow.Rings
