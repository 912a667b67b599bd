import Mathlib.Data.List.Nodup
import Mathlib.Data.List.Perm.Basic
import Mathlib.Data.Nat.Basic
import Mathlib.Order.Bounds.Defs
import MyWorkflow.LruCache

set_option autoImplicit false

namespace MyWorkflow.Lru
open Function List RedBlack SearchTree Runs

variable {κ ν : Type} {c c' : Cache κ ν} {held held' : List HandleId} {e : HandleId}
  {h : Handle κ ν}

/-- Where a handle is and how often it counts: `clients` of it are to be released, and its value
    was given to the deleter `deleted` times. -/
def Sound (notUse inUse born : Prop) (clients deleted : ℕ) : Option (Handle κ ν) → Prop
  | some h => born ∧ deleted = 0 ∧ h.ref = (if h.inCache then 1 else 0) + (clients : ℤ) ∧ 0 < h.ref ∧
      (notUse ↔ h.inCache = true ∧ h.ref = 1) ∧ (inUse ↔ h.inCache = true ∧ 2 ≤ h.ref)
  | none => ¬notUse ∧ ¬inUse ∧ clients = 0 ∧ (born → deleted = 1) ∧ (¬born → deleted = 0)

structure Core (c : Cache κ ν) (held : List HandleId) : Prop where
  notUse : c.notUse.Nodup
  inUse : c.inUse.Nodup
  size : c.size = c.notUse.length + c.inUse.length
  sound : ∀ e, Sound (e ∈ c.notUse) (e ∈ c.inUse) (e < c.next) (held.count e)
    (c.deleted.count e) (c.handles e)

structure Others (e : HandleId) (c c' : Cache κ ν) (held held' : List HandleId) : Prop where
  handles : ∀ d, d ≠ e → c'.handles d = c.handles d
  notUse : ∀ d, d ≠ e → (d ∈ c'.notUse ↔ d ∈ c.notUse)
  inUse : ∀ d, d ≠ e → (d ∈ c'.inUse ↔ d ∈ c.inUse)
  next : ∀ d, d ≠ e → (d < c'.next ↔ d < c.next)
  held : ∀ d, d ≠ e → held'.count d = held.count d
  deleted : ∀ d, d ≠ e → c'.deleted.count d = c.deleted.count d

theorem Core.change (C : Core c held) (o : Others e c c' held held') (hnotUse : c'.notUse.Nodup)
    (hinUse : c'.inUse.Nodup) (hsize : c'.size = c'.notUse.length + c'.inUse.length)
    (hsound : Sound (e ∈ c'.notUse) (e ∈ c'.inUse) (e < c'.next) (held'.count e)
      (c'.deleted.count e) (c'.handles e)) : Core c' held' := by
  refine ⟨hnotUse, hinUse, hsize, ?_⟩
  intro d
  by_cases hd : d = e
  · rw [hd]
    exact hsound
  · have hold := C.sound d
    rwa [← o.handles d hd, ← o.held d hd, ← o.deleted d hd, ← o.notUse d hd, ← o.inUse d hd,
      ← o.next d hd] at hold

theorem Core.sound_of (C : Core c held) (he : c.handles e = some h) :
    e < c.next ∧ c.deleted.count e = 0 ∧ h.ref = (if h.inCache then 1 else 0) + (held.count e : ℤ) ∧
      0 < h.ref ∧ (e ∈ c.notUse ↔ h.inCache = true ∧ h.ref = 1) ∧
      (e ∈ c.inUse ↔ h.inCache = true ∧ 2 ≤ h.ref) := by
  have hsound := C.sound e
  rwa [he] at hsound

theorem Core.linked (C : Core c held) (he : c.handles e = some h) (hin : h.inCache = true) :
    e ∈ c.notUse ∨ e ∈ c.inUse := by
  obtain ⟨-, -, -, hpos, hnot, huse⟩ := C.sound_of he
  by_cases hone : h.ref = 1
  · exact .inl (hnot.mpr ⟨hin, hone⟩)
  · exact .inr (huse.mpr ⟨hin, by omega⟩)

structure Same (c c' : Cache κ ν) : Prop where
  maxSize : c'.maxSize = c.maxSize
  size : c'.size = c.size
  cacheMap : c'.cacheMap = c.cacheMap
  next : c'.next = c.next
  log : c'.log = c.log

def Cache.entry (c : Cache κ ν) (e : HandleId) : Option (κ × ν) :=
  (c.handles e).bind fun h => if h.inCache then some (h.key, h.value) else none

theorem entry_eq_some {p : κ × ν} :
    c.entry e = some p ↔ ∃ h, c.handles e = some h ∧ h.inCache = true ∧ (h.key, h.value) = p := by
  simp only [Cache.entry, Option.bind_eq_some_iff]
  refine exists_congr fun h => and_congr_right fun _ => ?_
  by_cases hin : h.inCache = true <;> simp [hin]

theorem entry_update (c' : Cache κ ν) (hhandles : c'.handles = update c.handles e (some h)) :
    c'.entry = update c.entry e
      (if h.inCache then some (h.key, h.value) else none) := by
  funext d
  by_cases hd : d = e
  · rw [hd, update_self, Cache.entry, hhandles, update_self]
    rfl
  · rw [update_of_ne hd, Cache.entry, Cache.entry, hhandles, update_of_ne hd]

def Cache.dropped (c c' : Cache κ ν) (e : HandleId) : Bool :=
  (c.handles e).any (fun h => 1 < h.ref) && (c'.handles e).any fun h => h.ref = 1

theorem moved_behind {l m : List HandleId} (hl : l.Nodup) (hm : m.Nodup) (hmem : e ∈ l)
    (hout : e ∉ m) : (m ++ [e]).Nodup ∧
      (l.erase e).length + (m ++ [e]).length = l.length + m.length ∧ e ∉ l.erase e ∧
      ∀ d, d ≠ e → (d ∈ l.erase e ↔ d ∈ l) ∧ (d ∈ m ++ [e] ↔ d ∈ m) := by
  have hpos := length_pos_of_mem hmem
  refine ⟨hm.append (nodup_singleton e) (by simpa using hout), ?_, hl.not_mem_erase, ?_⟩
  · rw [length_erase_of_mem hmem, length_append, length_singleton]
    omega
  · exact fun d hd => ⟨mem_erase_of_ne hd, by simp [hd]⟩

/-- A handle is counted anew, and the lists are those of its new count. -/
theorem Core.setRef {r : ℤ} (C : Core c held) (he : c.handles e = some h)
    (hheld : ∀ d, d ≠ e → held'.count d = held.count d)
    (href : r - held'.count e = h.ref - held.count e) (hpos : 0 < r) ⦃notUse inUse : List HandleId⦄
    (hlists : notUse.Nodup ∧ inUse.Nodup ∧
      notUse.length + inUse.length = c.notUse.length + c.inUse.length)
    (hother : ∀ d, d ≠ e → (d ∈ notUse ↔ d ∈ c.notUse) ∧ (d ∈ inUse ↔ d ∈ c.inUse))
    (hnotUse : e ∈ notUse ↔ h.inCache = true ∧ r = 1)
    (hinUse : e ∈ inUse ↔ h.inCache = true ∧ 2 ≤ r) :
    let c' := { c with notUse := notUse, inUse := inUse }.setHandle e (some { h with ref := r })
    Core c' held' ∧ Same c c' ∧ c'.entry = c.entry := by
  intro c'
  obtain ⟨hborn, hdel, hold, -, -, -⟩ := C.sound_of he
  have hnew : r = (if h.inCache then 1 else 0) + (held'.count e : ℤ) := by omega
  refine ⟨?_, ⟨rfl, rfl, rfl, rfl, rfl⟩, ?_⟩
  · refine C.change ⟨fun d hd => update_of_ne hd _ _, fun d hd => (hother d hd).1,
      fun d hd => (hother d hd).2, fun _ _ => .rfl, hheld, fun _ _ => rfl⟩ hlists.1 hlists.2.1
      (C.size.trans hlists.2.2.symm) ?_
    rw [show c'.handles e = _ from update_self ..]
    exact ⟨hborn, hdel, hnew, hpos, hnotUse, hinUse⟩
  · rw [entry_update (c := c) c' rfl, update_eq_self_iff, Cache.entry, he]
    rfl

theorem Core.ref (past : Option ℤ) (C : Core c held) (he : c.handles e = some h)
    (hfits : held.count e + 1 < INT_MAX) :
    ∃ c', c.ref past e = some c' ∧ Core c' (e :: held) ∧ Same c c' ∧ c'.entry = c.entry ∧
      c'.notUse.Sublist c.notUse := by
  obtain ⟨-, -, href, hpos, hnot, huse⟩ := C.sound_of he
  have hincr : increment past h.ref = some (h.ref + 1) := by
    refine if_pos ?_
    split_ifs at href <;> omega
  have hcount : ∀ d, d ≠ e → (e :: held).count d = held.count d :=
    fun d hd => count_cons_of_ne hd.symm
  have hself : (e :: held).count e = held.count e + 1 := count_cons_self
  have hsetRef := C.setRef (r := h.ref + 1) he hcount (by omega) (by omega)
  by_cases hidle : h.inCache = true ∧ h.ref = 1
  · have hmem := hnot.mpr hidle
    have hout : e ∉ c.inUse := by
      rw [huse]
      omega
    obtain ⟨hnodup, hlength, hgone, hother⟩ := moved_behind C.notUse C.inUse hmem hout
    obtain ⟨hcore, hsame, hentry⟩ := hsetRef ⟨C.notUse.erase e, hnodup, hlength⟩ hother
      ⟨fun hmem => absurd hmem hgone, fun hand => by omega⟩ (by simp [hidle])
    refine ⟨_, ?_, hcore, hsame, hentry, erase_sublist⟩
    rw [Cache.ref, he]
    simp only [if_pos hidle, Cache.listMoveInUse, Cache.listDel, if_pos (Or.inl hmem), hincr,
      erase_of_not_mem hout]
    rfl
  · obtain ⟨hcore, hsame, hentry⟩ := hsetRef ⟨C.notUse, C.inUse, rfl⟩ (fun _ _ => ⟨.rfl, .rfl⟩)
      (by grind) (by grind)
    refine ⟨_, ?_, hcore, hsame, hentry, List.Sublist.refl _⟩
    rw [Cache.ref, he]
    simp only [if_neg hidle, hincr]
    rfl

theorem Core.exists_of_held (C : Core c held) (he : e ∈ held) : ∃ h, c.handles e = some h := by
  have hsound := C.sound e
  have hpos := count_pos_iff.mpr he
  cases hh : c.handles e with
  | some h => exact ⟨h, rfl⟩
  | none =>
    rw [hh] at hsound
    obtain ⟨-, -, hzero, -⟩ := hsound
    omega

theorem Core.unref (C : Core c held) (hheld : e ∈ held) :
    ∃ c', c.unref e = some c' ∧ Core c' (held.erase e) ∧ Same c c' ∧ c'.entry = c.entry ∧
      (c'.notUse = c.notUse ∨ c.entry e ≠ none ∧ e ∉ c.notUse ∧ c'.notUse = c.notUse ++ [e] ∧
        c.dropped c' e = true) := by
  obtain ⟨h, he⟩ := C.exists_of_held hheld
  obtain ⟨hborn, hdel, href, hpos, hnot, huse⟩ := C.sound_of he
  have hheldpos := count_pos_iff.mpr hheld
  have hcount : ∀ d, d ≠ e → (held.erase e).count d = held.count d :=
    fun d hd => count_erase_of_ne hd
  have hself : (held.erase e).count e = held.count e - 1 := count_erase_self
  have hne : ¬h.ref ≤ 0 := by omega
  by_cases hlast : h.ref - 1 = 0
  · -- the cache has given the handle up, so it is in no list
    have hin : h.inCache = false := by
      by_contra hin
      rw [Bool.not_eq_false] at hin
      rw [hin, if_pos rfl] at href
      omega
    have hrun : c.unref e = some { c.setHandle e none with deleted := e :: c.deleted } := by
      simp [Cache.unref, he, hpos, hlast, hin]
    refine ⟨_, hrun, ?_, ⟨rfl, rfl, rfl, rfl, rfl⟩, ?_, .inl rfl⟩
    · refine C.change ⟨?_, fun _ _ => .rfl, fun _ _ => .rfl, fun _ _ => .rfl, hcount, ?_⟩
        C.notUse C.inUse C.size ?_
      · exact fun d hd => update_of_ne hd _ _
      · exact fun d hd => count_cons_of_ne hd.symm
      · simp only [Cache.setHandle, update_self, Sound, count_cons_self, hdel, hself]
        rw [hin] at hnot huse href
        refine ⟨by simp [hnot], by simp [huse], ?_, fun _ => trivial, fun hn => absurd hborn hn⟩
        simp only [Bool.false_eq_true, if_false] at href
        omega
    · funext d
      by_cases hd : d = e
      · simp [Cache.entry, Cache.setHandle, hd, he, hin]
      · simp [Cache.entry, Cache.setHandle, update_of_ne hd]
  have hsetRef := C.setRef (r := h.ref - 1) he hcount (by omega) (by omega)
  by_cases hidle : h.inCache = true ∧ h.ref - 1 = 1
  · have hmem : e ∈ c.inUse := huse.mpr ⟨hidle.1, by omega⟩
    have hout : e ∉ c.notUse := by
      rw [hnot]
      omega
    obtain ⟨hnodup, hlength, hgone, hother⟩ := moved_behind C.inUse C.notUse hmem hout
    obtain ⟨hcore, hsame, hentry⟩ := hsetRef ⟨hnodup, C.inUse.erase e, by omega⟩
      (fun d hd => (hother d hd).symm) (by simp [hidle])
      ⟨fun hmem => absurd hmem hgone, fun hand => by omega⟩
    refine ⟨_, ?_, hcore, hsame, hentry, .inr ⟨by simp [Cache.entry, he, hidle], hout, rfl, ?_⟩⟩
    · simp [Cache.unref, he, hpos, hidle, Cache.listMoveNotUse, Cache.listDel, Cache.setHandle,
        hmem, erase_of_not_mem hout]
    · simp only [Cache.dropped, he, Cache.setHandle, update_self, Option.any_some, hidle.2,
        decide_true, Bool.and_true, decide_eq_true_eq]
      omega
  · obtain ⟨hcore, hsame, hentry⟩ := hsetRef ⟨C.notUse, C.inUse, rfl⟩ (fun _ _ => ⟨.rfl, .rfl⟩)
      (by grind) (by grind)
    refine ⟨_, ?_, hcore, hsame, hentry, .inl rfl⟩
    simp only [Cache.unref, he, if_neg hne, if_neg hlast, if_neg hidle]

theorem Core.leave (C : Core c held) (he : c.handles e = some h) (hin : h.inCache = true) :
    Core { { c with notUse := c.notUse.erase e, inUse := c.inUse.erase e }.setHandle e
      (some { h with inCache := false }) with size := c.size - 1 } (e :: held) := by
  obtain ⟨hborn, hdel, href, hpos, hnot, huse⟩ := C.sound_of he
  rw [hin, if_pos rfl] at href
  refine C.change (e := e) ⟨?_, ?_, ?_, fun _ _ => .rfl, ?_, fun _ _ => rfl⟩ (C.notUse.erase e)
    (C.inUse.erase e) ?_ ?_
  · exact fun d hd => update_of_ne hd _ _
  · exact fun d hd => mem_erase_of_ne hd
  · exact fun d hd => mem_erase_of_ne hd
  · exact fun d hd => count_cons_of_ne hd.symm
  · have hsize := C.size
    have hlinked := C.linked he hin
    have hone : ¬(e ∈ c.notUse ∧ e ∈ c.inUse) := by
      rw [hnot, huse]
      omega
    simp only [Cache.setHandle, length_erase]
    rcases hlinked with hmem | hmem
    · have hout : e ∉ c.inUse := fun hin' => hone ⟨hmem, hin'⟩
      have hlpos := length_pos_of_mem hmem
      rw [if_pos hmem, if_neg hout]
      omega
    · have hout : e ∉ c.notUse := fun hin' => hone ⟨hin', hmem⟩
      have hlpos := length_pos_of_mem hmem
      rw [if_neg hout, if_pos hmem]
      omega
  · have hnotUse : e ∉ c.notUse.erase e := C.notUse.not_mem_erase
    have hinUse : e ∉ c.inUse.erase e := C.inUse.not_mem_erase
    simp only [Cache.setHandle, update_self, Sound, count_cons_self]
    refine ⟨hborn, hdel, ?_, hpos, by simp [hnotUse], by simp [hinUse]⟩
    rw [href, if_neg Bool.false_ne_true]
    omega

theorem Core.eraseNode (C : Core c held) (he : c.handles e = some h) (hin : h.inCache = true) :
    ∃ c', c.eraseNode e = some c' ∧ Core c' held ∧ Same { c with size := c.size - 1 } c' ∧
      c'.entry = update c.entry e none ∧ c'.notUse = c.notUse.erase e := by
  have C' := C.leave he hin
  obtain ⟨c', hrun, hcore, hsame, hentry, hnotUse⟩ := C'.unref mem_cons_self
  rw [erase_cons_head] at hcore
  have hupdate := entry_update (c := c) (h := { h with inCache := false }) (e := e)
    { { c with notUse := c.notUse.erase e, inUse := c.inUse.erase e }.setHandle e
      (some { h with inCache := false }) with size := c.size - 1 } rfl
  refine ⟨c', ?_, hcore, { hsame with },
    hentry.trans hupdate, hnotUse.resolve_right (fun hmoved => hmoved.1 ?_)⟩
  · simp only [Cache.eraseNode, he, hin, if_true, Cache.listDel, if_pos (C.linked he hin),
      Option.bind_some]
    exact hrun
  · rw [hupdate, update_self]
    rfl

theorem Core.record (C : Core c held) (event : Event κ ν) : Core (c.record event) held := { C with }

theorem Core.mem_notUse (C : Core c held) (he : e ∈ c.notUse) :
    ∃ h, c.handles e = some h ∧ h.inCache = true ∧ h.ref = 1 := by
  have hsound := C.sound e
  cases hh : c.handles e with
  | none =>
    rw [hh] at hsound
    exact absurd he hsound.1
  | some h => exact ⟨h, rfl, (C.sound_of hh).2.2.2.2.1.mp he⟩

theorem Core.mem_inUse (C : Core c held) :
    e ∈ c.inUse ↔ ∃ h, c.handles e = some h ∧ h.inCache = true ∧ 2 ≤ h.ref := by
  have hsound := C.sound e
  cases hh : c.handles e with
  | none =>
    rw [hh] at hsound
    simp [hsound.2.1]
  | some h => simp [(C.sound_of hh).2.2.2.2.2]

theorem Core.remove {p : κ × ν} (C : Core c held) (he : c.entry e = some p) :
    ∃ c', c.remove e = some c' ∧ Core c' held ∧
      c'.cacheMap.list = c.cacheMap.list.erase e ∧
      c'.entry = update c.entry e none ∧ c'.log = c.log ∧
      c'.notUse = c.notUse.erase e ∧ c'.size = c.size - 1 ∧ c'.maxSize = c.maxSize := by
  obtain ⟨h, hh, hin, -⟩ := entry_eq_some.mp he
  have C' : Core { c with cacheMap := c.cacheMap.erase e } held := { C with }
  obtain ⟨c', hrun, hcore, hsame, hentry, hnotUse⟩ := C'.eraseNode hh hin
  refine ⟨c', hrun, hcore, ?_, hentry, hsame.log, hnotUse, hsame.size, hsame.maxSize⟩
  rw [hsame.cacheMap]
  exact RbRoot.list_erase e c.cacheMap

theorem Core.fresh (C : Core c held) : c.handles c.next = none ∧ c.next ∉ c.notUse ∧
    c.next ∉ c.inUse ∧ held.count c.next = 0 ∧ c.deleted.count c.next = 0 := by
  have hsound := C.sound c.next
  cases hh : c.handles c.next with
  | some h => exact absurd (C.sound_of hh).1 (Nat.lt_irrefl _)
  | none =>
    rw [hh] at hsound
    obtain ⟨h₁, h₂, h₃, -, h₅⟩ := hsound
    exact ⟨rfl, h₁, h₂, h₃, h₅ (Nat.lt_irrefl _)⟩

def Cache.enroll (k : κ) (v : ν) (c : Cache κ ν) : Cache κ ν :=
  { c.setHandle c.next (some ⟨v, k, true, 2⟩) with
    next := c.next + 1
    inUse := c.inUse ++ [c.next]
    size := c.size + 1
    log := .put k v c.next :: c.log }

theorem Core.enroll (C : Core c held) (k : κ) (v : ν) :
    Core (c.enroll k v) (c.next :: held) := by
  obtain ⟨hnone, hnotUse, hinUse, hheld, hdeleted⟩ := C.fresh
  refine C.change (e := c.next) ⟨?_, fun _ _ => .rfl, ?_, ?_, ?_, fun _ _ => rfl⟩ C.notUse ?_ ?_ ?_
  · exact fun d hd => update_of_ne hd _ _
  · intro d hd
    simp [Cache.enroll, hd]
  · intro d hd
    have hne : d ≠ c.next := hd
    rw [Cache.enroll, Nat.lt_succ_iff_lt_or_eq, or_iff_left hne]
  · exact fun d hd => count_cons_of_ne hd.symm
  · exact C.inUse.append (nodup_singleton _) (by simpa using hinUse)
  · have hsize := C.size
    simp only [Cache.enroll, Cache.setHandle, length_append, length_singleton]
    omega
  · simp [Cache.enroll, Cache.setHandle, Sound, hheld, hdeleted, hnotUse]

theorem entry_enroll (c : Cache κ ν) (k : κ) (v : ν) :
    (c.enroll k v).entry = update c.entry c.next (some (k, v)) :=
  entry_update (c.enroll k v) rfl

/-- The value and the handle of the latest `put` of a key, unless something took it away since. -/
def latest [DecidableEq κ] : List (Event κ ν) → κ → Option (ν × HandleId)
  | [], _ => none
  | .put key value e :: log, k => if key = k then some (value, e) else latest log k
  | .del key :: log, k => if key = k then none else latest log k
  | .evict e :: log, k | .prune e :: log, k => (latest log k).filter fun p => p.2 ≠ e

section Map

variable [LinearOrder κ]

def Before (c : Cache κ ν) (a b : HandleId) : Prop :=
  ∃ p q, c.entry a = some p ∧ c.entry b = some q ∧ p.1 < q.1

structure Mapped (c : Cache κ ν) : Prop where
  sorted : c.cacheMap.list.Pairwise (Before c)
  mem : ∀ e, e ∈ c.cacheMap.list ↔ ∃ p, c.entry e = some p
  newest : ∀ k v e, latest c.log k = some (v, e) ↔ c.entry e = some (k, v)

theorem Before.ne {a b : HandleId} (hab : Before c a b) : a ≠ b := by
  rintro rfl
  obtain ⟨p, q, hp, hq, hlt⟩ := hab
  rw [hp] at hq
  cases hq
  exact lt_irrefl _ hlt

theorem Mapped.nodup (M : Mapped c) : c.cacheMap.list.Nodup := M.sorted.imp Before.ne

theorem below_eq {p : κ × ν} (he : c.entry e = some p) (k : κ) :
    c.below k e = true ↔ k ≤ p.1 := by
  obtain ⟨h, hh, -, rfl⟩ := entry_eq_some.mp he
  simp [Cache.below, hh]

theorem above_eq {p : κ × ν} (he : c.entry e = some p) (k : κ) :
    c.above k e = true ↔ k < p.1 := by
  obtain ⟨h, hh, -, rfl⟩ := entry_eq_some.mp he
  simp [Cache.above, hh]

theorem Mapped.below_mono (M : Mapped c) (k : κ) : c.cacheMap.list.Pairwise
    (fun a b => c.below k a = true → c.below k b = true) := by
  refine M.sorted.imp ?_
  rintro a b ⟨p, q, hp, hq, hlt⟩ ha
  rw [below_eq hp] at ha
  rw [below_eq hq]
  exact le_trans ha (le_of_lt hlt)

theorem Mapped.find (M : Mapped c) {k : κ} :
    c.find k = some e ↔ ∃ v, c.entry e = some (k, v) := by
  rw [Cache.find, bound_eq_find? (M.below_mono k), ← RbRoot.list, Option.filter_eq_some_iff]
  constructor
  · rintro ⟨hfind, habove⟩
    obtain ⟨⟨k', v⟩, hp⟩ := (M.mem e).mp (mem_of_find?_eq_some hfind)
    have hle := (below_eq hp k).mp (List.find?_some hfind)
    have hge : ¬k < k' := fun hlt => by simp [(above_eq hp k).mpr hlt] at habove
    obtain rfl := le_antisymm hle (not_lt.mp hge)
    exact ⟨v, hp⟩
  · rintro ⟨v, hp⟩
    have hmem := (M.mem e).mpr ⟨_, hp⟩
    have hbelow := (below_eq hp k).mpr le_rfl
    have habove : c.above k e = false := by
      rw [Bool.eq_false_iff, Ne, above_eq hp]
      exact lt_irrefl _
    refine ⟨?_, by simp [habove]⟩
    cases hfind : c.cacheMap.list.find? (c.below k) with
    | none => exact absurd hbelow (List.find?_eq_none.mp hfind e hmem)
    | some b =>
      obtain ⟨hb, as, bs, hin, has⟩ := List.find?_eq_some_iff_append.mp hfind
      obtain ⟨q, hq⟩ := (M.mem b).mp (mem_of_find?_eq_some hfind)
      rw [hin, mem_append, mem_cons] at hmem
      rcases hmem with hmem | rfl | hmem
      · -- what stands before the first node that lies below does not
        have hnot := has e hmem
        rw [hbelow] at hnot
        cases hnot
      · rfl
      · have hsorted := M.sorted
        rw [hin, pairwise_append, pairwise_cons] at hsorted
        obtain ⟨p, q', hp', hq', hlt⟩ := hsorted.2.1.1 e hmem
        rw [hq] at hp'
        rw [hp] at hq'
        cases hp'
        cases hq'
        exact absurd hlt (not_lt.mpr ((below_eq hq k).mp hb))

theorem Mapped.congr (M : Mapped c) (hmap : c'.cacheMap = c.cacheMap) (hlog : c'.log = c.log)
    (hentry : c'.entry = c.entry) : Mapped c' := by
  have hbefore : Before c' = Before c := by
    funext a b
    rw [Before, Before, hentry]
  obtain ⟨h₁, h₂, h₃⟩ := M
  exact ⟨by rwa [hmap, hbefore], by rwa [hmap, hentry], by rwa [hlog, hentry]⟩

theorem Mapped.remove (M : Mapped c) (hmap : c'.cacheMap.list = c.cacheMap.list.erase e)
    (hentry : c'.entry = update c.entry e none)
    (hlog : ∀ k v d, latest c'.log k = some (v, d) ↔ latest c.log k = some (v, d) ∧ d ≠ e) :
    Mapped c' := by
  have hother : ∀ d, d ≠ e → c'.entry d = c.entry d := by
    intro d hd
    rw [hentry, update_of_ne hd]
  have hself : c'.entry e = none := by rw [hentry, update_self]
  have hmem : ∀ d, d ∈ c'.cacheMap.list ↔ d ≠ e ∧ d ∈ c.cacheMap.list := by
    intro d
    rw [hmap]
    exact M.nodup.mem_erase_iff
  refine ⟨?_, ?_, ?_⟩
  · refine ((hmap ▸ M.sorted.sublist erase_sublist) : List.Pairwise _ _).imp_of_mem ?_
    rintro a b ha hb ⟨p, q, hp, hq, hlt⟩
    exact ⟨p, q, (hother a ((hmem a).mp ha).1).trans hp, (hother b ((hmem b).mp hb).1).trans hq, hlt⟩
  · intro d
    rw [hmem]
    by_cases hd : d = e
    · simp [hd, hself]
    · rw [hother d hd, M.mem]
      simp [hd]
  · intro k v d
    rw [hlog, M.newest]
    by_cases hd : d = e
    · simp [hd, hself]
    · simp [hd, hother d hd]

/-- A handle `e` comes for the key `k`, and the handle that the key had goes. -/
structure Replaces (c c' : Cache κ ν) (k : κ) (v : ν) (e : HandleId) : Prop where
  fresh : c.entry e = none
  new : c'.entry e = some (k, v)
  old : ∀ d, c.find k = some d → d ≠ e → c'.entry d = none
  other : ∀ d, c.find k ≠ some d → d ≠ e → c'.entry d = c.entry d
  log : c'.log = .put k v e :: c.log

theorem Replaces.keeps {k : κ} {v : ν} (r : Replaces c c' k v e) {d : HandleId} {p : κ × ν}
    (hd : c.entry d = some p) (hfind : c.find k ≠ some d) : c'.entry d = some p := by
  refine (r.other d hfind ?_).trans hd
  rintro rfl
  rw [r.fresh] at hd
  cases hd

theorem Mapped.newest_put {k : κ} {v : ν} (M : Mapped c) (r : Replaces c c' k v e) (k' : κ)
    (w : ν) (d : HandleId) : latest c'.log k' = some (w, d) ↔ c'.entry d = some (k', w) := by
  rw [r.log, latest]
  by_cases hk : k = k'
  · subst hk
    rw [if_pos rfl]
    by_cases hd : d = e
    · subst hd
      rw [r.new]
      simp
    · constructor
      · intro heq
        cases heq
        exact absurd rfl hd
      · intro heq
        by_cases hfind : c.find k = some d
        · rw [r.old d hfind hd] at heq
          cases heq
        · rw [r.other d hfind hd] at heq
          exact absurd (M.find.mpr ⟨w, heq⟩) hfind
  · rw [if_neg hk, M.newest]
    by_cases hd : d = e
    · subst hd
      rw [r.new, r.fresh]
      simp [hk]
    · by_cases hfind : c.find k = some d
      · obtain ⟨u, hu⟩ := M.find.mp hfind
        rw [r.old d hfind hd, hu]
        simp [hk]
      · rw [r.other d hfind hd]

theorem Mapped.replace {k : κ} {v : ν} {b : HandleId} (M : Mapped c) (r : Replaces c c' k v e)
    (hb : c.find k = some b) (hmap : c'.cacheMap = c.cacheMap.replace b e) : Mapped c' := by
  obtain ⟨w, hw⟩ := M.find.mp hb
  have hbe : b ≠ e := by
    rintro rfl
    rw [r.fresh] at hw
    cases hw
  have hkey : ∀ d p, c.entry d = some p →
      ∃ q, c'.entry (if d = b then e else d) = some q ∧ q.1 = p.1 := by
    intro d p hp
    split_ifs with hd
    · subst hd
      rw [hw] at hp
      cases hp
      exact ⟨_, r.new, rfl⟩
    · refine ⟨p, r.keeps hp ?_, rfl⟩
      rw [hb]
      exact fun heq => hd (Option.some.inj heq).symm
  refine ⟨?_, ?_, M.newest_put r⟩
  · rw [hmap, RbRoot.list_replace, pairwise_map]
    refine M.sorted.imp ?_
    rintro x y ⟨p, q, hp, hq, hlt⟩
    obtain ⟨p', hp', hpp⟩ := hkey x p hp
    obtain ⟨q', hq', hqq⟩ := hkey y q hq
    exact ⟨p', q', hp', hq', by rwa [hpp, hqq]⟩
  · intro d
    rw [hmap, RbRoot.list_replace, mem_map]
    constructor
    · rintro ⟨x, hx, rfl⟩
      obtain ⟨p, hp⟩ := (M.mem x).mp hx
      obtain ⟨q, hq, -⟩ := hkey x p hp
      exact ⟨q, hq⟩
    · rintro ⟨p, hp⟩
      by_cases hd : d = e
      · exact ⟨b, (M.mem b).mpr ⟨_, hw⟩, by rw [if_pos rfl, hd]⟩
      · have hdb : d ≠ b := by
          rintro rfl
          rw [r.old d hb hd] at hp
          cases hp
        rw [r.other d (by simpa [hb] using hdb.symm) hd] at hp
        exact ⟨d, (M.mem d).mpr ⟨p, hp⟩, if_neg hdb⟩

theorem Mapped.insert {k : κ} {v : ν} {pre post : List HandleId} (M : Mapped c)
    (r : Replaces c c' k v e) (hnone : c.find k = none) (hin : c.cacheMap.list = pre ++ post)
    (hpre : ∀ d ∈ pre, c.below k d = false) (hpost : ∀ d ∈ post, c.below k d = true)
    (hmap : c'.cacheMap.list = pre ++ e :: post) : Mapped c' := by
  have hkeep : ∀ d p, c.entry d = some p → c'.entry d = some p :=
    fun d p hp => r.keeps hp (by simp [hnone])
  have hbefore : ∀ a b, Before c a b → Before c' a b := by
    rintro a b ⟨p, q, hp, hq, hlt⟩
    exact ⟨p, q, hkeep a p hp, hkeep b q hq, hlt⟩
  have hsorted := M.sorted
  have hmem : ∀ d, d ∈ pre ∨ d ∈ post ↔ ∃ p, c.entry d = some p := by
    intro d
    rw [← M.mem, hin, mem_append]
  rw [hin, pairwise_append] at hsorted
  have hleft : ∀ d ∈ pre, Before c' d e := by
    intro d hd
    obtain ⟨p, hp⟩ := (hmem d).mp (.inl hd)
    refine ⟨p, _, hkeep d p hp, r.new, not_le.mp ?_⟩
    rw [← below_eq hp, hpre d hd]
    exact Bool.false_ne_true
  have hright : ∀ d ∈ post, Before c' e d := by
    intro d hd
    obtain ⟨p, hp⟩ := (hmem d).mp (.inr hd)
    refine ⟨_, p, r.new, hkeep d p hp, lt_of_le_of_ne ((below_eq hp k).mp (hpost d hd)) ?_⟩
    rintro rfl
    rw [M.find.mpr ⟨p.2, hp⟩] at hnone
    cases hnone
  refine ⟨?_, ?_, M.newest_put r⟩
  · rw [hmap, pairwise_append, pairwise_cons]
    refine ⟨hsorted.1.imp (hbefore _ _), ⟨hright, hsorted.2.1.imp (hbefore _ _)⟩, ?_⟩
    intro a ha b hb
    rcases mem_cons.mp hb with rfl | hb
    · exact hleft a ha
    · exact hbefore a b (hsorted.2.2 a ha b hb)
  · intro d
    rw [hmap, mem_append, mem_cons]
    by_cases hd : d = e
    · simp [hd, r.new]
    · rw [r.other d (by simp [hnone]) hd, ← hmem]
      simp [hd]

structure Inv (c : Cache κ ν) (held : List HandleId) : Prop where
  core : Core c held
  mapped : Mapped c

theorem Inv.drop (I : Inv c held) (he : e ∈ c.notUse) {event : Event κ ν}
    (hevent : event = .evict e ∨ event = .prune e) :
    ∃ c', (c.drop e).map (Cache.record event) = some c' ∧ Inv c' held ∧
      c'.notUse = c.notUse.erase e ∧ c'.entry = update c.entry e none ∧
      c'.size = c.size - 1 ∧ c'.maxSize = c.maxSize := by
  obtain ⟨h, hh, hin, hone⟩ := I.core.mem_notUse he
  have hentry : c.entry e = some (h.key, h.value) := entry_eq_some.mpr ⟨h, hh, hin, rfl⟩
  obtain ⟨c', hrun, hcore, hmap, hentry', hlog, hrest⟩ := I.core.remove hentry
  refine ⟨c'.record event, ?_, ⟨hcore.record event, ?_⟩, hrest.1, hentry', hrest.2⟩
  · rw [Cache.drop, hh, if_pos (by simp [hone]), hrun]
    rfl
  · refine I.mapped.remove hmap hentry' ?_
    intro k v d
    have hlatest : latest (c'.record event).log k =
        (latest c.log k).filter fun p => p.2 ≠ e := by
      rcases hevent with rfl | rfl
      · rw [Cache.record, hlog, latest]
      · rw [Cache.record, hlog, latest]
    rw [hlatest, Option.filter_eq_some_iff, decide_eq_true_iff]

theorem Inv.prune (I : Inv c held) :
    ∃ c', c.prune = some c' ∧ Inv c' held ∧ c'.notUse = [] := by
  -- the loop goes over what is left of `not_use`
  suffices hloop : ∀ l c, Inv c held → c.notUse = l → ∃ c', l.foldlM
      (fun c e => (Cache.drop e c).map (Cache.record (.prune e))) c = some c' ∧
      Inv c' held ∧ c'.notUse = [] from hloop c.notUse c I rfl
  intro l
  induction l with
  | nil => exact fun c I hl => ⟨c, rfl, I, hl⟩
  | cons e l ih =>
    intro c I hl
    obtain ⟨c₁, hrun, I₁, hl₁, -⟩ := I.drop (e := e) (by simp [hl]) (.inr rfl)
    rw [hl, erase_cons_head] at hl₁
    obtain ⟨c₂, hrun₂, I₂, hl₂⟩ := ih c₁ I₁ hl₁
    refine ⟨c₂, ?_, I₂, hl₂⟩
    rw [foldlM_cons, hrun]
    exact hrun₂

structure Evicts (c c' : Cache κ ν) (m : ℕ) : Prop where
  least : IsLeast {n | c.size - n ≤ c.maxSize ∨ c.notUse.length ≤ n} m
  notUse : c'.notUse = c.notUse.drop m
  size : c'.size = c.size - m
  entry : ∀ e, c'.entry e = if e ∈ c.notUse.take m then none else c.entry e

omit [LinearOrder κ] in
theorem evicts_none (h : c.size ≤ c.maxSize ∨ c.notUse = []) : Evicts c c 0 := by
  refine ⟨⟨h.imp id (fun hl => by simp [hl]), fun _ _ => Nat.zero_le _⟩, rfl, rfl, ?_⟩
  intro e
  simp

omit [LinearOrder κ] in
theorem Evicts.cons {c₁ : Cache κ ν} {l : List HandleId} {m : ℕ} (E : Evicts c₁ c' m)
    (hl : c.notUse = e :: l) (hlarge : c.maxSize < c.size) (hl₁ : c₁.notUse = l)
    (hentry : c₁.entry = update c.entry e none) (hsize : c₁.size = c.size - 1)
    (hmax : c₁.maxSize = c.maxSize) : Evicts c c' (m + 1) := by
  obtain ⟨⟨hmem, hleast⟩, hnotUse, hsize', hentry'⟩ := E
  rw [hsize, hmax, hl₁] at hmem hleast
  refine ⟨⟨?_, ?_⟩, ?_, ?_, ?_⟩
  · rw [Set.mem_ofPred_eq, hl, length_cons]
    rcases hmem with hmem | hmem
    · exact .inl (by omega)
    · exact .inr (Nat.succ_le_succ hmem)
  · intro n hn
    rw [Set.mem_ofPred_eq, hl, length_cons] at hn
    cases n with
    | zero => omega
    | succ n =>
      refine Nat.succ_le_succ (hleast ?_)
      rw [Set.mem_ofPred_eq]
      omega
  · rw [hnotUse, hl₁, hl, drop_succ_cons]
  · rw [hsize', hsize]
    omega
  · intro d
    rw [hentry', hentry, hl₁, hl, take_succ_cons]
    by_cases hd : d = e
    · simp [hd]
    · simp [hd]

theorem Inv.evict (fuel : ℕ) (I : Inv c held) (hfuel : c.notUse.length ≤ fuel) :
    ∃ c' m, c.evict fuel = some c' ∧ Inv c' held ∧ Evicts c c' m := by
  induction fuel generalizing c with
  | zero =>
    have hnil := length_eq_zero_iff.mp (Nat.le_zero.mp hfuel)
    exact ⟨c, 0, rfl, I, evicts_none (.inr hnil)⟩
  | succ fuel ih =>
    cases hl : c.notUse with
    | nil =>
      refine ⟨c, 0, ?_, I, evicts_none (.inr hl)⟩
      rw [Cache.evict, hl]
    | cons e l =>
      by_cases hlarge : c.maxSize < c.size
      · obtain ⟨c₁, hrun, I₁, hl₁, hentry, hsize, hmax⟩ :=
          I.drop (e := e) (by simp [hl]) (.inl rfl)
        rw [hl, erase_cons_head] at hl₁
        rw [hl, length_cons] at hfuel
        obtain ⟨c₂, m, hrun₂, I₂, E⟩ := ih I₁ (by rw [hl₁]; omega)
        refine ⟨c₂, m + 1, ?_, I₂, E.cons hl hlarge hl₁ hentry hsize hmax⟩
        simp only [Cache.evict, hl]
        rw [if_pos hlarge, hrun]
        exact hrun₂
      · refine ⟨c, 0, ?_, I, evicts_none (.inl (Nat.not_lt.mp hlarge))⟩
        simp only [Cache.evict, hl]
        rw [if_neg hlarge]

theorem Inv.get (past : Option ℤ) (I : Inv c held) {k : κ}
    (hfits : ∀ e, c.find k = some e → held.count e + 1 < INT_MAX) :
    ∃ c', c.get past k = some (c', (latest c.log k).map Prod.snd) ∧
      Inv c' (((latest c.log k).map Prod.snd).toList ++ held) ∧ c'.log = c.log ∧
      c'.entry = c.entry ∧ c'.notUse.Sublist c.notUse := by
  cases hlatest : latest c.log k with
  | none =>
    have hfind : c.find k = none := by
      cases hfind : c.find k with
      | none => rfl
      | some e =>
        obtain ⟨v, hv⟩ := I.mapped.find.mp hfind
        rw [(I.mapped.newest k v e).mpr hv] at hlatest
        cases hlatest
    refine ⟨c, ?_, I, rfl, rfl, List.Sublist.refl _⟩
    rw [Cache.get, hfind]
    rfl
  | some p =>
    obtain ⟨v, e⟩ := p
    have hentry := (I.mapped.newest k v e).mp hlatest
    obtain ⟨h, hh, hin, -⟩ := entry_eq_some.mp hentry
    have hfind := I.mapped.find.mpr ⟨v, hentry⟩
    obtain ⟨c', hrun, hcore, hsame, hentry', hnotUse⟩ := I.core.ref past hh (hfits e hfind)
    refine ⟨c', ?_, ⟨hcore, I.mapped.congr hsame.cacheMap hsame.log hentry'⟩, hsame.log, hentry',
      hnotUse⟩
    rw [Cache.get, hfind]
    simp [hrun]

theorem Inv.unref (I : Inv c held) (he : e ∈ held) :
    ∃ c', c.unref e = some c' ∧ Inv c' (held.erase e) ∧ c'.log = c.log ∧ c'.entry = c.entry ∧
      (c'.notUse = c.notUse ∨ e ∉ c.notUse ∧ c'.notUse = c.notUse ++ [e] ∧
        c.dropped c' e = true) := by
  obtain ⟨c', hrun, hcore, hsame, hentry, hnotUse⟩ := I.core.unref he
  exact ⟨c', hrun, ⟨hcore, I.mapped.congr hsame.cacheMap hsame.log hentry⟩, hsame.log, hentry,
    hnotUse.imp_right And.right⟩

theorem Inv.del (past : Option ℤ) (I : Inv c held) {k : κ}
    (hfits : ∀ e, c.find k = some e → held.count e + 1 < INT_MAX) :
    ∃ c', c.del past k = some c' ∧ Inv c' held ∧ c'.notUse.Sublist c.notUse := by
  obtain ⟨c₁, hget, I₁, hlog₁, hentry₁, hsub⟩ := I.get past hfits
  cases hlatest : latest c.log k with
  | none =>
    rw [hlatest] at hget I₁
    refine ⟨c₁.record (.del k), by simp [Cache.del, hget], ⟨I₁.core.record _, ?_⟩, hsub⟩
    obtain ⟨hsorted, hmem, hnewest⟩ := I₁.mapped
    refine ⟨hsorted, hmem, ?_⟩
    intro k' v d
    rw [Cache.record, latest]
    by_cases hk : k = k'
    · rw [if_pos hk, ← hk]
      have hnot := hnewest k v d
      rw [hlog₁, hlatest] at hnot
      exact hnot
    · rw [if_neg hk]
      exact hnewest k' v d
  | some p =>
    obtain ⟨v, e⟩ := p
    rw [hlatest] at hget I₁
    obtain ⟨c₂, hunref, I₂, hlog₂, hentry₂, hmoved⟩ := I₁.unref (e := e) (by simp)
    have hentry : c₂.entry e = some (k, v) := by
      rw [hentry₂, hentry₁]
      exact (I.mapped.newest k v e).mp hlatest
    obtain ⟨c₃, hremove, hcore, hmap, hentry₃, hlog₃, hnotUse, -⟩ := I₂.core.remove hentry
    have hheld : (Option.map Prod.snd (some (v, e))).toList ++ held = e :: held := rfl
    rw [hheld, erase_cons_head] at I₂ hcore
    refine ⟨c₃.record (.del k), by simp [Cache.del, hget, hunref, hremove], ⟨hcore.record _, ?_⟩, ?_⟩
    rotate_left
    · -- `unref` may have put the handle behind the others, and it leaves again
      change c₃.notUse.Sublist c.notUse
      rw [hnotUse]
      rcases hmoved with hsame | ⟨hout, hback, -⟩
      · rw [hsame]
        exact erase_sublist.trans hsub
      · rw [hback, erase_append_right _ hout, erase_cons_head, append_nil]
        exact hsub
    refine I₂.mapped.remove hmap hentry₃ ?_
    intro k' w d
    rw [Cache.record, hlog₃, latest]
    by_cases hk : k = k'
    · subst hk
      rw [if_pos rfl, hlog₂, hlog₁, hlatest]
      simp only [reduceCtorEq, Option.some.injEq, Prod.mk.injEq, false_iff, not_and, not_not]
      exact fun hand => hand.2.symm
    · rw [if_neg hk]
      refine ⟨fun hd => ⟨hd, ?_⟩, fun hd => hd.1⟩
      rintro rfl
      rw [I₂.mapped.newest, hentry] at hd
      cases hd
      exact hk rfl

/-- The handles that may go when `key` is put: those of `not_use`, without the one that the new
    handle replaces. -/
def Cache.unused (key : κ) (c : Cache κ ν) : List HandleId :=
  c.notUse.filter fun e => c.find key ≠ some e

def Cache.grown (key : κ) (c : Cache κ ν) : ℕ :=
  if (c.find key).isSome then c.size else c.size + 1

structure Installs (c c' : Cache κ ν) (k : κ) (v : ν) : Prop extends
    Replaces c c' k v c.next where
  notUse : c'.notUse = c.unused k
  size : c'.size = c.grown k
  maxSize : c'.maxSize = c.maxSize

theorem Inv.install (I : Inv c held) (k : κ) (v : ν) : ∃ c', (match c.find k with
      | some b => { c.enroll k v with cacheMap := c.cacheMap.replace b c.next }.eraseNode b
      | none => some { c.enroll k v with
          cacheMap := c.cacheMap.insert (c.below k) c.next }) = some c' ∧
      Inv c' (c.next :: held) ∧ Installs c c' k v := by
  have C := I.core.enroll k v
  have hnone : c.entry c.next = none := by
    rw [Cache.entry, I.core.fresh.1]
    rfl
  cases hfind : c.find k with
  | some b =>
    obtain ⟨w, hw⟩ := I.mapped.find.mp hfind
    obtain ⟨h, hh, hin, -⟩ := entry_eq_some.mp hw
    have hbe : b ≠ c.next := by
      intro heq
      rw [heq, hnone] at hw
      cases hw
    have hh' : (c.enroll k v).handles b = some h := (update_of_ne hbe _ _).trans hh
    have C' : Core { c.enroll k v with cacheMap := c.cacheMap.replace b c.next }
      (c.next :: held) := { C with }
    obtain ⟨c', hrun, hcore, hsame, hentry, hnotUse⟩ := C'.eraseNode hh' hin
    have hentry' : c'.entry = update (update c.entry c.next (some (k, v)))
        b none := by
      rw [hentry, ← entry_enroll]
      rfl
    have r : Replaces c c' k v c.next := by
      refine ⟨hnone, ?_, ?_, ?_, hsame.log⟩
      · rw [hentry', update_of_ne hbe.symm, update_self]
      · intro d hd _
        rw [hfind] at hd
        cases hd
        rw [hentry', update_self]
      · intro d hd hne
        have hdb : d ≠ b := by
          rintro rfl
          exact hd hfind
        rw [hentry', update_of_ne hdb, update_of_ne hne]
    refine ⟨c', hrun, ⟨hcore, I.mapped.replace r hfind hsame.cacheMap⟩, r, ?_, ?_, hsame.maxSize⟩
    · rw [hnotUse, Cache.unused, hfind]
      refine (I.core.notUse.erase_eq_filter b).trans (filter_congr fun d _ => ?_)
      rw [Bool.eq_iff_iff, bne_iff_ne, decide_eq_true_iff, Ne, Ne, Option.some_inj, eq_comm]
    · rw [hsame.size, Cache.grown, hfind]
      rfl
  | none =>
    obtain ⟨pre, post, hin, hpre, hpost, hinsert, -⟩ :=
      c.cacheMap.insert_spec (I.mapped.below_mono k) c.next
    have hentry := entry_enroll c k v
    have r : Replaces c { c.enroll k v with
        cacheMap := c.cacheMap.insert (c.below k) c.next } k v c.next := by
      refine ⟨hnone, (congrFun hentry _).trans (update_self _ _ _), ?_, ?_, rfl⟩
      · intro d hd
        rw [hfind] at hd
        cases hd
      · exact fun d _ hne => (congrFun hentry d).trans (update_of_ne hne _ _)
    refine ⟨_, rfl, ⟨{ C with }, ?_⟩, r, ?_, ?_, rfl⟩
    · exact I.mapped.insert r hfind hin hpre hpost hinsert
    · simp [Cache.unused, hfind, Cache.enroll, Cache.setHandle]
    · simp [Cache.grown, hfind, Cache.enroll]

theorem Inv.put (I : Inv c held) (k : κ) (v : ν) :
    ∃ c₁ c', c.put k v = some (c', c.next) ∧ Inv c' (c.next :: held) ∧ Installs c c₁ k v ∧
      c'.notUse.Sublist c.notUse ∧ (0 < c.maxSize → ∃ m, Evicts c₁ c' m) := by
  obtain ⟨c₁, hrun₁, I₁, h⟩ := I.install k v
  have hsub : c₁.notUse.Sublist c.notUse := by
    rw [h.notUse]
    exact filter_sublist
  have hput : c.put k v =
      (if 0 < c₁.maxSize then c₁.evict c₁.notUse.length else some c₁).map (·, c.next) := by
    rw [Cache.put]
    exact congrArg (fun o => Option.bind o fun c' => (if 0 < c'.maxSize then
      c'.evict c'.notUse.length else some c').map fun c' => (c', c.next)) hrun₁
  rw [h.maxSize] at hput
  by_cases hmax : 0 < c.maxSize
  · obtain ⟨c₂, m, hrun₂, I₂, E⟩ := I₁.evict _ (Nat.le_refl _)
    refine ⟨c₁, c₂, ?_, I₂, h, ?_, fun _ => ⟨m, E⟩⟩
    · rw [hput, if_pos hmax, hrun₂]
      rfl
    · rw [E.notUse]
      exact (drop_sublist m _).trans hsub
  · refine ⟨c₁, c₁, ?_, I₁, h, hsub, fun hpos => absurd hpos hmax⟩
    rw [hput, if_neg hmax]
    rfl

theorem Inv.init : Inv (.init : Cache κ ν) [] := by
  refine ⟨⟨nodup_nil, nodup_nil, rfl, ?_⟩, ⟨List.Pairwise.nil, ?_, ?_⟩⟩
  · intro e
    exact ⟨not_mem_nil, not_mem_nil, rfl, fun hborn => absurd hborn (Nat.not_lt_zero _),
      fun _ => rfl⟩
  · intro e
    simp [Cache.init, Cache.entry]
  · intro k v e
    simp [Cache.init, Cache.entry, latest]

theorem Inv.setMaxSize (I : Inv c held) (n : ℕ) : Inv (c.setMaxSize n) held :=
  ⟨{ I.core with }, I.mapped.congr rfl rfl rfl⟩

theorem fits_of_all {s : State κ ν} {k : κ}
    (h : (s.cache.find k).all (fun e => s.held.count e + 1 < INT_MAX) = true) {e : HandleId}
    (he : s.cache.find k = some e) : s.held.count e + 1 < INT_MAX := by
  rwa [he, Option.all_some, decide_eq_true_iff] at h

theorem step_spec (past : Option ℤ) {s : State κ ν} {a : Action κ ν} (I : Inv s.cache s.held)
    (ha : Allowed s a) : ∃ s', step past s a = some s' ∧ Inv s'.cache s'.held ∧
      (s'.cache.notUse.Sublist s.cache.notUse ∨ ∃ e ∉ s.cache.notUse,
        s'.cache.notUse = s.cache.notUse ++ [e] ∧ s.cache.dropped s'.cache e = true) := by
  cases a with
  | get k =>
    obtain ⟨c', hrun, I', -, -, hsub⟩ := I.get past (fun _ => fits_of_all ha)
    exact ⟨_, by rw [step, hrun]; rfl, I', .inl hsub⟩
  | put k v =>
    obtain ⟨-, c', hrun, I', -, hsub, -⟩ := I.put k v
    exact ⟨_, by rw [step, hrun]; rfl, I', .inl hsub⟩
  | del k =>
    obtain ⟨c', hrun, I', hsub⟩ := I.del past (fun _ => fits_of_all ha)
    exact ⟨_, by rw [step, hrun]; rfl, I', .inl hsub⟩
  | release e =>
    obtain ⟨c', hrun, I', -, -, hmoved⟩ := I.unref ha
    refine ⟨_, by rw [step, hrun]; rfl, I', hmoved.imp ?_ (fun h => ⟨e, h⟩)⟩
    intro hsame
    rw [hsame]
  | prune =>
    obtain ⟨c', hrun, I', hnil⟩ := I.prune
    exact ⟨_, by rw [step, hrun]; rfl, I', .inl (by simp [hnil])⟩
  | setMaxSize n => exact ⟨_, rfl, I.setMaxSize n, .inl (List.Sublist.refl _)⟩

theorem reaches_inv {past : Option ℤ} {s : State κ ν}
    (hs : Reaches (step past) Allowed (.init κ ν) s) :
    Inv s.cache s.held := by
  refine hs.invariant (P := fun s => Inv s.cache s.held) Inv.init ?_
  intro s a s' I ha hstep
  obtain ⟨s₁, hs₁, I₁, -⟩ := step_spec past I ha
  rw [hstep] at hs₁
  cases hs₁
  exact I₁

theorem Mapped.mem_handles (M : Mapped c) :
    e ∈ c.cacheMap.list ↔ ∃ h, c.handles e = some h ∧ h.inCache = true := by
  rw [M.mem]
  simp only [entry_eq_some]
  constructor
  · rintro ⟨p, h, hh, hin, -⟩
    exact ⟨h, hh, hin⟩
  · rintro ⟨h, hh, hin⟩
    exact ⟨_, h, hh, hin, rfl⟩

theorem Inv.size (I : Inv c held) : c.size = c.cacheMap.list.length := by
  have hdisjoint : ∀ a ∈ c.notUse, ∀ b ∈ c.inUse, a ≠ b := by
    rintro a ha b hb rfl
    obtain ⟨h, hh, -, hone⟩ := I.core.mem_notUse ha
    obtain ⟨h', hh', -, htwo⟩ := I.core.mem_inUse.mp hb
    rw [hh] at hh'
    cases hh'
    omega
  have hnodup := nodup_append.mpr ⟨I.core.notUse, I.core.inUse, hdisjoint⟩
  have hperm : c.cacheMap.list.Perm (c.notUse ++ c.inUse) := by
    rw [perm_ext_iff_of_nodup I.mapped.nodup hnodup]
    intro e
    rw [I.mapped.mem_handles, mem_append]
    constructor
    · rintro ⟨h, hh, hin⟩
      exact I.core.linked hh hin
    · rintro (he | he)
      · obtain ⟨h, hh, hin, -⟩ := I.core.mem_notUse he
        exact ⟨h, hh, hin⟩
      · obtain ⟨h, hh, hin, -⟩ := I.core.mem_inUse.mp he
        exact ⟨h, hh, hin⟩
  rw [hperm.length_eq, length_append, I.core.size]

theorem Inv.deleted (I : Inv c held) (he : e < c.next) :
    c.deleted.count e = if e ∈ held ∨ e ∈ c.cacheMap.list then 0 else 1 := by
  have hsound := I.core.sound e
  cases hh : c.handles e with
  | none =>
    rw [hh] at hsound
    obtain ⟨-, -, hclients, hdeleted, -⟩ := hsound
    have hheld : e ∉ held := count_eq_zero.mp hclients
    have hmap : e ∉ c.cacheMap.list := by
      rw [I.mapped.mem_handles]
      simp [hh]
    rw [hdeleted he, if_neg (not_or.mpr ⟨hheld, hmap⟩)]
  | some h =>
    obtain ⟨-, hdeleted, href, hpos, -⟩ := I.core.sound_of hh
    rw [hdeleted, if_pos]
    by_cases hin : h.inCache = true
    · exact .inr (I.mapped.mem_handles.mpr ⟨h, hh, hin⟩)
    · rw [if_neg hin] at href
      exact .inl (count_pos_iff.mp (by omega))

omit [LinearOrder κ] in
theorem destroy_loop (n : ℕ) (l : List HandleId) (hnodup : l.Nodup)
    (hleft : ∀ e ∈ l, ∃ h, c.handles e = some h ∧ h.inCache = true ∧ h.ref = 1)
    (hdeleted : ∀ e < n, c.deleted.count e = if e ∈ l then 0 else 1) :
    ∃ c', l.foldlM (fun c e => match c.handles e with
      | none => none
      | some h => if h.inCache ∧ h.ref = 1 then
          (c.setHandle e (some { h with inCache := false })).unref e
        else none) c = some c' ∧ ∀ e < n, c'.deleted.count e = 1 := by
  induction l generalizing c with
  | nil => exact ⟨c, rfl, by simpa using hdeleted⟩
  | cons e l ih =>
    obtain ⟨hout, hnodup⟩ := nodup_cons.mp hnodup
    obtain ⟨h, hh, hin, hone⟩ := hleft e mem_cons_self
    have hrun : (c.setHandle e (some { h with inCache := false })).unref e =
        some { (c.setHandle e (some { h with inCache := false })).setHandle e none with
          deleted := e :: c.deleted } := by
      simp [Cache.unref, Cache.setHandle, hone]
    obtain ⟨c', hrun', hend⟩ := ih (c := { (c.setHandle e
      (some { h with inCache := false })).setHandle e none with deleted := e :: c.deleted }) hnodup (by
        intro d hd
        have hne : d ≠ e := ne_of_mem_of_not_mem hd hout
        simpa [Cache.setHandle, update_of_ne hne] using
          hleft d (mem_cons_of_mem _ hd)) (by
        intro d hd
        have hold := hdeleted d hd
        by_cases hde : d = e
        · subst hde
          rw [if_pos mem_cons_self] at hold
          rw [count_cons_self, hold, if_neg hout]
        · rw [count_cons_of_ne (Ne.symm hde), hold]
          simp [hde])
    refine ⟨c', ?_, hend⟩
    rw [foldlM_cons]
    simp only [hh]
    rw [if_pos ⟨hin, hone⟩, hrun]
    exact hrun'

theorem Inv.destroy (I : Inv c []) :
    ∃ c', c.destroy = some c' ∧ ∀ e < c.next, c'.deleted.count e = 1 := by
  have hinUse : c.inUse = [] := by
    rw [eq_nil_iff_forall_not_mem]
    intro e he
    obtain ⟨h, hh, hin, htwo⟩ := I.core.mem_inUse.mp he
    have href := (I.core.sound_of hh).2.2.1
    rw [hin, if_pos rfl, count_nil] at href
    omega
  rw [Cache.destroy, if_pos hinUse]
  refine destroy_loop c.next c.notUse I.core.notUse (fun e he => I.core.mem_notUse he) ?_
  intro e he
  rw [I.deleted he]
  have hmem : e ∈ c.cacheMap.list ↔ e ∈ c.notUse := by
    rw [I.mapped.mem_handles]
    constructor
    · rintro ⟨h, hh, hin⟩
      simpa [hinUse] using I.core.linked hh hin
    · intro hmem
      obtain ⟨h, hh, hin, -⟩ := I.core.mem_notUse hmem
      exact ⟨h, hh, hin⟩
  simp only [not_mem_nil, false_or, hmem]

/-- For a client that releases what it holds no operation fails, `get` finds the latest entry, and
    each value is given to the deleter once, after the handle has left the cache and all hands. -/
theorem lru_cache_sound (past : Option ℤ) {s : State κ ν}
    (hs : Reaches (step past) Allowed (.init κ ν) s) :
    (s.cache.notUse.Nodup ∧ ∀ e, e ∈ s.cache.notUse ↔
      ∃ h, s.cache.handles e = some h ∧ h.inCache = true ∧ h.ref = 1) ∧
    (s.cache.inUse.Nodup ∧ ∀ e, e ∈ s.cache.inUse ↔
      ∃ h, s.cache.handles e = some h ∧ h.inCache = true ∧ 2 ≤ h.ref) ∧
    (s.cache.cacheMap.list.map fun e => (s.cache.handles e).map Handle.key).Nodup ∧
    (∀ e, e ∈ s.cache.cacheMap.list ↔
      ∃ h, s.cache.handles e = some h ∧ h.inCache = true) ∧
    s.cache.size = s.cache.cacheMap.list.length ∧
    (∀ e h, s.cache.handles e = some h →
      h.ref = (if h.inCache then 1 else 0) + (s.held.count e : ℤ)) ∧
    (∀ a, Allowed s a → ∃ s', step past s a = some s') ∧
    (∀ k, Allowed s (.get k) →
      ∃ c', s.cache.get past k = some (c', (latest s.cache.log k).map Prod.snd) ∧
      ∀ v e, latest s.cache.log k = some (v, e) →
        ∃ h, c'.handles e = some h ∧ h.key = k ∧ h.value = v) ∧
    (∀ e < s.cache.next, s.cache.deleted.count e =
      if e ∈ s.held ∨ e ∈ s.cache.cacheMap.list then 0 else 1) ∧
    (s.held = [] → ∃ c', s.cache.destroy = some c' ∧
      ∀ e < s.cache.next, c'.deleted.count e = 1) := by
  have I := reaches_inv hs
  refine ⟨⟨I.core.notUse, ?_⟩, ⟨I.core.inUse, fun e => I.core.mem_inUse⟩, ?_,
    fun e => I.mapped.mem_handles, I.size, ?_, ?_, ?_, fun e he => I.deleted he, ?_⟩
  · intro e
    refine ⟨fun he => I.core.mem_notUse he, ?_⟩
    rintro ⟨h, hh, hin, hone⟩
    exact (I.core.sound_of hh).2.2.2.2.1.mpr ⟨hin, hone⟩
  · rw [List.Nodup, pairwise_map]
    refine I.mapped.sorted.imp ?_
    rintro a b ⟨p, q, hp, hq, hlt⟩ heq
    obtain ⟨h, hh, -, rfl⟩ := entry_eq_some.mp hp
    obtain ⟨h', hh', -, rfl⟩ := entry_eq_some.mp hq
    rw [hh, hh'] at heq
    exact absurd (Option.some.inj heq) (ne_of_lt hlt)
  · exact fun e h hh => (I.core.sound_of hh).2.2.1
  · intro a ha
    obtain ⟨s', hs', -⟩ := step_spec past I ha
    exact ⟨s', hs'⟩
  · intro k hk
    obtain ⟨c', hrun, -, -, hentry, -⟩ := I.get past (fun _ => fits_of_all hk)
    refine ⟨c', hrun, ?_⟩
    intro v e hlatest
    have he := (I.mapped.newest k v e).mp hlatest
    rw [← hentry] at he
    obtain ⟨h, hh, -, hkv⟩ := entry_eq_some.mp he
    cases hkv
    exact ⟨h, hh, rfl, rfl⟩
  · intro hheld
    rw [hheld] at I
    exact I.destroy

end Map

def lruRun : List (Action ℕ Bool) :=
  [.setMaxSize 1, .put 5 true, .put 5 false, .release 0, .release 1, .put 3 true]

theorem lruRun_sound :
    ∃ s, guardedRun (step none) Allowed (.init ℕ Bool) lruRun = some s ∧
      s.cache.deleted.count 1 = 1 ∧ s.cache.size = 1 ∧
      ∃ c', s.cache.get none 3 = some (c', some 2) := by
  obtain ⟨s, hrun, hend⟩ := (Option.any_eq_true _ _).mp (by decide +kernel :
    (guardedRun (step none) Allowed (.init ℕ Bool) lruRun).any (fun s => s.cache.next = 3 ∧
      s.held = [2] ∧ s.cache.cacheMap.list = [2] ∧ latest s.cache.log 3 = some (true, 2) ∧
      Allowed s (.get 3)) = true)
  obtain ⟨hnext, hheld, hmap, hlatest, hallowed⟩ := of_decide_eq_true hend
  obtain ⟨-, -, -, -, hsize, -, -, hget, hdeleted, -⟩ :=
    lru_cache_sound none (reaches_of_guardedRun lruRun .start hrun)
  refine ⟨s, hrun, ?_, ?_, ?_⟩
  · rw [hdeleted 1 (by rw [hnext]; decide), hheld, hmap]
    decide
  · rw [hsize, hmap]
    rfl
  · obtain ⟨c', hc', -⟩ := hget 3 hallowed
    rw [hlatest] at hc'
    exact ⟨c', hc'⟩

/-! ## A handle in too many hands -/

/-- One entry, counted as `ref`, of which `n` handles are out. -/
def heldTimes (maxSize : ℕ) (ref : ℤ) (n : ℕ) : State ℕ Bool where
  cache := {
    maxSize := maxSize
    size := 1
    notUse := []
    inUse := [0]
    cacheMap := RbRoot.empty.insert (fun _ => true) 0
    handles := update (fun _ => none) 0 (some ⟨true, 5, true, ref⟩)
    next := 1
    deleted := []
    log := [.put 5 true 0] }
  held := List.replicate n 0

variable {past : Option ℤ} {maxSize n : ℕ} {ref : ℤ}

theorem heldTimes_get : step past (heldTimes maxSize ref n) (.get 5) =
    (increment past ref).map fun ref => heldTimes maxSize ref (n + 1) := by
  have hfind : (heldTimes maxSize ref n).cache.find 5 = some 0 := rfl
  have hmove : (if True ∧ ref = 1 then (heldTimes maxSize ref n).cache.listMoveInUse 0
      else some (heldTimes maxSize ref n).cache) = some (heldTimes maxSize ref n).cache := by
    split_ifs <;> rfl
  have hhandle : (heldTimes maxSize ref n).cache.handles 0 = some ⟨true, 5, true, ref⟩ := rfl
  rw [step, Cache.get, hfind]
  simp only [Cache.ref, hhandle]
  rw [hmove, Option.bind_some]
  cases increment past ref with
  | none => rfl
  | some ref' => simp [heldTimes, Cache.setHandle, replicate_succ]

theorem heldTimes_reaches {s₀ : State ℕ Bool}
    (h : Reaches (step past) Released s₀ (heldTimes maxSize ref n)) {k : ℕ}
    (hk : ref + k ≤ INT_MAX) :
    Reaches (step past) Released s₀ (heldTimes maxSize (ref + k) (n + k)) := by
  induction k with
  | zero => simpa using h
  | succ k ih =>
    refine (ih (by omega)).next (a := .get 5) trivial ?_
    rw [heldTimes_get, increment, if_pos (by omega), Int.natCast_succ, ← Int.add_assoc]
    rfl

/-- After a `put` and 2³¹ − 3 times `get` the count is at `INT_MAX`, and the next `get` takes it
    beyond. -/
theorem next_get_undefined : ∃ s, Reaches (step none) Released (.init ℕ Bool) s ∧
    s.held = List.replicate (2 ^ 31 - 2) 0 ∧ step none s (.get 5) = none := by
  have hput : Reaches (step none) Released (.init ℕ Bool) (heldTimes 0 2 1) :=
    Reaches.start.next (a := .put 5 true) trivial rfl
  refine ⟨_, heldTimes_reaches hput (k := 2 ^ 31 - 3) (by decide), ?_, ?_⟩
  · exact congrArg (List.replicate · 0) (by decide)
  · rw [heldTimes_get, increment, if_neg (by decide)]
    rfl

end MyWorkflow.Lru
