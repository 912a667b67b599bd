import MyWorkflow.UriParser

set_option autoImplicit false

namespace MyWorkflow.Uri
open Function List CString StringUtil

/-! ## Index tables -/

namespace Scan

@[simp] theorem setStart_start (p : Part) (i : ℕ) (st : Scan) :
    (st.setStart p i).start = update st.start p i := rfl

@[simp] theorem setStart_stop (p : Part) (i : ℕ) (st : Scan) : (st.setStart p i).stop = st.stop := rfl

@[simp] theorem setStart_preState (p : Part) (i : ℕ) (st : Scan) :
    (st.setStart p i).preState = st.preState := rfl

@[simp] theorem setStart_inIpv6 (p : Part) (i : ℕ) (st : Scan) :
    (st.setStart p i).inIpv6 = st.inIpv6 := rfl

@[simp] theorem setStart_skipPath (p : Part) (i : ℕ) (st : Scan) :
    (st.setStart p i).skipPath = st.skipPath := rfl

@[simp] theorem setStop_start (p : Part) (i : ℕ) (st : Scan) : (st.setStop p i).start = st.start := rfl

@[simp] theorem setStop_stop (p : Part) (i : ℕ) (st : Scan) :
    (st.setStop p i).stop = update st.stop p i := rfl

@[simp] theorem setStop_inIpv6 (p : Part) (i : ℕ) (st : Scan) :
    (st.setStop p i).inIpv6 = st.inIpv6 := rfl

@[simp] theorem setStop_skipPath (p : Part) (i : ℕ) (st : Scan) :
    (st.setStop p i).skipPath = st.skipPath := rfl

@[simp] theorem setPre_start (p : Option Part) (st : Scan) : (st.setPre p).start = st.start := rfl

@[simp] theorem setPre_stop (p : Option Part) (st : Scan) : (st.setPre p).stop = st.stop := rfl

@[simp] theorem setPre_preState (p : Option Part) (st : Scan) : (st.setPre p).preState = p := rfl

@[simp] theorem setPre_inIpv6 (p : Option Part) (st : Scan) : (st.setPre p).inIpv6 = st.inIpv6 := rfl

@[simp] theorem setPre_skipPath (p : Option Part) (st : Scan) :
    (st.setPre p).skipPath = st.skipPath := rfl

theorem close_some {st : Scan} {p : Part} (h : st.preState = some p) (i : ℕ) :
    st.close i = st.setStop p i := by
  rw [close, h]

@[simp] theorem close_start (i : ℕ) (st : Scan) : (st.close i).start = st.start := by
  unfold close
  split <;> rfl

@[simp] theorem close_inIpv6 (i : ℕ) (st : Scan) : (st.close i).inIpv6 = st.inIpv6 := by
  unfold close
  split <;> rfl

@[simp] theorem close_skipPath (i : ℕ) (st : Scan) : (st.close i).skipPath = st.skipPath := by
  unfold close
  split <;> rfl

structure Within (n : ℕ) (st : Scan) : Prop where
  start : ∀ p, st.start p ≤ n
  stop : ∀ p, st.stop p ≤ n

theorem update_le {f : Part → ℕ} {n i : ℕ} {p : Part} (h : ∀ q, f q ≤ n) (hi : i ≤ n) :
    ∀ q, update f p i q ≤ n := by
  intro q
  by_cases hq : q = p
  · rw [hq, update_self]
    exact hi
  · rw [update_of_ne hq]
    exact h q

theorem Within.setStart {n i : ℕ} {st : Scan} (h : Within n st) (p : Part) (hi : i ≤ n) :
    Within n (st.setStart p i) := ⟨update_le h.start hi, h.stop⟩

theorem Within.setStop {n i : ℕ} {st : Scan} (h : Within n st) (p : Part) (hi : i ≤ n) :
    Within n (st.setStop p i) := ⟨h.start, update_le h.stop hi⟩

theorem Within.setPre {n : ℕ} {st : Scan} (h : Within n st) (p : Option Part) :
    Within n (st.setPre p) := ⟨h.start, h.stop⟩

theorem Within.close {n i : ℕ} {st : Scan} (h : Within n st) (hi : i ≤ n) :
    Within n (st.close i) := by
  unfold Scan.close
  split
  · exact h.setStop _ hi
  · exact h

theorem fits_of_within {n i : ℕ} {st : Scan} (h : Within n st) (hi : i ≤ n) (hn : n ≤ INT_MAX) :
    st.fits i = true := by
  rw [fits, Bool.and_eq_true, decide_eq_true_eq, all_eq_true]
  refine ⟨hi.trans hn, fun p _ => ?_⟩
  rw [Bool.and_eq_true, decide_eq_true_eq, decide_eq_true_eq]
  exact ⟨(h.start p).trans hn, (h.stop p).trans hn⟩

theorem le_of_fits {i : ℕ} {st : Scan} (h : st.fits i = true) :
    i ≤ INT_MAX ∧ ∀ p, st.stop p ≤ INT_MAX := by
  rw [fits, Bool.and_eq_true, decide_eq_true_eq, all_eq_true] at h
  refine ⟨h.1, fun p => ?_⟩
  have hp := h.2 p (by cases p <;> decide)
  rw [Bool.and_eq_true, decide_eq_true_eq, decide_eq_true_eq] at hp
  exact hp.2

end Scan

open Scan

/-! ## One turn of the authority loop -/

theorem turn_eq (prev c : UInt8) (next : Option UInt8) (i : ℕ) (st : Scan) :
    turn prev c next i st =
      if c = 64 then st.atUserinfo next i
      else if c = 58 then st.atHost prev i
      else if c = 63 then st.atQuery i
      else st := by
  by_cases h64 : c = 64
  · subst h64
    rfl
  by_cases h58 : c = 58
  · subst h58
    rfl
  by_cases h63 : c = 63
  · subst h63
    rfl
  have hmap : authorityMap c = none ∨ authorityMap c = some .fragment ∨
      authorityMap c = some .path ∨ authorityMap c = some .scheme := by
    simp only [authorityMap, h64, h58, h63, ↓reduceIte]
    split_ifs <;> simp
  rw [if_neg h64, if_neg h58, if_neg h63, turn]
  obtain h | h | h | h := hmap <;> rw [h]

theorem Scan.atHost_eq (prev : UInt8) (i : ℕ) (st : Scan) :
    st.atHost prev i =
      if st.inIpv6 = true ∧ prev ≠ 93 then st
      else (({ st with inIpv6 := false }.setStop .host i).setStart .port (i + 1)).setPre
        (some .port) := by
  obtain ⟨start, stop, pre, inIpv6, skipPath⟩ := st
  by_cases hprev : prev = 93
  · simp [atHost, hprev]
  · cases inIpv6 <;> simp [atHost, hprev]

theorem Scan.atUserinfo_eq (next : Option UInt8) (i : ℕ) (st : Scan) :
    st.atUserinfo next i =
      (({ st with inIpv6 := st.inIpv6 || next == some 91 }.setStop .userinfo i).setStart .host
        (i + 1)).setPre (some .host) := by
  obtain ⟨start, stop, pre, inIpv6, skipPath⟩ := st
  by_cases hnext : next = some 91
  · simp [atUserinfo, hnext]
  · have hbeq : (next == some 91) = false := beq_eq_false_iff_ne.mpr hnext
    simp [atUserinfo, hnext, hbeq]

theorem turn_plain {c : UInt8} (h64 : c ≠ 64) (h58 : c ≠ 58) (h63 : c ≠ 63) (prev : UInt8)
    (next : Option UInt8) (i : ℕ) (st : Scan) : turn prev c next i st = st := by
  rw [turn_eq, if_neg h64, if_neg h58, if_neg h63]

theorem turn_skipPath (prev c : UInt8) (next : Option UInt8) (i : ℕ) (st : Scan) :
    (turn prev c next i st).skipPath = (st.skipPath || c == 63) := by
  rw [turn_eq]
  by_cases h64 : c = 64
  · simp [h64, atUserinfo_eq]
  by_cases h58 : c = 58
  · rw [if_neg h64, if_pos h58, atHost_eq]
    split_ifs <;> simp [h58]
  by_cases h63 : c = 63
  · simp [h63, atQuery]
  · simp [h64, h58, h63]

theorem turn_next {c : UInt8} {next next' : Option UInt8}
    (h : c = 64 → (next = some 91 ↔ next' = some 91)) (prev : UInt8) (i : ℕ) (st : Scan) :
    turn prev c next i st = turn prev c next' i st := by
  rw [turn_eq, turn_eq]
  by_cases hc : c = 64
  · rw [if_pos hc, if_pos hc, atUserinfo, atUserinfo]
    simp only [h hc]
  · rw [if_neg hc, if_neg hc]

theorem Scan.Within.turn {n i : ℕ} {st : Scan} (h : Within n st) (prev c : UInt8)
    (next : Option UInt8) (hi : i < n) : Within n (turn prev c next i st) := by
  rw [turn_eq]
  split_ifs
  · rw [atUserinfo_eq]
    have hflag : Within n { st with inIpv6 := st.inIpv6 || next == some 91 } := ⟨h.start, h.stop⟩
    exact ((hflag.setStop _ hi.le).setStart _ hi).setPre _
  · rw [atHost_eq]
    have hflag : Within n { st with inIpv6 := false } := ⟨h.start, h.stop⟩
    split_ifs
    · exact h
    · exact ((hflag.setStop _ hi.le).setStart _ hi).setPre _
  · have hclose := ((h.close hi.le).setStart .query hi).setPre (some .query)
    exact ⟨hclose.start, hclose.stop⟩
  · exact h

/-! ## The loops -/

theorem schemeLoop_append {scheme : Bytes} (h : 58 ∉ scheme) (s : Bytes) (i : ℕ) :
    schemeLoop (scheme ++ 58 :: s) i = (i + scheme.length, i + scheme.length + 1, s) := by
  induction scheme generalizing i with
  | nil => simp [schemeLoop]
  | cons c scheme ih =>
    rw [mem_cons, not_or] at h
    have hi : i + 1 + scheme.length = i + (scheme.length + 1) := by omega
    rw [cons_append, schemeLoop, if_neg (fun hc => h.1 hc.symm), ih h.2, length_cons, hi]

def walk : UInt8 → Bytes → ℕ → Scan → Scan
  | _, [], _, st => st
  | prev, c :: s, i, st => walk c s (i + 1) (turn prev c s.head? i st)

def Passes (skipPath : Bool) (w : Bytes) : Prop :=
  0 ∉ w ∧ 35 ∉ w ∧ (skipPath = true ∨ 47 ∉ w)

theorem authorityLoop_cons {st : Scan} {c : UInt8} (h0 : c ≠ 0) (h35 : c ≠ 35)
    (h47 : st.skipPath = true ∨ c ≠ 47) (prev : UInt8) (s : Bytes) (i : ℕ) :
    authorityLoop prev (c :: s) i st = authorityLoop c s (i + 1) (turn prev c s.head? i st) := by
  by_cases hslash : c = 47
  · have hskip : st.skipPath = true := h47.resolve_right (fun h => h hslash)
    subst hslash
    rw [turn_plain (by decide) (by decide) (by decide), authorityLoop]
    simp [authorityMap, hskip]
  · have hmap : authorityMap c ≠ none ∧ authorityMap c ≠ some .fragment ∧
        authorityMap c ≠ some .path := by
      simp only [authorityMap, h0, h35, hslash, ↓reduceIte]
      split_ifs <;> simp
    obtain ⟨hnone, hfragment, hpath⟩ := hmap
    rw [authorityLoop]
    split
    · contradiction
    · contradiction
    · contradiction
    · rfl

theorem authorityLoop_append {w : Bytes} {st : Scan} (hw : Passes st.skipPath w) (prev : UInt8)
    (s : Bytes) (i : ℕ) (hs : w.getLast? = some 64 → s.head? ≠ some 91) :
    authorityLoop prev (w ++ s) i st =
      authorityLoop (w.getLastD prev) s (i + w.length) (walk prev w i st) := by
  induction w generalizing prev i st with
  | nil => rfl
  | cons c w ih =>
    obtain ⟨h0, h35, h47⟩ := hw
    rw [mem_cons, not_or] at h0 h35
    have hslash : st.skipPath = true ∨ c ≠ 47 := h47.imp_right (fun h hc => h (by simp [hc]))
    have hnext : turn prev c (w ++ s).head? i st = turn prev c w.head? i st := by
      apply turn_next
      intro hc
      cases w with
      | nil =>
        have hhead := hs (by simp [hc])
        simp [hhead]
      | cons d w => rfl
    have hpass : Passes (turn prev c w.head? i st).skipPath w := by
      refine ⟨h0.2, h35.2, ?_⟩
      rw [turn_skipPath, Bool.or_eq_true]
      exact h47.imp .inl (fun h hc => h (by simp [hc]))
    have hlast : w.getLast? = some 64 → s.head? ≠ some 91 := by
      intro hw
      apply hs
      rw [List.getLast?_cons, hw]
      rfl
    rw [cons_append, authorityLoop_cons (Ne.symm h0.1) (Ne.symm h35.1) hslash, hnext,
      ih hpass c (i + 1) hlast, walk, length_cons, getLastD_cons]
    congr 1
    omega

theorem walk_within {n i : ℕ} {st : Scan} (w : Bytes) (prev : UInt8) (h : Within n st)
    (hi : i + w.length ≤ n) : Within n (walk prev w i st) := by
  induction w generalizing prev i st with
  | nil => exact h
  | cons c w ih =>
    rw [length_cons] at hi
    exact ih c (h.turn prev c _ (by omega)) (by omega)

theorem authorityLoop_spec {s s' : Bytes} {prev : UInt8} {i i' n : ℕ} {st st' : Scan} (h0 : 0 ∉ s)
    (hn : n = i + s.length) (hst : Within n st)
    (h : authorityLoop prev s i st = (s', i', st')) :
    n = i' + s'.length ∧ Within n st' ∧ 0 ∉ s' ∧
      (st'.skipPath = true → s' = [] ∨ st'.preState = none ∧ st'.stop .fragment = n) := by
  induction s generalizing prev i st with
  | nil =>
    cases h
    exact ⟨hn, ⟨hst.start, hst.stop⟩, h0, fun _ => .inl rfl⟩
  | cons c s ih =>
    rw [mem_cons, not_or] at h0
    rw [length_cons] at hn
    by_cases h35 : c = 35
    · subst h35
      rw [authorityLoop] at h
      simp only [authorityMap] at h
      have hclose := (((hst.close (i := i) (by omega)).setStart .fragment (i := i + 1)
        (by omega)).setStop .fragment hn.ge).setPre none
      cases h
      refine ⟨by simp [hn], ⟨hclose.start, hclose.stop⟩, by simpa using h0, fun _ => .inr ⟨rfl, ?_⟩⟩
      simp [hn]
    · by_cases hpass : st.skipPath = true ∨ c ≠ 47
      · rw [authorityLoop_cons (Ne.symm h0.1) h35 hpass] at h
        exact ih h0.2 (by omega) (hst.turn prev c _ (by omega)) h
      · rw [not_or, Bool.not_eq_true, not_not] at hpass
        obtain ⟨hskip, rfl⟩ := hpass
        rw [authorityLoop] at h
        simp only [authorityMap, hskip] at h
        cases h
        refine ⟨by simp [hn], hst.setStart _ (by omega), by simpa using h0, fun hs => ?_⟩
        rw [setStart_skipPath, hskip] at hs
        cases hs

theorem skipQuery_length (c : UInt8) (s : Bytes) (i : ℕ) :
    (skipQuery c s i).2.2 + (skipQuery c s i).2.1.length = i + s.length := by
  induction s generalizing c i with
  | nil => rfl
  | cons d s ih =>
    rw [skipQuery]
    split_ifs
    · simp only [length_cons]
      omega
    · rw [ih, length_cons]
      omega

theorem toFragment_within {n i : ℕ} {st : Scan} (h : Within n st) (hi : i < n) :
    Within n (toFragment i st) := ((h.close hi.le).setStart _ hi).setPre _

theorem pathLoop_spec {s s' : Bytes} {i i' n : ℕ} {st st' : Scan} (hn : n = i + s.length)
    (hst : Within n st) (hpre : st.preState ≠ none) (h : pathLoop s i st = (s', i', st')) :
    n = i' + s'.length ∧ Within n st' ∧ st'.preState ≠ none := by
  induction s generalizing i st with
  | nil =>
    cases h
    exact ⟨hn, hst, hpre⟩
  | cons c s ih =>
    rw [length_cons] at hn
    rw [pathLoop] at h
    split_ifs at h with h63 h35
    · have hquery : Within n (toQuery i st) := ((hst.setStop .path (i := i) (by omega)).setStart
        .query (i := i + 1) (by omega)).setPre (some .query)
      have hlen := skipQuery_length c s i
      generalize skipQuery c s i = r at h hlen
      obtain ⟨d, s₁, i₁⟩ := r
      dsimp only at h hlen
      split_ifs at h
      · cases h
        refine ⟨by rw [length_cons]; omega, toFragment_within hquery (by omega), ?_⟩
        simp [toFragment]
      · cases h
        exact ⟨by omega, hquery, by simp [toQuery]⟩
    · cases h
      refine ⟨by rw [length_cons]; omega, toFragment_within hst (by omega), ?_⟩
      simp [toFragment]
    · exact ih (by omega) hst hpre h

/-! ## The whole scan -/

theorem scanAuthority_spec {colon i i' n : ℕ} {s s' : Bytes} {st' : Scan} (h0 : 0 ∉ s)
    (hcolon : colon ≤ i) (hn : n = i + s.length) (h : scanAuthority colon i s = (s', i', st')) :
    n = i' + s'.length ∧ Within n st' ∧
      (st'.skipPath = true → s' = [] ∨ st'.preState = none ∧ st'.stop .fragment = n) := by
  have hscheme : Within n (({} : Scan).setStop .scheme colon) :=
    (⟨fun _ => Nat.zero_le _, fun _ => Nat.zero_le _⟩ : Within n {}).setStop _ (by omega)
  unfold scanAuthority at h
  split at h
  · next s =>
    simp only [length_cons, mem_cons, not_or] at hn h0
    have hentry : Within n ((if s.head? = some 91 then
        { (({} : Scan).setStop .scheme colon).setPre (some .host) with inIpv6 := true }
        else ((({} : Scan).setStop .scheme colon).setPre (some .host)).setStart .userinfo
          (i + 2)).setStart .host (i + 2)) := by
      refine Within.setStart ?_ _ (by omega)
      split_ifs
      · exact ⟨hscheme.start, hscheme.stop⟩
      · exact (hscheme.setPre _).setStart _ (by omega)
    obtain ⟨hlen, hwithin, -, hend⟩ := authorityLoop_spec h0.2.2 (by omega) hentry h
    exact ⟨hlen, hwithin, hend⟩
  · cases h
    refine ⟨hn, (hscheme.setPre _).setStart _ (by omega), fun hs => ?_⟩
    cases hs

theorem scan_spec {colon i i' n : ℕ} {s : Bytes} {st' : Scan} (h0 : 0 ∉ s) (hcolon : colon ≤ i)
    (hn : n = i + s.length) (h : scan colon i s = (i', st')) :
    i' ≤ n ∧ Within n st' ∧ (i' = n ∨ ∃ p, st'.stop p = n) := by
  rw [scan] at h
  rcases hauth : scanAuthority colon i s with ⟨s₁, i₁, st₁⟩
  obtain ⟨hlen, hwithin, hend⟩ := scanAuthority_spec h0 hcolon hn hauth
  simp only [hauth, close_skipPath] at h
  split_ifs at h with hskip
  · cases h
    refine ⟨by omega, hwithin.close (by omega), ?_⟩
    obtain rfl | ⟨hpre, hstop⟩ := hend hskip
    · exact .inl (by simpa using hlen.symm)
    · refine .inr ⟨.fragment, ?_⟩
      rw [close, hpre]
      exact hstop
  · rcases hpath : pathLoop s₁ i₁ ((st₁.close i₁).setPre (some .path)) with ⟨s₂, i₂, st₂⟩
    obtain ⟨hlen', hwithin', hpre⟩ := pathLoop_spec hlen
      ((hwithin.close (by omega)).setPre _) (by simp) hpath
    simp only [hpath] at h
    cases h
    refine ⟨by omega, hwithin'.close hlen'.ge, .inr ?_⟩
    obtain ⟨p, hp⟩ := Option.ne_none_iff_exists'.mp hpre
    refine ⟨p, ?_⟩
    rw [close_some hp, setStop_stop, update_self, hlen']

theorem scan_fits_iff {colon i : ℕ} {s : Bytes} (h0 : 0 ∉ s) (hcolon : colon ≤ i) :
    (scan colon i s).2.fits (scan colon i s).1 = true ↔ i + s.length ≤ INT_MAX := by
  rcases hscan : scan colon i s with ⟨i', st'⟩
  obtain ⟨hle, hwithin, hend⟩ := scan_spec h0 hcolon rfl hscan
  constructor
  · intro hfits
    obtain ⟨hi, hstop⟩ := le_of_fits hfits
    obtain h | ⟨p, hp⟩ := hend
    · exact h ▸ hi
    · exact hp ▸ hstop p
  · exact fits_of_within hwithin hle

def outcome (str : Bytes) (st : Scan) (uri : ParsedURI) : ℤ × ParsedURI :=
  if st.valid str then (0, st.store str { uri with state := .invalid })
  else (-1, { uri with state := .invalid })

theorem parse_eq {scheme s : Bytes} (hne : scheme ≠ []) (h58 : 58 ∉ scheme) (h0 : 0 ∉ s)
    (uri : ParsedURI) :
    parse (scheme ++ 58 :: s) uri = if (scheme ++ 58 :: s).length ≤ INT_MAX then
      some (outcome (scheme ++ 58 :: s) (scan scheme.length (scheme.length + 1) s).2 uri)
    else none := by
  have hfits := scan_fits_iff (i := scheme.length + 1) h0 (Nat.le_succ scheme.length)
  have hlen : (scheme ++ 58 :: s).length = scheme.length + 1 + s.length := by
    rw [length_append, length_cons]
    omega
  have hcolon : scheme.length ≠ 0 := by simpa using hne
  rw [hlen]
  simp only [parse, schemeLoop_append h58, Nat.zero_add]
  by_cases hle : scheme.length + 1 + s.length ≤ INT_MAX
  · rw [if_neg (by omega), if_neg hcolon, if_pos hle, hfits.mpr hle, Bool.not_true,
      if_neg Bool.false_ne_true, outcome]
    cases (scan scheme.length (scheme.length + 1) s).2.valid (scheme ++ 58 :: s) <;> rfl
  · rw [if_neg hle, if_neg hcolon]
    split_ifs with hi hnot
    · rfl
    · rfl
    · exact absurd (hfits.mp (by simpa using hnot)) hle
    · exact absurd (hfits.mp (by simpa using hnot)) hle

/-! ## Pieces without effect -/

/-- A piece in which the authority loop meets an `@`, or a `:` that it takes for the end of the
    host. -/
def spoils (inIpv6 : Bool) : UInt8 → Bytes → Bool
  | _, [] => false
  | prev, c :: s => c == 64 || c == 58 && (!inIpv6 || prev == 93) || spoils inIpv6 c s

theorem turn_calm {st : Scan} {prev c : UInt8} (h64 : c ≠ 64) (h63 : c ≠ 63)
    (h58 : c = 58 → st.inIpv6 = true ∧ prev ≠ 93) (next : Option UInt8) (i : ℕ) :
    turn prev c next i st = st := by
  by_cases hc : c = 58
  · rw [turn_eq, if_neg h64, if_pos hc, atHost_eq, if_pos (h58 hc)]
  · exact turn_plain h64 hc h63 prev next i st

theorem spoils_cons {inIpv6 : Bool} {prev c : UInt8} {s : Bytes}
    (h : spoils inIpv6 prev (c :: s) = false) :
    c ≠ 64 ∧ (c = 58 → inIpv6 = true ∧ prev ≠ 93) ∧ spoils inIpv6 c s = false := by
  simp only [spoils, Bool.or_eq_false_iff, Bool.and_eq_false_imp, beq_eq_false_iff_ne,
    beq_iff_eq, Bool.not_eq_false'] at h
  exact ⟨h.1.1, h.1.2, h.2⟩

theorem walk_calm {w : Bytes} {prev : UInt8} {st : Scan} (h : spoils st.inIpv6 prev w = false)
    (h63 : 63 ∉ w) (i : ℕ) : walk prev w i st = st := by
  induction w generalizing prev i with
  | nil => rfl
  | cons c w ih =>
    obtain ⟨h64, h58, htail⟩ := spoils_cons h
    rw [mem_cons, not_or] at h63
    rw [walk, turn_calm h64 (Ne.symm h63.1) h58]
    exact ih htail h63.2 (i + 1)

theorem spoils_of_notMem {w : Bytes} (inIpv6 : Bool) (prev : UInt8) (h64 : 64 ∉ w) (h58 : 58 ∉ w) :
    spoils inIpv6 prev w = false := by
  induction w generalizing prev with
  | nil => rfl
  | cons c w ih =>
    rw [mem_cons, not_or] at h64 h58
    have hc64 : (c == 64) = false := beq_eq_false_iff_ne.mpr (Ne.symm h64.1)
    have hc58 : (c == 58) = false := beq_eq_false_iff_ne.mpr (Ne.symm h58.1)
    rw [spoils, hc64, hc58, ih c h64.2 h58.2]
    rfl

/-! ## Parts of the text -/

theorem slice_append (a b c : Bytes) : slice (a ++ (b ++ c)) a.length (a.length + b.length) = b := by
  rw [slice, ← append_assoc, ← length_append, take_left, drop_left]

theorem slice_of_le {str : Bytes} {start stop : ℕ} (h : stop ≤ start) :
    slice str start stop = [] := by
  apply drop_of_length_le
  rw [length_take]
  omega

theorem component_of_le {st : Scan} {p : Part} (h : st.stop p ≤ st.start p) (str : Bytes) :
    st.component str p = none := if_neg (by omega)

def present (b : Bytes) : Option Bytes := if b = [] then none else some b

theorem component_eq {st : Scan} {p : Part} {a b c : Bytes} (hp : p ≠ .host)
    (hstart : st.start p = a.length) (hstop : st.stop p = a.length + b.length) :
    st.component (a ++ (b ++ c)) p = present b := by
  by_cases hb : b = []
  · rw [present, if_pos hb]
    apply component_of_le
    rw [hstart, hstop, hb]
    simp
  · have hpos : 0 < b.length := length_pos_iff.mpr hb
    rw [present, if_neg hb, component, if_pos (by omega), hstart, hstop, slice_append, if_neg]
    exact fun h => hp h.1

theorem slice_valid {st : Scan} {p : Part} {a b c : Bytes} (hstart : st.start p = a.length)
    (hstop : st.stop p = a.length + b.length) (hb : ∀ x ∈ b, validChar p x = true) :
    (slice (a ++ (b ++ c)) (st.start p) (st.stop p)).all (validChar p) = true := by
  rw [hstart, hstop, slice_append]
  exact all_eq_true.mpr hb

theorem slice_valid_of_le {st : Scan} {p : Part} (h : st.stop p ≤ st.start p) (str : Bytes) :
    (slice str (st.start p) (st.stop p)).all (validChar p) = true := by
  rw [slice_of_le h]
  rfl

theorem notMem_of_valid {p : Part} {w : Bytes} {c : UInt8} (hw : ∀ x ∈ w, validChar p x = true)
    (hc : validChar p c = false) : c ∉ w := by
  intro h
  rw [hw c h] at hc
  cases hc

/-! ## Query and fragment behind a path -/

def queryText : Option Bytes → Bytes
  | some q => 63 :: q
  | none => []

def fragmentText : Option Bytes → Bytes
  | some f => 35 :: f
  | none => []

def Scan.locate (p : Part) (i : ℕ) : Option Bytes → Scan → Scan
  | some t, st => (st.setStart p (i + 1)).setStop p (i + 1 + t.length)
  | none, st => st

theorem Scan.locate_other {p r : Part} (h : r ≠ p) (i : ℕ) (o : Option Bytes) (st : Scan) :
    (st.locate p i o).start r = st.start r ∧ (st.locate p i o).stop r = st.stop r := by
  cases o with
  | none => exact ⟨rfl, rfl⟩
  | some t => exact ⟨update_of_ne h _ _, update_of_ne h _ _⟩

theorem Scan.component_locate {st : Scan} {p : Part} (hp : p ≠ .host) (hstop : st.stop p = 0)
    (a : Bytes) (mark : UInt8) (o : Option Bytes) (c : Bytes) :
    (st.locate p a.length o).component
        (a ++ ((match o with
          | some t => mark :: t
          | none => []) ++ c)) p = o.bind present := by
  cases o with
  | none => exact component_of_le (by rw [locate, hstop]; omega) _
  | some t =>
    have hsplit : a ++ (mark :: t ++ c) = (a ++ [mark]) ++ (t ++ c) := by simp
    rw [hsplit]
    apply component_eq hp
    · simp [locate]
    · simp [locate]

structure SameIndices (st st' : Scan) : Prop where
  start : st.start = st'.start
  stop : st.stop = st'.stop

theorem SameIndices.valid {st st' : Scan} (h : SameIndices st st') (str : Bytes) :
    st.valid str = st'.valid str := by
  simp only [Scan.valid, h.start, h.stop]

theorem SameIndices.component {st st' : Scan} (h : SameIndices st st') (str : Bytes) (p : Part) :
    st.component str p = st'.component str p := by
  simp only [Scan.component, h.start, h.stop]

theorem SameIndices.store {st st' : Scan} (h : SameIndices st st') (str : Bytes)
    (uri : ParsedURI) : st.store str uri = st'.store str uri := by
  simp only [Scan.store, h.component]

theorem SameIndices.outcome {st st' : Scan} (h : SameIndices st st') (str : Bytes)
    (uri : ParsedURI) : outcome str st uri = outcome str st' uri := by
  rw [Uri.outcome, Uri.outcome, h.valid, h.store]

theorem pathLoop_append {p : Bytes} (h63 : 63 ∉ p) (h35 : 35 ∉ p) (s : Bytes) (i : ℕ) (st : Scan) :
    pathLoop (p ++ s) i st = pathLoop s (i + p.length) st := by
  induction p generalizing i with
  | nil => rfl
  | cons c p ih =>
    rw [mem_cons, not_or] at h63 h35
    have hi : i + 1 + p.length = i + (p.length + 1) := by omega
    rw [cons_append, pathLoop, if_neg (Ne.symm h63.1), if_neg (Ne.symm h35.1), ih h63.2 h35.2,
      length_cons, hi]

theorem skipQuery_end {q : Bytes} {c : UInt8} (hc : c ≠ 35) (h35 : 35 ∉ q) (i : ℕ) :
    ∃ d, d ≠ 35 ∧ skipQuery c q i = (d, [], i + q.length) := by
  induction q generalizing c i with
  | nil => exact ⟨c, hc, rfl⟩
  | cons d q ih =>
    rw [mem_cons, not_or] at h35
    obtain ⟨e, he, hskip⟩ := ih (Ne.symm h35.1) h35.2 (i + 1)
    refine ⟨e, he, ?_⟩
    rw [skipQuery, if_neg (Ne.symm h35.1), hskip, length_cons]
    congr 2
    omega

theorem skipQuery_fragment {q : Bytes} (h35 : 35 ∉ q) (c : UInt8) (f : Bytes) (i : ℕ) :
    skipQuery c (q ++ 35 :: f) i = (35, f, i + 1 + q.length) := by
  induction q generalizing c i with
  | nil => rfl
  | cons d q ih =>
    rw [mem_cons, not_or] at h35
    have hi : i + 1 + 1 + q.length = i + 1 + (q.length + 1) := by omega
    rw [cons_append, skipQuery, if_neg (Ne.symm h35.1), ih h35.2, length_cons, hi]

theorem pathLoop_fragment (f : Bytes) (i : ℕ) (st : Scan) :
    pathLoop (35 :: f) i st = (35 :: f, i, toFragment i st) := by
  rw [pathLoop, if_neg (by decide), if_pos rfl]

theorem pathLoop_query {q : Bytes} (h35 : 35 ∉ q) (i : ℕ) (st : Scan) :
    pathLoop (63 :: q) i st = ([], i + 1 + q.length, toQuery i st) := by
  obtain ⟨d, hd, hskip⟩ := skipQuery_end (by decide : (63 : UInt8) ≠ 35) h35 i
  rw [pathLoop, if_pos rfl, hskip]
  dsimp only
  rw [if_neg hd, Nat.add_right_comm]

theorem pathLoop_query_fragment {q : Bytes} (h35 : 35 ∉ q) (f : Bytes) (i : ℕ) (st : Scan) :
    pathLoop (63 :: (q ++ 35 :: f)) i st =
      (35 :: f, i + 1 + q.length, toFragment (i + 1 + q.length) (toQuery i st)) := by
  rw [pathLoop, if_pos rfl, skipQuery_fragment h35]
  rfl

def pathTail (s : Bytes) (i : ℕ) (st : Scan) : Scan :=
  let (s, i, st) := pathLoop s i (st.setPre (some .path))
  st.close (i + s.length)

theorem pathTail_spec {p : Bytes} {q f : Option Bytes} (h63 : 63 ∉ p) (h35 : 35 ∉ p)
    (hq : 35 ∉ q.getD []) (i : ℕ) (st : Scan) :
    SameIndices (pathTail (p ++ (queryText q ++ fragmentText f)) i st)
      (((st.setStop .path (i + p.length)).locate .query (i + p.length) q).locate .fragment
        (i + p.length + (queryText q).length) f) := by
  rw [pathTail, pathLoop_append h63 h35]
  generalize i + p.length = j
  cases q with
  | none =>
    cases f with
    | none => exact ⟨rfl, rfl⟩
    | some f =>
      have hj : j + (f.length + 1) = j + 1 + f.length := by omega
      simp only [queryText, fragmentText, nil_append, pathLoop_fragment, length_cons, hj]
      exact ⟨rfl, rfl⟩
  | some q =>
    rw [Option.getD_some] at hq
    cases f with
    | none =>
      simp only [queryText, fragmentText, append_nil, pathLoop_query hq]
      refine ⟨rfl, ?_⟩
      funext r
      cases r <;> simp [toQuery, close, locate, update]
    | some f =>
      have hj : j + (q.length + 1) = j + 1 + q.length := by omega
      have hk : j + 1 + q.length + (f.length + 1) = j + 1 + q.length + 1 + f.length := by omega
      simp only [queryText, fragmentText, cons_append, pathLoop_query_fragment hq,
        length_cons, hj, hk]
      refine ⟨?_, ?_⟩
      · funext r
        cases r <;> simp [toQuery, toFragment, close, locate, update]
      · funext r
        cases r <;> simp [toQuery, toFragment, close, locate, update]

end MyWorkflow.Uri
