import MyWorkflow.UriCompose

set_option autoImplicit false

/-!
# A URI without a path

The authority loop then goes on over the query, where `@`, `:` and `?` still mean something.
-/
namespace MyWorkflow.Uri
open Function List CString StringUtil Scan

structure Open (colon base i : ℕ) (st : Scan) : Prop where
  frame : Frame colon st
  userinfo : st.start .userinfo ≤ base
  host : st.start .host ≤ i
  preState : st.preState = some .host ∨ st.preState = some .port
  skipPath : st.skipPath = false

theorem Open.turn {colon base i : ℕ} {st : Scan} (h : Open colon base i st) {c : UInt8}
    (h63 : c ≠ 63) (prev : UInt8) (next : Option UInt8) :
    Open colon base (i + 1) (turn prev c next i st) := by
  obtain ⟨⟨hscheme, hquery, hfragment⟩, huser, hhost, hpre, hskip⟩ := h
  rw [turn_eq, if_neg h63]
  split_ifs
  · rw [atUserinfo_eq]
    exact ⟨⟨by simpa using hscheme, by simpa using hquery, by simpa using hfragment⟩,
      by simpa using huser, by simp, .inl rfl, hskip⟩
  · rw [atHost_eq]
    split_ifs
    · exact ⟨⟨hscheme, hquery, hfragment⟩, huser, by omega, hpre, hskip⟩
    · exact ⟨⟨by simpa using hscheme, by simpa using hquery, by simpa using hfragment⟩,
        by simpa using huser, by simpa using Nat.le_succ_of_le hhost, .inr rfl, hskip⟩
  · exact ⟨⟨hscheme, hquery, hfragment⟩, huser, by omega, hpre, hskip⟩

theorem Open.walk {colon base i : ℕ} {st : Scan} {w : Bytes} (h : Open colon base i st)
    (h63 : 63 ∉ w) (prev : UInt8) : Open colon base (i + w.length) (walk prev w i st) := by
  induction w generalizing prev i st with
  | nil => exact h
  | cons c w ih =>
    rw [mem_cons, not_or] at h63
    have hnext := ih (h.turn (Ne.symm h63.1) prev w.head?) h63.2 c
    rw [length_cons]
    rwa [Nat.add_right_comm, Nat.add_assoc] at hnext

theorem Entry.toOpen {colon i : ℕ} {s : Bytes} {st : Scan} (h : Entry colon i s st)
    (hle : st.start .userinfo ≤ i) : Open colon i i st :=
  ⟨h.frame, hle, h.host.le, .inl h.preState, h.skipPath⟩

def bracketOpen (inIpv6 : Bool) : UInt8 → Bytes → Bool
  | _, [] => inIpv6
  | prev, c :: s =>
    bracketOpen (if c = 64 then inIpv6 || s.head? == some 91
      else if c = 58 ∧ prev = 93 then false else inIpv6) c s

theorem turn_inIpv6 {c : UInt8} (prev : UInt8) (next : Option UInt8) (i : ℕ) (st : Scan) :
    (turn prev c next i st).inIpv6 = if c = 64 then st.inIpv6 || next == some 91
      else if c = 58 ∧ prev = 93 then false else st.inIpv6 := by
  rw [turn_eq]
  by_cases h64 : c = 64
  · rw [if_pos h64, if_pos h64, atUserinfo_eq]
    rfl
  · rw [if_neg h64, if_neg h64]
    by_cases h58 : c = 58
    · rw [if_pos h58, atHost_eq]
      by_cases hprev : prev = 93
      · rw [if_neg (fun h => h.2 hprev), if_pos ⟨h58, hprev⟩]
        rfl
      · rw [if_neg (fun h : c = 58 ∧ prev = 93 => hprev h.2)]
        cases hflag : st.inIpv6 with
        | true => rw [if_pos ⟨rfl, hprev⟩, hflag]
        | false =>
          rw [if_neg (fun h => Bool.false_ne_true h.1)]
          rfl
    · have hnot : ¬(c = 58 ∧ prev = 93) := fun h => h58 h.1
      rw [if_neg h58, if_neg hnot]
      split_ifs
      · simp [atQuery]
      · rfl

theorem walk_inIpv6 (w : Bytes) (prev : UInt8) (i : ℕ) (st : Scan) :
    (walk prev w i st).inIpv6 = bracketOpen st.inIpv6 prev w := by
  induction w generalizing prev i st with
  | nil => rfl
  | cons c w ih => rw [walk, ih, turn_inIpv6, bracketOpen]

def Spoilt (j : ℕ) (st : Scan) : Prop :=
  st.start .userinfo ≤ j ∧
    (j < st.stop .userinfo ∨ st.start .host ≤ j ∧ j < st.stop .host)

theorem Spoilt.setStop {j i : ℕ} {st : Scan} (h : Spoilt j st) (hi : j < i) (p : Part) :
    Spoilt j (st.setStop p i) := by
  obtain ⟨huser, hspoilt⟩ := h
  refine ⟨huser, ?_⟩
  have hstop : ∀ r, j < st.stop r → j < (st.setStop p i).stop r := by
    intro r hr
    by_cases hp : r = p
    · rw [hp, setStop_stop, update_self]
      exact hi
    · rw [setStop_stop, update_of_ne hp]
      exact hr
  exact hspoilt.imp (hstop _) (fun h => ⟨h.1, hstop _ h.2⟩)

theorem Spoilt.close {j i : ℕ} {st : Scan} (h : Spoilt j st) (hi : j < i) :
    Spoilt j (st.close i) := by
  unfold Scan.close
  split
  · exact h.setStop hi _
  · exact h

theorem Spoilt.turn {j i : ℕ} {st : Scan} (h : Spoilt j st) (hi : j < i) (prev c : UInt8)
    (next : Option UInt8) : Spoilt j (turn prev c next i st) := by
  rw [turn_eq]
  split_ifs
  · rw [atUserinfo_eq]
    exact ⟨by simpa using h.1, .inl (by simpa using hi)⟩
  · rw [atHost_eq]
    split_ifs
    · exact h
    · have hstop := h.setStop hi .host
      exact ⟨by simpa using hstop.1, by simpa using hstop.2⟩
  · have hclose := h.close hi
    exact ⟨by simpa [atQuery] using hclose.1, by simpa [atQuery] using hclose.2⟩
  · exact h

theorem Spoilt.walk {j i : ℕ} {st : Scan} (w : Bytes) (h : Spoilt j st) (hi : j < i)
    (prev : UInt8) : Spoilt j (walk prev w i st) := by
  induction w generalizing prev i st with
  | nil => exact h
  | cons c w ih => exact ih (h.turn hi prev c _) (by omega) c

theorem walk_spoilt {j i : ℕ} {st : Scan} {w : Bytes} {prev : UInt8}
    (h : spoils st.inIpv6 prev w = true) (huser : st.start .userinfo ≤ j)
    (hhost : st.start .host ≤ j) (hi : j < i) : Spoilt j (walk prev w i st) := by
  induction w generalizing prev i st with
  | nil => cases h
  | cons c w ih =>
    rw [walk]
    by_cases h64 : c = 64
    · refine Spoilt.walk w ?_ (by omega) c
      rw [turn_eq, if_pos h64, atUserinfo_eq]
      exact ⟨by simpa using huser, .inl (by simpa using hi)⟩
    by_cases h58 : c = 58 ∧ ¬(st.inIpv6 = true ∧ prev ≠ 93)
    · refine Spoilt.walk w ?_ (by omega) c
      rw [turn_eq, if_neg h64, if_pos h58.1, atHost_eq, if_neg h58.2]
      exact ⟨by simpa using huser, .inr ⟨by simpa using hhost, by simpa using hi⟩⟩
    -- nothing here ends the userinfo or the host
    have hcalm : c = 58 → st.inIpv6 = true ∧ prev ≠ 93 := fun hc => by_contra fun hn => h58 ⟨hc, hn⟩
    have htail : spoils st.inIpv6 c w = true := by
      by_contra hfalse
      rw [Bool.not_eq_true] at hfalse
      have hc : (c == 58 && (!st.inIpv6 || prev == 93)) = false := by
        by_cases hc : c = 58
        · obtain ⟨hflag, hprev⟩ := hcalm hc
          simp [hflag, hprev]
        · simp [hc]
      rw [spoils, beq_eq_false_iff_ne.mpr h64, hc, hfalse] at h
      cases h
    by_cases h63 : c = 63
    · have hturn : turn prev c w.head? i st = st.atQuery i := by
        rw [turn_eq, if_neg h64, if_neg (by rw [h63]; decide), if_pos h63]
      rw [hturn]
      exact ih (by simpa [atQuery] using htail) (by simpa [atQuery] using huser)
        (by simpa [atQuery] using hhost) (by omega)
    · rw [turn_calm h64 h63 hcalm]
      exact ih htail huser hhost (by omega)

theorem spoils_atQuery {st : Scan} {w : Bytes} {prev : UInt8} {spoilt : Bool} (i : ℕ)
    (h : spoils st.inIpv6 prev w = spoilt) : spoils (st.atQuery i).inIpv6 prev w = spoilt := by
  simpa [atQuery] using h

theorem walk_query (i : ℕ) {st : Scan} {w : Bytes} {prev : UInt8}
    (h : spoils st.inIpv6 prev w = false) (hpre : st.preState = some .query) :
    (∀ r, r ≠ .query → (walk prev w i st).start r = st.start r ∧
      (walk prev w i st).stop r = st.stop r) ∧
    (walk prev w i st).preState = some .query ∧
    (63 ∈ w → i < (walk prev w i st).start .query) := by
  induction w generalizing prev i st with
  | nil => exact ⟨fun _ _ => ⟨rfl, rfl⟩, hpre, fun h => absurd h (by simp)⟩
  | cons c w ih =>
    obtain ⟨h64, h58, htail⟩ := spoils_cons h
    rw [walk]
    by_cases h63 : c = 63
    · have hturn : turn prev c w.head? i st = st.atQuery i := by
        rw [turn_eq, if_neg h64, if_neg (by rw [h63]; decide), if_pos h63]
      have htail' := spoils_atQuery i htail
      obtain ⟨hsame, hpre', hlater⟩ := ih (i + 1) htail' rfl
      rw [hturn]
      refine ⟨fun r hr => ?_, hpre', fun _ => ?_⟩
      · rw [(hsame r hr).1, (hsame r hr).2]
        simp [atQuery, close_some hpre, update_of_ne hr]
      · by_cases hmem : 63 ∈ w
        · exact Nat.lt_of_succ_lt (hlater hmem)
        · have hstay : walk c w (i + 1) (st.atQuery i) = st.atQuery i :=
            walk_calm htail' hmem (i + 1)
          rw [hstay]
          simp [atQuery]
    · rw [turn_calm h64 h63 h58]
      obtain ⟨hsame, hpre', hlater⟩ := ih (i + 1) htail hpre
      refine ⟨hsame, hpre', fun hmem => ?_⟩
      have hmem : 63 ∈ w := by simpa [Ne.symm h63] using hmem
      exact Nat.lt_of_succ_lt (hlater hmem)

theorem slice_left {str : Bytes} {stop : ℕ} (h : stop ≤ str.length) (start : ℕ) (rest : Bytes) :
    slice (str ++ rest) start stop = slice str start stop := by
  rw [slice, slice, take_append_of_le_length h]

def behind (scheme a : Bytes) : Scan :=
  walk 47 a (scheme.length + 3) (entry scheme.length (scheme.length + 3) a)

def front (scheme a : Bytes) : Bytes := scheme ++ 58 :: 47 :: 47 :: a

/-- The character tables take the parts that are found in `a`. -/
def Allowed (scheme a : Bytes) : Prop :=
  ((behind scheme a).close (front scheme a).length).valid (front scheme a) = true

theorem front_length (scheme a : Bytes) :
    (front scheme a).length = scheme.length + 3 + a.length := by
  simp only [front, length_append, length_cons]
  omega

theorem entry_congr {colon i : ℕ} {s s' : Bytes} (h : s.head? = some 91 ↔ s'.head? = some 91) :
    entry colon i s = entry colon i s' := by
  simp only [entry, h]

def Plain (a : Bytes) : Prop := 0 ∉ a ∧ 35 ∉ a ∧ 47 ∉ a ∧ 63 ∉ a

theorem behind_open (scheme : Bytes) {a : Bytes} (h : Plain a) :
    Open scheme.length (scheme.length + 3) (front scheme a).length (behind scheme a) := by
  have hentry := entry_spec scheme.length (scheme.length + 3) a
  have hle : (entry scheme.length (scheme.length + 3) a).start .userinfo ≤ scheme.length + 3 := by
    unfold entry
    dsimp only
    split_ifs
    · simp
    · simp
  rw [front_length]
  exact (hentry.toOpen hle).walk h.2.2.2 47

theorem behind_within (scheme a : Bytes) : Within (front scheme a).length (behind scheme a) := by
  rw [front_length]
  refine walk_within a 47 ?_ le_rfl
  have hzero : Within (scheme.length + 3 + a.length)
      ((({} : Scan).setStop .scheme scheme.length).setPre (some .host)) :=
    ((⟨fun _ => Nat.zero_le _, fun _ => Nat.zero_le _⟩ : Within _ {}).setStop _ (by omega)).setPre _
  unfold entry
  refine Within.setStart ?_ _ (by omega)
  split_ifs
  · exact ⟨hzero.start, hzero.stop⟩
  · exact hzero.setStart _ (by omega)

theorem Authority.plain (a : Authority) : Plain a.text :=
  ⟨a.notMem (by decide) (by decide) (by decide) (by decide),
    a.notMem (by decide) (by decide) (by decide) (by decide),
    a.notMem (by decide) (by decide) (by decide) (by decide),
    a.notMem (by decide) (by decide) (by decide) (by decide)⟩

theorem scanAuthority_front {scheme a : Bytes} (h : Plain a) {rest : Bytes}
    (hrest : rest.head? ≠ some 91) :
    scanAuthority scheme.length (scheme.length + 1) (47 :: 47 :: (a ++ rest)) =
      authorityLoop (a.getLastD 47) rest (front scheme a).length (behind scheme a) := by
  have hhead : (a ++ rest).head? = some 91 ↔ a.head? = some 91 := by
    cases a with
    | nil => simp [hrest]
    | cons c a => rfl
  have hpass : Passes (entry scheme.length (scheme.length + 3) a).skipPath a := by
    rw [(entry_spec _ _ _).skipPath]
    exact ⟨h.1, h.2.1, .inr h.2.2.1⟩
  have hloop := authorityLoop_append hpass 47 rest (scheme.length + 3) (fun _ => hrest)
  rw [← entry_congr hhead, ← front_length] at hloop
  exact hloop.trans (by rw [entry_congr hhead]; rfl)

theorem marks_head (q f : Option Bytes) : (queryText q ++ fragmentText f).head? ≠ some 91 := by
  cases q with
  | none => cases f <;> simp [queryText, fragmentText]
  | some q => simp [queryText]

def behindQuery (j : ℕ) (q : Option Bytes) (st : Scan) : Scan :=
  match q with
  | some q => walk 63 q (j + 1) (st.atQuery j)
  | none => st

def withSlash (scheme a : Bytes) (q f : Option Bytes) : Scan :=
  (((((behind scheme a).close (front scheme a).length).setStart .path
    (front scheme a).length).setStop .path ((front scheme a).length + 1)).locate .query
    ((front scheme a).length + 1) q).locate .fragment
    ((front scheme a).length + 1 + (queryText q).length) f

def withoutPath (scheme a : Bytes) (q f : Option Bytes) : Scan :=
  ((behindQuery (front scheme a).length q (behind scheme a)).close
    ((front scheme a).length + (queryText q).length)).locate .fragment
    ((front scheme a).length + (queryText q).length) f

theorem scan_slash {scheme a : Bytes} {q f : Option Bytes} (h : Plain a) (hq : 35 ∉ q.getD []) :
    SameIndices (scan scheme.length (scheme.length + 1)
        (47 :: 47 :: (a ++ 47 :: (queryText q ++ fragmentText f)))).2
      (withSlash scheme a q f) := by
  have hskip := (behind_open scheme h).skipPath
  have hscan : scanAuthority scheme.length (scheme.length + 1)
      (47 :: 47 :: (a ++ 47 :: (queryText q ++ fragmentText f))) =
      (47 :: (queryText q ++ fragmentText f), (front scheme a).length,
        (behind scheme a).setStart .path (front scheme a).length) := by
    rw [scanAuthority_front h (by simp), authorityLoop]
    simp [authorityMap, hskip]
  have htail : (scan scheme.length (scheme.length + 1)
      (47 :: 47 :: (a ++ 47 :: (queryText q ++ fragmentText f)))).2 =
      pathTail ([47] ++ (queryText q ++ fragmentText f)) (front scheme a).length
        (((behind scheme a).close (front scheme a).length).setStart .path
          (front scheme a).length) := by
    rw [scan, hscan]
    simp only [close_skipPath, setStart_skipPath, hskip, close_setStart]
    rfl
  rw [htail]
  exact pathTail_spec (p := [47]) (by decide) (by decide) hq _ _

theorem scan_no_path {scheme a : Bytes} {q f : Option Bytes} (h : Plain a)
    (hq : 35 ∉ q.getD [] ∧ 0 ∉ q.getD []) :
    SameIndices (scan scheme.length (scheme.length + 1)
        (47 :: 47 :: (a ++ (queryText q ++ fragmentText f)))).2
      (withoutPath scheme a q f) := by
  have hend : ∀ (prev : UInt8) (i : ℕ) (st : Scan),
      (authorityLoop prev (fragmentText f) i st).2.2.skipPath = true ∧
      SameIndices ((authorityLoop prev (fragmentText f) i st).2.2.close
        (authorityLoop prev (fragmentText f) i st).2.1) ((st.close i).locate .fragment i f) := by
    intro prev i st
    cases f with
    | none =>
      refine ⟨rfl, ?_⟩
      obtain ⟨start, stop, pre, inIpv6, skipPath⟩ := st
      cases pre with
      | none | some => exact ⟨rfl, rfl⟩
    | some f =>
      have hlen : i + (f.length + 1) = i + 1 + f.length := by omega
      simp only [fragmentText, authorityLoop, authorityMap, locate, length_cons, hlen]
      exact ⟨rfl, rfl, rfl⟩
  have hauth : ∃ prev, scanAuthority scheme.length (scheme.length + 1)
      (47 :: 47 :: (a ++ (queryText q ++ fragmentText f))) =
      authorityLoop prev (fragmentText f) ((front scheme a).length + (queryText q).length)
        (behindQuery (front scheme a).length q (behind scheme a)) := by
    rw [scanAuthority_front h (marks_head q f)]
    cases q with
    | none => exact ⟨_, rfl⟩
    | some q =>
      rw [Option.getD_some] at hq
      have hpass : Passes ((behind scheme a).atQuery (front scheme a).length).skipPath q :=
        ⟨hq.2, hq.1, .inl rfl⟩
      have hlen : (front scheme a).length + 1 + q.length =
          (front scheme a).length + (queryText (some q)).length := by
        rw [queryText, length_cons]
        omega
      refine ⟨q.getLastD 63, ?_⟩
      rw [queryText, cons_append,
        authorityLoop_cons (by decide) (by decide) (.inr (by decide)), turn_eq, if_neg (by decide),
        if_neg (by decide), if_pos rfl, authorityLoop_append hpass, ← queryText, ← hlen]
      · rfl
      · intro _
        have := marks_head none f
        simpa [queryText] using this
  obtain ⟨prev, hauth⟩ := hauth
  obtain ⟨hskip, hsame⟩ := hend prev ((front scheme a).length + (queryText q).length)
    (behindQuery (front scheme a).length q (behind scheme a))
  rw [scan, hauth]
  simp only [close_skipPath, hskip, ↓reduceIte]
  exact hsame

def SameFront (st st' : Scan) : Prop :=
  ∀ r, r ≠ .path → r ≠ .query → r ≠ .fragment → st.start r = st'.start r ∧ st.stop r = st'.stop r

theorem SameFront.valid {st st' : Scan} {str : Bytes} (h : SameFront st st')
    (hst : Within str.length st') (rest : Bytes) : st.valid (str ++ rest) = st'.valid str := by
  have hpart : ∀ r, r ≠ .path → r ≠ .query → r ≠ .fragment →
      slice (str ++ rest) (st.start r) (st.stop r) = slice str (st'.start r) (st'.stop r) := by
    intro r h1 h2 h3
    rw [(h r h1 h2 h3).1, (h r h1 h2 h3).2, slice_left (hst.stop r)]
  simp only [Scan.valid, all_cons, all_nil]
  rw [hpart .scheme (by decide) (by decide) (by decide),
    hpart .userinfo (by decide) (by decide) (by decide),
    hpart .host (by decide) (by decide) (by decide),
    hpart .port (by decide) (by decide) (by decide)]

theorem SameFront.component {st st' : Scan} {str : Bytes} (h : SameFront st st')
    (hst : Within str.length st') (rest : Bytes) {r : Part} (h1 : r ≠ .path) (h2 : r ≠ .query)
    (h3 : r ≠ .fragment) : st.component (str ++ rest) r = st'.component str r := by
  rw [Scan.component, Scan.component, (h r h1 h2 h3).1, (h r h1 h2 h3).2, slice_left (hst.stop r)]

theorem mem_slice {str rest : Bytes} {c : UInt8} {start stop : ℕ} (hstart : start ≤ str.length)
    (hstop : str.length < stop) : c ∈ slice (str ++ c :: rest) start stop := by
  apply mem_of_getElem? (i := str.length - start)
  rw [slice, List.getElem?_drop, Nat.add_sub_cancel' hstart, List.getElem?_take_of_lt hstop]
  simp

theorem Spoilt.valid {str rest : Bytes} {st : Scan} (h : Spoilt str.length st) :
    st.valid (str ++ 63 :: rest) = false := by
  rw [← Bool.not_eq_true]
  intro hvalid
  simp only [Scan.valid, all_cons, all_nil, Bool.and_true, Bool.and_eq_true,
    all_eq_true] at hvalid
  obtain ⟨-, huser, hhost, -⟩ := hvalid
  obtain ⟨hle, hlt | ⟨hle', hlt⟩⟩ := h
  · exact absurd (huser 63 (mem_slice hle hlt)) (by decide)
  · exact absurd (hhost 63 (mem_slice hle' hlt)) (by decide)

section Texts

variable {scheme a : Bytes} {q f : Option Bytes}

theorem withSlash_front (scheme a : Bytes) (q f : Option Bytes) :
    SameFront (withSlash scheme a q f) ((behind scheme a).close (front scheme a).length) := by
  intro r h1 h2 h3
  rw [withSlash, (locate_other h3 _ _ _).1, (locate_other h3 _ _ _).2, (locate_other h2 _ _ _).1,
    (locate_other h2 _ _ _).2]
  simp [update_of_ne h1]

theorem close_frame {st : Scan} {colon base i : ℕ} (h : Open colon base i st) (j : ℕ) :
    (st.close j).stop .query = 0 ∧ (st.close j).stop .fragment = 0 := by
  obtain ⟨-, hquery, hfragment⟩ := h.frame
  obtain hpre | hpre := h.preState
  · rw [close_some hpre]
    simpa using ⟨hquery.2, hfragment.2⟩
  · rw [close_some hpre]
    simpa using ⟨hquery.2, hfragment.2⟩

theorem withSlash_components (scheme : Bytes) (q f : Option Bytes) (ha : Plain a) :
    (withSlash scheme a q f).component
        (front scheme a ++ 47 :: (queryText q ++ fragmentText f)) .query = q.bind present ∧
    (withSlash scheme a q f).component
        (front scheme a ++ 47 :: (queryText q ++ fragmentText f)) .fragment = f.bind present := by
  obtain ⟨hquery, hfragment⟩ := close_frame (behind_open scheme ha) (front scheme a).length
  constructor
  · have htext : front scheme a ++ 47 :: (queryText q ++ fragmentText f) =
        (front scheme a ++ [47]) ++ (queryText q ++ fragmentText f) := by simp
    have hlen : (front scheme a).length + 1 = (front scheme a ++ [47]).length := by simp
    rw [component, withSlash, (locate_other (by decide) _ _ _).1, (locate_other (by decide) _ _ _).2,
      ← component, htext, hlen]
    refine component_locate (by decide) ?_ (front scheme a ++ [47]) 63 q _
    simpa using hquery
  · have htext : front scheme a ++ 47 :: (queryText q ++ fragmentText f) =
        (front scheme a ++ [47] ++ queryText q) ++ (fragmentText f ++ []) := by simp
    have hlen : (front scheme a).length + 1 + (queryText q).length =
        (front scheme a ++ [47] ++ queryText q).length := by
      simp only [length_append, length_singleton]
    rw [withSlash, htext, hlen]
    refine component_locate (by decide) ?_ (front scheme a ++ [47] ++ queryText q) 35 f _
    rw [(locate_other (by decide) _ _ _).2]
    simpa using hfragment

theorem withoutPath_calm (hspoils : spoils (behind scheme a).inIpv6 63 (q.getD []) = false)
    (h63 : 63 ∉ q.getD []) :
    SameIndices (withoutPath scheme a q f)
      ((((behind scheme a).close (front scheme a).length).locate .query (front scheme a).length
        q).locate .fragment ((front scheme a).length + (queryText q).length) f) := by
  cases q with
  | none => exact ⟨rfl, rfl⟩
  | some q =>
    rw [Option.getD_some] at hspoils h63
    have hwalk : behindQuery (front scheme a).length (some q) (behind scheme a) =
        (behind scheme a).atQuery (front scheme a).length :=
      walk_calm (spoils_atQuery _ hspoils) h63 _
    have hlen : (front scheme a).length + (queryText (some q)).length =
        (front scheme a).length + 1 + q.length := by
      rw [queryText, length_cons]
      omega
    rw [withoutPath, hwalk, hlen]
    cases f with
    | none | some => exact ⟨rfl, rfl⟩

theorem withoutPath_front
    (hspoils : spoils (behind scheme a).inIpv6 63 (q.getD []) = false) :
    SameFront (withoutPath scheme a q f) ((behind scheme a).close (front scheme a).length) := by
  intro r h1 h2 h3
  rw [withoutPath, (locate_other h3 _ _ _).1, (locate_other h3 _ _ _).2]
  cases q with
  | none => exact ⟨by simp [behindQuery], rfl⟩
  | some q =>
    rw [Option.getD_some] at hspoils
    obtain ⟨hsame, hpre, -⟩ := walk_query ((front scheme a).length + 1)
      (spoils_atQuery (front scheme a).length hspoils) rfl
    rw [behindQuery, close_some hpre, setStop_start, setStop_stop, update_of_ne h2,
      (hsame r h2).1, (hsame r h2).2]
    simp [atQuery, update_of_ne h2]

theorem withoutPath_spoilt (ha : Plain a)
    (hspoils : spoils (behind scheme a).inIpv6 63 (q.getD []) = true) (rest : Bytes) :
    (withoutPath scheme a q f).valid (front scheme a ++ 63 :: rest) = false := by
  cases q with
  | none => cases hspoils
  | some q =>
    have hopen := behind_open scheme ha
    have huser : (behind scheme a).start .userinfo ≤ (front scheme a).length := by
      have := hopen.userinfo
      rw [front_length]
      omega
    have hspoilt : Spoilt (front scheme a).length
        (behindQuery (front scheme a).length (some q) (behind scheme a)) :=
      walk_spoilt (spoils_atQuery _ hspoils) (by simpa [atQuery] using huser)
        (by simpa [atQuery] using hopen.host) (Nat.lt_succ_self _)
    have hclose := hspoilt.close (i := (front scheme a).length + (queryText (some q)).length)
      (by rw [queryText, length_cons]; omega)
    refine Spoilt.valid ?_
    rw [withoutPath, Spoilt, (locate_other (by decide) _ _ _).1, (locate_other (by decide) _ _ _).1,
      (locate_other (by decide) _ _ _).2, (locate_other (by decide) _ _ _).2]
    exact hclose

theorem withoutPath_query (hspoils : spoils (behind scheme a).inIpv6 63 (q.getD []) = false)
    (h63 : 63 ∈ q.getD []) (str : Bytes) :
    (withoutPath scheme a q f).component str .query ≠ q.bind present := by
  cases q with
  | none => simp at h63
  | some q =>
    rw [Option.getD_some] at hspoils h63
    obtain ⟨-, hpre, hlater⟩ := walk_query ((front scheme a).length + 1)
      (spoils_atQuery (front scheme a).length hspoils) rfl
    have hstart : (front scheme a).length + 1 < (withoutPath scheme a (some q) f).start .query := by
      rw [withoutPath, (locate_other (by decide) _ _ _).1, close_start]
      exact hlater h63
    have hstop : (withoutPath scheme a (some q) f).stop .query =
        (front scheme a).length + 1 + q.length := by
      rw [withoutPath, (locate_other (by decide) _ _ _).2, behindQuery, close_some hpre, setStop_stop,
        update_self, queryText, length_cons]
      omega
    have hne : q ≠ [] := ne_nil_of_mem h63
    rw [Option.bind_some, present, if_neg hne, component]
    by_cases hlt : (withoutPath scheme a (some q) f).start .query <
        (withoutPath scheme a (some q) f).stop .query
    · rw [if_pos hlt]
      dsimp only
      rw [if_neg (by simp)]
      intro heq
      have hlen := congrArg List.length (Option.some.inj heq)
      rw [slice, length_drop, length_take] at hlen
      omega
    · rw [if_neg hlt]
      simp

theorem withoutPath_components (ha : Plain a)
    (hspoils : spoils (behind scheme a).inIpv6 63 (q.getD []) = false) (h63 : 63 ∉ q.getD []) :
    (withoutPath scheme a q f).component (front scheme a ++ (queryText q ++ fragmentText f)) .query =
      q.bind present ∧
    (withoutPath scheme a q f).component (front scheme a ++ (queryText q ++ fragmentText f))
      .fragment = f.bind present := by
  obtain ⟨hquery, hfragment⟩ := close_frame (behind_open scheme ha) (front scheme a).length
  have hsame := withoutPath_calm (f := f) hspoils h63
  rw [hsame.component, hsame.component]
  constructor
  · rw [component, (locate_other (by decide) _ _ _).1, (locate_other (by decide) _ _ _).2,
      ← component]
    exact component_locate (by decide) hquery (front scheme a) 63 q _
  · have htext : front scheme a ++ (queryText q ++ fragmentText f) =
        (front scheme a ++ queryText q) ++ (fragmentText f ++ []) := by simp
    have hlen : (front scheme a).length + (queryText q).length =
        (front scheme a ++ queryText q).length := by simp
    rw [htext, hlen]
    refine component_locate (by decide) ?_ (front scheme a ++ queryText q) 35 f _
    rw [(locate_other (by decide) _ _ _).2]
    exact hfragment

end Texts

def Agree (str str' : Bytes) : Prop :=
  ∀ uri uri' : ParsedURI, ∃ r r' : ℤ × ParsedURI, parse str uri = some r ∧ parse str' uri' = some r' ∧
    (r.1 = 0 ↔ r'.1 = 0) ∧ (r.1 = 0 → r.2.scheme = r'.2.scheme ∧ r.2.userinfo = r'.2.userinfo ∧
      r.2.host = r'.2.host ∧ r.2.port = r'.2.port ∧ r.2.query = r'.2.query ∧
      r.2.fragment = r'.2.fragment)

/-- No byte of the query means anything to the authority loop: inside a bracket a `:` does not,
    unless a `]` stands in front of it. -/
def Calm (inBracket : Bool) (query : Bytes) : Prop :=
  63 ∉ query ∧ 64 ∉ query ∧ (58 ∈ query → inBracket = true ∧ ¬[93, 58] <:+: query)

theorem spoils_eq_false_iff (inIpv6 : Bool) (prev : UInt8) (w : Bytes) :
    spoils inIpv6 prev w = false ↔
      64 ∉ w ∧ (58 ∈ w → inIpv6 = true ∧ ¬[93, 58] <:+: prev :: w) := by
  induction w generalizing prev with
  | nil => simp [spoils]
  | cons c w ih =>
    have hcons : spoils inIpv6 prev (c :: w) = false ↔
        c ≠ 64 ∧ (c = 58 → inIpv6 = true ∧ prev ≠ 93) ∧ spoils inIpv6 c w = false := by
      simp only [spoils, Bool.or_eq_false_iff, Bool.and_eq_false_imp, beq_eq_false_iff_ne,
        beq_iff_eq, Bool.not_eq_false', ne_eq, and_assoc]
    have hinfix : [93, 58] <:+: prev :: c :: w ↔ (prev = 93 ∧ c = 58) ∨ [93, 58] <:+: c :: w := by
      rw [infix_cons_iff]
      simp [cons_prefix_cons, eq_comm]
    have hmem : [93, 58] <:+: c :: w → 58 ∈ w := by
      intro h
      rw [infix_cons_iff, cons_prefix_cons] at h
      obtain ⟨-, h⟩ | h := h
      · exact h.subset (by simp)
      · exact h.subset (by simp)
    rw [hcons, ih, hinfix]
    simp only [mem_cons, not_or]
    constructor
    · rintro ⟨h64, h58, h64', hrest⟩
      refine ⟨⟨Ne.symm h64, h64'⟩, ?_⟩
      rintro (rfl | hw)
      · refine ⟨(h58 rfl).1, fun h => (h58 rfl).2 h.1, fun h => (hrest (hmem h)).2 h⟩
      · exact ⟨(hrest hw).1, fun h => (h58 h.2).2 h.1, (hrest hw).2⟩
    · rintro ⟨⟨h64, h64'⟩, hrest⟩
      refine ⟨Ne.symm h64, fun hc => ?_, h64', fun hw => ?_⟩
      · obtain ⟨hflag, hprev, -⟩ := hrest (.inl hc.symm)
        exact ⟨hflag, fun h => hprev ⟨h, hc⟩⟩
      · obtain ⟨hflag, -, hnot⟩ := hrest (.inr hw)
        exact ⟨hflag, hnot⟩

theorem calm_iff (inBracket : Bool) (query : Bytes) :
    Calm inBracket query ↔ spoils inBracket 63 query = false ∧ 63 ∉ query := by
  have hinfix : [93, 58] <:+: 63 :: query ↔ [93, 58] <:+: query := by
    rw [infix_cons_iff]
    simp [cons_prefix_cons]
  rw [spoils_eq_false_iff, hinfix, Calm, and_comm]

/-- The parts of an authority are found where they are, and the tables take them. -/
theorem Authority.allowed (a : Authority) {scheme : Bytes} (hne : scheme ≠ [])
    (hscheme : ∀ c ∈ scheme, validChar .scheme c = true) : Allowed scheme a.text := by
  let u : Composed :=
    { scheme, authority := some a, path := [47], query := none, fragment := none
      scheme_ne := hne, scheme_valid := hscheme, path_plain := by decide
      path_rooted := fun _ => rfl, path_single := fun h => by cases h
      query_plain := by simp, fragment_plain := by simp }
  have houtcome := u.outcome_eq {}
  have hscan := @scan_slash scheme a.text none none a.plain (by simp)
  have hwithin : Within (front scheme a.text).length
      ((behind scheme a.text).close (front scheme a.text).length) :=
    (behind_within scheme a.text).close le_rfl
  have htext : u.text = front scheme a.text ++ [47] := by
    simp [u, Composed.text, Composed.rest, Composed.tail, front, queryText, fragmentText]
  rw [show u.rest = 47 :: 47 :: (a.text ++ 47 :: (queryText none ++ fragmentText none)) from rfl,
    hscan.outcome, outcome, htext, (withSlash_front scheme a.text none none).valid hwithin] at houtcome
  unfold Allowed
  by_contra hnot
  rw [if_neg hnot] at houtcome
  cases houtcome

section Texts

variable {scheme a : Bytes} {q f : Option Bytes}

theorem parse_front {rest : Bytes} {st : Scan} (hne : scheme ≠ [])
    (hscheme : ∀ c ∈ scheme, validChar .scheme c = true) (h0 : 0 ∉ a ++ rest)
    (hst : SameIndices (scan scheme.length (scheme.length + 1) (47 :: 47 :: (a ++ rest))).2 st)
    (uri : ParsedURI) :
    parse (front scheme a ++ rest) uri = if (front scheme a ++ rest).length ≤ INT_MAX then
      some (outcome (front scheme a ++ rest) st uri) else none := by
  have htext : front scheme a ++ rest = scheme ++ 58 :: 47 :: 47 :: (a ++ rest) := by simp [front]
  have h58 : 58 ∉ scheme := notMem_of_valid hscheme (by decide)
  rw [← hst.outcome, htext]
  exact parse_eq hne h58 (by simpa using h0) uri

theorem outcomes_agree_iff (ha : Plain a) (uri uri' : ParsedURI)
    (r r' : ℤ × ParsedURI)
    (hr : r = outcome (front scheme a ++ (queryText q ++ fragmentText f))
      (withoutPath scheme a q f) uri)
    (hr' : r' = outcome (front scheme a ++ 47 :: (queryText q ++ fragmentText f))
      (withSlash scheme a q f) uri') :
    ((r.1 = 0 ↔ r'.1 = 0) ∧ (r.1 = 0 → r.2.scheme = r'.2.scheme ∧ r.2.userinfo = r'.2.userinfo ∧
      r.2.host = r'.2.host ∧ r.2.port = r'.2.port ∧ r.2.query = r'.2.query ∧
      r.2.fragment = r'.2.fragment)) ↔
    (¬Allowed scheme a ∨ Calm (behind scheme a).inIpv6 (q.getD [])) := by
  have hwithin : Within (front scheme a).length
      ((behind scheme a).close (front scheme a).length) := (behind_within scheme a).close le_rfl
  have hslash := withSlash_front scheme a q f
  have hvalid' := hslash.valid hwithin (47 :: (queryText q ++ fragmentText f))
  obtain ⟨hquery', hfragment'⟩ := withSlash_components scheme q f ha
  rw [calm_iff]
  cases hspoils : spoils (behind scheme a).inIpv6 63 (q.getD []) with
  | true =>
    -- the text without a path is refused
    have hvalid : (withoutPath scheme a q f).valid
        (front scheme a ++ (queryText q ++ fragmentText f)) = false := by
      cases q with
      | none => cases hspoils
      | some q => exact withoutPath_spoilt ha hspoils (q ++ fragmentText f)
    rw [outcome, hvalid] at hr
    rw [hr, hr', outcome, hvalid']
    unfold Allowed
    cases ((behind scheme a).close (front scheme a).length).valid (front scheme a) <;> simp
  | false =>
    have hfront := withoutPath_front (f := f) hspoils
    have hvalid := hfront.valid hwithin (queryText q ++ fragmentText f)
    rw [hr, hr', outcome, outcome, hvalid, hvalid']
    unfold Allowed
    cases ((behind scheme a).close (front scheme a).length).valid (front scheme a) with
    | false => simp
    | true =>
      have hsame : ∀ p, p ≠ .path → p ≠ .query → p ≠ .fragment →
          (withoutPath scheme a q f).component
            (front scheme a ++ (queryText q ++ fragmentText f)) p =
          (withSlash scheme a q f).component
            (front scheme a ++ 47 :: (queryText q ++ fragmentText f)) p := by
        intro p h1 h2 h3
        rw [hfront.component hwithin _ h1 h2 h3, hslash.component hwithin _ h1 h2 h3]
      simp only [↓reduceIte, store, hsame .scheme (by decide) (by decide) (by decide),
        hsame .userinfo (by decide) (by decide) (by decide),
        hsame .host (by decide) (by decide) (by decide),
        hsame .port (by decide) (by decide) (by decide), hquery', hfragment', true_and,
        not_true_eq_false, false_or, forall_const]
      by_cases h63 : 63 ∈ q.getD []
      · have hquery := withoutPath_query (f := f) hspoils h63
          (front scheme a ++ (queryText q ++ fragmentText f))
        exact iff_of_false (fun h => hquery h.1) (fun h => h h63)
      · obtain ⟨hquery, hfragment⟩ := withoutPath_components (f := f) ha hspoils h63
        exact iff_of_true ⟨hquery, hfragment⟩ h63

theorem agree_parts_iff (hne : scheme ≠ []) (hscheme : ∀ c ∈ scheme, validChar .scheme c = true)
    (ha : Plain a) (hq : 35 ∉ q.getD [] ∧ 0 ∉ q.getD [])
    (h0 : 0 ∉ queryText q ++ fragmentText f) :
    Agree (front scheme a ++ (queryText q ++ fragmentText f))
        (front scheme a ++ 47 :: (queryText q ++ fragmentText f)) ↔
      (front scheme a ++ 47 :: (queryText q ++ fragmentText f)).length ≤ INT_MAX ∧
        (¬Allowed scheme a ∨ Calm (behind scheme a).inIpv6 (q.getD [])) := by
  have hno := parse_front (a := a) hne hscheme (by simpa [ha.1] using h0) (scan_no_path ha hq)
  have hyes := parse_front (a := a) hne hscheme (by simpa [ha.1] using h0) (scan_slash ha hq.1)
  have hshort : (front scheme a ++ 47 :: (queryText q ++ fragmentText f)).length ≤ INT_MAX →
      (front scheme a ++ (queryText q ++ fragmentText f)).length ≤ INT_MAX := by
    simp only [length_append, length_cons]
    omega
  constructor
  · intro hagree
    obtain ⟨r, r', hr, hr', hsame⟩ := hagree {} {}
    rw [hyes] at hr'
    split_ifs at hr' with hlen
    rw [hno, if_pos (hshort hlen)] at hr
    exact ⟨hlen, (outcomes_agree_iff ha {} {} r r' (Option.some.inj hr).symm
      (Option.some.inj hr').symm).mp hsame⟩
  · rintro ⟨hlen, hcond⟩ uri uri'
    refine ⟨_, _, by rw [hno, if_pos (hshort hlen)], by rw [hyes, if_pos hlen], ?_⟩
    exact (outcomes_agree_iff ha uri uri' _ _ rfl rfl).mpr hcond

end Texts

/-- The query of a tail: from a leading `?` to the first `#`. -/
def tailQuery : Bytes → Bytes
  | 63 :: t => t.takeWhile (· != 35)
  | _ => []

theorem tail_parts {t : Bytes} (ht : t = [] ∨ t.head? = some 63 ∨ t.head? = some 35) (h0 : 0 ∉ t) :
    ∃ q f, t = queryText q ++ fragmentText f ∧ tailQuery t = q.getD [] ∧ 35 ∉ q.getD [] ∧
      0 ∉ q.getD [] := by
  obtain rfl | ht | ht := ht
  · exact ⟨none, none, rfl, rfl, by simp, by simp⟩
  · obtain ⟨t, rfl⟩ := List.head?_eq_some_iff.mp ht
    have hq : 35 ∉ t.takeWhile (· != 35) := by
      intro h
      have := mem_takeWhile_imp h
      simp at this
    have hq0 : 0 ∉ t.takeWhile (· != 35) := fun h =>
      h0 (mem_cons_of_mem _ ((takeWhile_sublist _).subset h))
    have hsplit : t.takeWhile (· != 35) ++ t.dropWhile (· != 35) = t :=
      takeWhile_append_dropWhile
    cases hf : t.dropWhile (· != 35) with
    | nil =>
      refine ⟨some (t.takeWhile (· != 35)), none, ?_, rfl, hq, hq0⟩
      rw [hf] at hsplit
      simp only [queryText, fragmentText, append_nil] at hsplit ⊢
      rw [hsplit]
    | cons c f =>
      have hc : c = 35 := by
        have := head_dropWhile_not (fun c : UInt8 => c != 35) (l := t) (by rw [hf]; simp)
        simpa [hf] using this
      refine ⟨some (t.takeWhile (· != 35)), some f, ?_, rfl, hq, hq0⟩
      rw [hf, hc] at hsplit
      simp only [queryText, fragmentText, cons_append] at hsplit ⊢
      rw [hsplit]
  · obtain ⟨t, rfl⟩ := List.head?_eq_some_iff.mp ht
    exact ⟨none, some t, rfl, rfl, by simp, by simp⟩

theorem behind_inIpv6 (scheme a : Bytes) :
    (behind scheme a).inIpv6 = bracketOpen (a.head? == some 91) 47 a := by
  rw [behind, walk_inIpv6]
  congr 1
  rw [Bool.eq_iff_iff, (entry_spec _ _ _).inIpv6, beq_iff_eq]

end MyWorkflow.Uri
