import MyWorkflow.UriScan

set_option autoImplicit false

/-!
# A composed URI parses into its components

The authority loop relabels text when it meets an `@` or a `:`. Behind the whole authority the
indices of each part are those of its text, whatever they were in between.
-/
namespace MyWorkflow.Uri
open Function List CString StringUtil Scan

/-- `[userinfo "@"] host [":" port]`; a bracketed host is held without its brackets. -/
structure Authority where
  userinfo : Option Bytes
  bracketed : Bool
  host : Bytes
  port : Option Bytes
  userinfo_ne : userinfo ≠ some []
  userinfo_valid : ∀ c ∈ userinfo.getD [], validChar .userinfo c = true
  host_ne : host ≠ []
  host_valid : ∀ c ∈ host, validChar .host c = true
  host_plain : 91 ∉ host ∧ 93 ∉ host ∧ (bracketed = false → 58 ∉ host)
  port_digits : ∀ c ∈ port.getD [], isdigit c = true

namespace Authority

def userinfoText (a : Authority) : Bytes :=
  match a.userinfo with
  | some u => u ++ [64]
  | none => []

def hostText (a : Authority) : Bytes := if a.bracketed then 91 :: (a.host ++ [93]) else a.host

def portText (a : Authority) : Bytes :=
  match a.port with
  | some p => 58 :: p
  | none => []

def text (a : Authority) : Bytes := a.userinfoText ++ (a.hostText ++ a.portText)

theorem hostText_valid (a : Authority) : ∀ c ∈ a.hostText, validChar .host c = true := by
  intro c hc
  unfold hostText at hc
  split_ifs at hc
  · simp only [mem_cons, mem_append, not_mem_nil, or_false] at hc
    obtain rfl | hc | rfl := hc
    · decide
    · exact a.host_valid c hc
    · decide
  · exact a.host_valid c hc

theorem hostText_head (a : Authority) (s : Bytes) :
    (a.hostText ++ s).head? = some 91 ↔ a.bracketed = true := by
  obtain ⟨c, host, hhost⟩ := exists_cons_of_ne_nil a.host_ne
  have hplain := a.host_plain.1
  rw [hhost, mem_cons, not_or] at hplain
  cases hb : a.bracketed with
  | true => simp [hostText, hb]
  | false => simp [hostText, hb, hhost, Ne.symm hplain.1]

theorem hostText_calm (a : Authority) (prev : UInt8) :
    spoils a.bracketed prev a.hostText = false := by
  have h64 : 64 ∉ a.host := notMem_of_valid a.host_valid (by decide)
  obtain ⟨-, h93, h58⟩ := a.host_plain
  cases hb : a.bracketed with
  | false =>
    rw [hostText, hb, if_neg Bool.false_ne_true]
    exact spoils_of_notMem _ _ h64 (h58 hb)
  | true =>
    rw [hostText, hb, if_pos rfl]
    have hinner : ∀ (w : Bytes) (prev : UInt8), prev ≠ 93 → 64 ∉ w → 93 ∉ w →
        spoils true prev (w ++ [93]) = false := by
      intro w
      induction w with
      | nil =>
        intro prev _ _ _
        rfl
      | cons c w ih =>
        intro prev hprev h64 h93
        rw [mem_cons, not_or] at h64 h93
        have hc64 : (c == 64) = false := beq_eq_false_iff_ne.mpr (Ne.symm h64.1)
        have hprev93 : (prev == 93) = false := beq_eq_false_iff_ne.mpr hprev
        rw [cons_append, spoils, hc64, hprev93, ih c (Ne.symm h93.1) h64.2 h93.2]
        simp
    have htail := hinner a.host 91 (by decide) h64 h93
    rw [spoils, htail]
    rfl

theorem hostText_passes (a : Authority) : Passes false a.hostText :=
  ⟨notMem_of_valid a.hostText_valid (by decide), notMem_of_valid a.hostText_valid (by decide),
    .inr (notMem_of_valid a.hostText_valid (by decide))⟩

theorem hostText_last (a : Authority) (prev : UInt8) :
    ¬(a.bracketed = true ∧ a.hostText.getLastD prev ≠ 93) := by
  rintro ⟨hb, hlast⟩
  apply hlast
  rw [hostText, if_pos hb, getLastD_cons, getLastD_concat]

end Authority

/-! ## The authority -/

structure Frame (colon : ℕ) (st : Scan) : Prop where
  scheme : st.start .scheme = 0 ∧ st.stop .scheme = colon
  query : st.start .query = 0 ∧ st.stop .query = 0
  fragment : st.start .fragment = 0 ∧ st.stop .fragment = 0

structure AtHost (a : Authority) (colon base : ℕ) (st : Scan) : Prop where
  frame : Frame colon st
  userinfo : match a.userinfo with
    | some u => st.start .userinfo = base ∧ st.stop .userinfo = base + u.length
    | none => st.stop .userinfo = 0
  host : st.start .host = base + a.userinfoText.length
  port : st.stop .port = 0
  preState : st.preState = some .host
  inIpv6 : st.inIpv6 = a.bracketed
  skipPath : st.skipPath = false

structure Located (a : Authority) (colon base : ℕ) (st : Scan) : Prop where
  frame : Frame colon st
  userinfo : match a.userinfo with
    | some u => st.start .userinfo = base ∧ st.stop .userinfo = base + u.length
    | none => st.stop .userinfo = 0
  host : st.start .host = base + a.userinfoText.length ∧
    st.stop .host = base + a.userinfoText.length + a.hostText.length
  port : match a.port with
    | some p => st.start .port = base + a.userinfoText.length + a.hostText.length + 1 ∧
        st.stop .port = base + a.userinfoText.length + a.hostText.length + 1 + p.length
    | none => st.stop .port = 0

theorem walk_userinfo {u : Bytes} {st : Scan} (hu : ∀ c ∈ u, validChar .userinfo c = true)
    (hipv6 : st.inIpv6 = false) (prev : UInt8) (i : ℕ) :
    (∀ p, p ≠ .port → (walk prev u i st).start p = st.start p) ∧
    (∀ p, p ≠ .host → (walk prev u i st).stop p = st.stop p) ∧
    (walk prev u i st).inIpv6 = false ∧ (walk prev u i st).skipPath = st.skipPath := by
  induction u generalizing prev i st with
  | nil => exact ⟨fun _ _ => rfl, fun _ _ => rfl, hipv6, rfl⟩
  | cons c u ih =>
    have hc := hu c mem_cons_self
    have hrest : ∀ c ∈ u, validChar .userinfo c = true := fun c hc => hu c (mem_cons_of_mem _ hc)
    have h64 : c ≠ 64 := by
      rintro rfl
      exact absurd hc (by decide)
    have h63 : c ≠ 63 := by
      rintro rfl
      exact absurd hc (by decide)
    rw [walk]
    by_cases h58 : c = 58
    · have hturn : turn prev c u.head? i st =
          (({ st with inIpv6 := false }.setStop .host i).setStart .port (i + 1)).setPre
            (some .port) := by
        rw [turn_eq, if_neg h64, if_pos h58, atHost_eq, if_neg (by simp [hipv6])]
      have hclosed : (turn prev c u.head? i st).inIpv6 = false := by rw [hturn]; rfl
      obtain ⟨hstart, hstop, hflag, hskip⟩ := ih hrest hclosed c (i + 1)
      rw [hturn] at hstart hstop hflag hskip ⊢
      refine ⟨fun p hp => ?_, fun p hp => ?_, hflag, hskip⟩
      · rw [hstart p hp]
        exact update_of_ne hp _ _
      · rw [hstop p hp]
        exact update_of_ne hp _ _
    · rw [turn_plain h64 h58 h63]
      exact ih hrest hipv6 c (i + 1)

def entry (colon i : ℕ) (s : Bytes) : Scan :=
  let st := (({} : Scan).setStop .scheme colon).setPre (some .host)
  let st := if s.head? = some 91 then { st with inIpv6 := true } else st.setStart .userinfo i
  st.setStart .host i

structure Entry (colon i : ℕ) (s : Bytes) (st : Scan) : Prop where
  frame : Frame colon st
  userinfo : st.stop .userinfo = 0 ∧ (s.head? ≠ some 91 → st.start .userinfo = i)
  host : st.start .host = i
  port : st.stop .port = 0
  preState : st.preState = some .host
  inIpv6 : st.inIpv6 = true ↔ s.head? = some 91
  skipPath : st.skipPath = false

theorem entry_spec (colon i : ℕ) (s : Bytes) : Entry colon i s (entry colon i s) := by
  by_cases h : s.head? = some 91
  · simp only [entry, if_pos h]
    exact ⟨⟨⟨rfl, rfl⟩, ⟨rfl, rfl⟩, ⟨rfl, rfl⟩⟩, ⟨rfl, absurd h⟩, rfl, rfl, rfl,
      iff_of_true rfl h, rfl⟩
  · simp only [entry, if_neg h]
    exact ⟨⟨⟨rfl, rfl⟩, ⟨rfl, rfl⟩, ⟨rfl, rfl⟩⟩, ⟨rfl, fun _ => rfl⟩, rfl, rfl, rfl,
      iff_of_false Bool.false_ne_true h, rfl⟩

theorem atHost_of_entry {a : Authority} {colon base : ℕ} {s : Bytes} {st : Scan}
    (h : Entry colon base (a.hostText ++ s) st) (hu : a.userinfo = none) :
    AtHost a colon base st := by
  have htext : a.userinfoText = [] := by rw [Authority.userinfoText, hu]
  refine ⟨h.frame, ?_, ?_, h.port, h.preState, ?_, h.skipPath⟩
  · rw [hu]
    exact h.userinfo.1
  · rw [htext]
    exact h.host
  · rw [Bool.eq_iff_iff, h.inIpv6, a.hostText_head]

theorem atHost_of_walk {a : Authority} {colon base : ℕ} {u s : Bytes} {st : Scan} {next : Option UInt8}
    (hu : a.userinfo = some u) (h : Entry colon base (u ++ s) st)
    (hnext : next = some 91 ↔ a.bracketed = true) :
    AtHost a colon base ((walk 47 u base st).atUserinfo next (base + u.length)) := by
  have htext : a.userinfoText.length = u.length + 1 := by simp [Authority.userinfoText, hu]
  have hvalid : ∀ c ∈ u, validChar .userinfo c = true := by
    have hvalid := a.userinfo_valid
    rwa [hu] at hvalid
  have hhead : (u ++ s).head? ≠ some 91 := by
    have hne : u ≠ [] := fun hnil => a.userinfo_ne (by rw [hu, hnil])
    obtain ⟨c, u, rfl⟩ := exists_cons_of_ne_nil hne
    intro hc
    have hc : c = 91 := by simpa using hc
    exact absurd (hvalid c mem_cons_self) (by rw [hc]; decide)
  have hflag : st.inIpv6 = false := by
    rw [← Bool.not_eq_true, h.inIpv6]
    exact hhead
  obtain ⟨hstart, hstop, hflag', hskip⟩ := walk_userinfo hvalid hflag 47 base
  obtain ⟨⟨hscheme, hquery, hfragment⟩, huser, -, hport, -, -, hskip'⟩ := h
  rw [atUserinfo_eq]
  refine ⟨⟨?_, ?_, ?_⟩, ?_, ?_, ?_, rfl, ?_, ?_⟩
  · simp [hstart, hstop, hscheme]
  · simp [hstart, hstop, hquery]
  · simp [hstart, hstop, hfragment]
  · rw [hu]
    simp [hstart, huser.2 hhead]
  · simp [htext, Nat.add_assoc]
  · simp [hstop, hport]
  · simp only [setPre_inIpv6, setStart_inIpv6, setStop_inIpv6, hflag', Bool.false_or]
    rw [Bool.eq_iff_iff, beq_iff_eq, hnext]
  · simp [hskip, hskip']

theorem authorityLoop_userinfo (a : Authority) (colon base : ℕ) (s : Bytes) :
    ∃ (prev : UInt8) (st : Scan), AtHost a colon base st ∧
      authorityLoop 47 (a.userinfoText ++ (a.hostText ++ s)) base
        (entry colon base (a.userinfoText ++ (a.hostText ++ s))) =
      authorityLoop prev (a.hostText ++ s) (base + a.userinfoText.length) st := by
  cases hu : a.userinfo with
  | none =>
    have htext : a.userinfoText = [] := by rw [Authority.userinfoText, hu]
    refine ⟨47, _, atHost_of_entry (entry_spec colon base (a.hostText ++ s)) hu, ?_⟩
    rw [htext]
    rfl
  | some u =>
    have htext : a.userinfoText ++ (a.hostText ++ s) = u ++ 64 :: (a.hostText ++ s) := by
      rw [Authority.userinfoText, hu, append_assoc]
      rfl
    have hlen : base + a.userinfoText.length = base + u.length + 1 := by
      simp [Authority.userinfoText, hu, Nat.add_assoc]
    have hvalid : ∀ c ∈ u, validChar .userinfo c = true := by
      have hvalid := a.userinfo_valid
      rwa [hu] at hvalid
    have hentry := entry_spec colon base (u ++ 64 :: (a.hostText ++ s))
    have hpass : Passes (entry colon base (u ++ 64 :: (a.hostText ++ s))).skipPath u :=
      ⟨notMem_of_valid hvalid (by decide), notMem_of_valid hvalid (by decide),
        .inr (notMem_of_valid hvalid (by decide))⟩
    refine ⟨64, _, atHost_of_walk hu hentry (a.hostText_head s), ?_⟩
    rw [htext, authorityLoop_append hpass _ _ _ (by simp),
      authorityLoop_cons (by decide) (by decide) (.inr (by decide)), turn_eq, if_pos rfl, hlen]

theorem authorityLoop_host {a : Authority} {colon base : ℕ} {st : Scan} {s : Bytes}
    (h : AtHost a colon base st) (prev : UInt8) (hs : s.head? = some 47) :
    ∃ st' : Scan, Located a colon base (st'.close (base + a.text.length)) ∧ st'.skipPath = false ∧
      authorityLoop prev (a.hostText ++ (a.portText ++ s)) (base + a.userinfoText.length) st =
        (s, base + a.text.length, st'.setStart .path (base + a.text.length)) := by
  obtain ⟨s, rfl⟩ := List.head?_eq_some_iff.mp hs
  have hend : ∀ (prev : UInt8) (i : ℕ) (st : Scan), st.skipPath = false →
      authorityLoop prev (47 :: s) i st = (47 :: s, i, st.setStart .path i) := by
    intro prev i st hskip
    rw [authorityLoop]
    simp [authorityMap, hskip]
  have hpass : Passes st.skipPath a.hostText := by
    rw [h.skipPath]
    exact a.hostText_passes
  have hlast : a.hostText.getLast? = some 64 → (a.portText ++ 47 :: s).head? ≠ some 91 := by
    intro _
    rw [Authority.portText]
    split
    · simp
    · simp
  have hcalm : walk prev a.hostText (base + a.userinfoText.length) st = st := by
    apply walk_calm
    · rw [h.inIpv6]
      exact a.hostText_calm prev
    · exact notMem_of_valid a.hostText_valid (by decide)
  rw [authorityLoop_append hpass _ _ _ hlast, hcalm]
  cases hp : a.port with
  | none =>
    have hlen : base + a.text.length = base + a.userinfoText.length + a.hostText.length := by
      simp [Authority.text, Authority.portText, hp, Nat.add_assoc]
    refine ⟨st, ?_, h.skipPath, ?_⟩
    · rw [close_some h.preState]
      refine ⟨⟨?_, ?_, ?_⟩, ?_, ?_, ?_⟩
      · simpa using h.frame.scheme
      · simpa using h.frame.query
      · simpa using h.frame.fragment
      · simpa using h.userinfo
      · simp [h.host, hlen]
      · rw [hp]
        simpa using h.port
    · rw [Authority.portText, hp, nil_append, hend _ _ _ h.skipPath, hlen]
  | some p =>
    have hdigits : ∀ c ∈ p, validChar .port c = true := by
      have hdigits := a.port_digits
      rwa [hp] at hdigits
    have hlen : base + a.text.length =
        base + a.userinfoText.length + a.hostText.length + 1 + p.length := by
      simp only [Authority.text, Authority.portText, hp, length_append, length_cons]
      omega
    have hturn : st.atHost (a.hostText.getLastD prev)
        (base + a.userinfoText.length + a.hostText.length) =
        (({ st with inIpv6 := false }.setStop .host
          (base + a.userinfoText.length + a.hostText.length)).setStart .port
          (base + a.userinfoText.length + a.hostText.length + 1)).setPre (some .port) := by
      rw [atHost_eq, h.inIpv6, if_neg (a.hostText_last prev)]
    have hwalk : ∀ (prev : UInt8) (i : ℕ) (st : Scan), walk prev p i st = st := by
      intro prev i st
      exact walk_calm (spoils_of_notMem _ _ (notMem_of_valid hdigits (by decide))
        (notMem_of_valid hdigits (by decide))) (notMem_of_valid hdigits (by decide)) i
    refine ⟨st.atHost (a.hostText.getLastD prev)
      (base + a.userinfoText.length + a.hostText.length), ?_, ?_, ?_⟩
    · rw [hturn]
      refine ⟨⟨?_, ?_, ?_⟩, ?_, ?_, ?_⟩
      · simpa [close] using h.frame.scheme
      · simpa [close] using h.frame.query
      · simpa [close] using h.frame.fragment
      · simpa [close] using h.userinfo
      · simp [close, h.host]
      · rw [hp]
        simp [close, hlen]
    · rw [hturn]
      exact h.skipPath
    · have hskip : (st.atHost (a.hostText.getLastD prev)
          (base + a.userinfoText.length + a.hostText.length)).skipPath = false := by
        rw [hturn]
        exact h.skipPath
      have hpass : Passes (st.atHost (a.hostText.getLastD prev)
          (base + a.userinfoText.length + a.hostText.length)).skipPath p :=
        ⟨notMem_of_valid hdigits (by decide), notMem_of_valid hdigits (by decide),
          .inr (notMem_of_valid hdigits (by decide))⟩
      rw [Authority.portText, hp, cons_append,
        authorityLoop_cons (by decide) (by decide) (.inr (by decide)), turn_eq, if_neg (by decide),
        if_pos rfl, authorityLoop_append hpass _ _ _ (by simp), hwalk, hend _ _ _ hskip, hlen]

/-! ## The whole text -/

/-- `scheme ":" ["//" authority] path ["?" query] ["#" fragment]` -/
structure Composed where
  scheme : Bytes
  authority : Option Authority
  path : Bytes
  query : Option Bytes
  fragment : Option Bytes
  scheme_ne : scheme ≠ []
  scheme_valid : ∀ c ∈ scheme, validChar .scheme c = true
  path_plain : 63 ∉ path ∧ 35 ∉ path ∧ 0 ∉ path
  path_rooted : authority.isSome → path.head? = some 47
  path_single : authority = none → ¬[47, 47] <+: path
  query_plain : 35 ∉ query.getD [] ∧ 0 ∉ query.getD []
  fragment_plain : 0 ∉ fragment.getD []

namespace Composed

def tail (u : Composed) : Bytes := u.path ++ (queryText u.query ++ fragmentText u.fragment)

def rest (u : Composed) : Bytes :=
  match u.authority with
  | some a => 47 :: 47 :: (a.text ++ u.tail)
  | none => u.tail

def text (u : Composed) : Bytes := u.scheme ++ 58 :: u.rest

def parsed (u : Composed) (uri : ParsedURI) : ParsedURI where
  scheme := some u.scheme
  userinfo := u.authority.bind (·.userinfo)
  host := u.authority.map (·.host)
  port := (u.authority.bind (·.port)).bind present
  path := present u.path
  query := u.query.bind present
  fragment := u.fragment.bind present
  state := .success
  error := uri.error

end Composed

theorem Authority.notMem (a : Authority) {c : UInt8} (hmarks : c ≠ 64 ∧ c ≠ 58)
    (huserinfo : validChar .userinfo c = false) (hhost : validChar .host c = false)
    (hport : validChar .port c = false) : c ∉ a.text := by
  have hhost := notMem_of_valid a.hostText_valid hhost
  have huser : c ∉ a.userinfoText := by
    have h := notMem_of_valid a.userinfo_valid huserinfo
    unfold userinfoText
    cases hu : a.userinfo with
    | none => simp
    | some u => simpa [hu, hmarks] using h
  have hport : c ∉ a.portText := by
    have h := notMem_of_valid (p := .port) a.port_digits hport
    unfold portText
    cases hp : a.port with
    | none => simp
    | some p => simpa [hp, hmarks] using h
  simp [Authority.text, hhost, huser, hport]

theorem Composed.zero_notMem (u : Composed) : 0 ∉ u.rest := by
  have htail : 0 ∉ u.tail := by
    have hq := u.query_plain.2
    have hf := u.fragment_plain
    simp only [tail, mem_append, not_or]
    refine ⟨u.path_plain.2.2, ?_, ?_⟩
    · cases hquery : u.query with
      | none => simp [queryText]
      | some q => simpa [queryText, hquery] using hq
    · cases hfragment : u.fragment with
      | none => simp [fragmentText]
      | some f => simpa [fragmentText, hfragment] using hf
  unfold rest
  split
  · next a _ =>
    have ha := a.notMem (c := 0) (by decide) (by decide) (by decide) (by decide)
    simp [htail, ha]
  · exact htail

structure Prefix (u : Composed) (st : Scan) : Prop where
  frame : Frame u.scheme.length st
  authority : match u.authority with
    | some a => Located a u.scheme.length (u.scheme.length + 3) st
    | none => st.stop .userinfo = 0 ∧ st.stop .host = 0 ∧ st.stop .port = 0

def Composed.head (u : Composed) : Bytes :=
  u.scheme ++ 58 :: (match u.authority with
    | some a => 47 :: 47 :: a.text
    | none => [])

theorem Composed.text_eq (u : Composed) : u.text = u.head ++ u.tail := by
  unfold text head rest
  split <;> simp

theorem Scan.close_setStart (p : Part) (i j : ℕ) (st : Scan) :
    (st.setStart p i).close j = (st.close j).setStart p i := by
  unfold close
  rw [setStart_preState]
  split <;> rfl

theorem scan_head (u : Composed) :
    ∃ st : Scan, Prefix u st ∧ st.start .path = u.head.length ∧
      (scan u.scheme.length (u.scheme.length + 1) u.rest).2 = pathTail u.tail u.head.length st := by
  cases ha : u.authority with
  | none =>
    have hrest : u.rest = u.tail := by rw [Composed.rest, ha]
    have hhead : u.head.length = u.scheme.length + 1 := by simp [Composed.head, ha]
    have hslash : ∀ s, u.tail ≠ 47 :: 47 :: s := by
      intro s hs
      have hnot := u.path_single ha
      have hmarks : (queryText u.query ++ fragmentText u.fragment).head? ≠ some 47 := by
        cases u.query with
        | none => cases u.fragment <;> simp [queryText, fragmentText]
        | some q => simp [queryText]
      unfold Composed.tail at hs
      rcases hpath : u.path with _ | ⟨c, _ | ⟨d, p⟩⟩
      · rw [hpath, nil_append] at hs
        rw [hs] at hmarks
        exact hmarks rfl
      · rw [hpath, singleton_append] at hs
        have hs' := (List.cons.inj hs).2
        rw [hs'] at hmarks
        exact hmarks rfl
      · rw [hpath, cons_append, cons_append] at hs
        have hc := (List.cons.inj hs).1
        have hd := (List.cons.inj (List.cons.inj hs).2).1
        apply hnot
        rw [hpath, hc, hd]
        exact ⟨p, rfl⟩
    have hscan : scanAuthority u.scheme.length (u.scheme.length + 1) u.tail =
        (u.tail, u.scheme.length + 1,
          ((({} : Scan).setStop .scheme u.scheme.length).setPre (some .path)).setStart .path
            (u.scheme.length + 1)) := by
      unfold scanAuthority
      split
      · next s hs => exact absurd hs (hslash s)
      · rfl
    refine ⟨(((({} : Scan).setStop .scheme u.scheme.length).setPre (some .path)).setStart .path
      (u.scheme.length + 1)).close (u.scheme.length + 1), ⟨⟨⟨rfl, rfl⟩, ⟨rfl, rfl⟩, ⟨rfl, rfl⟩⟩, ?_⟩,
      ?_, ?_⟩
    · rw [ha]
      exact ⟨rfl, rfl, rfl⟩
    · rw [hhead]
      rfl
    · rw [hrest, scan, hscan, hhead]
      rfl
  | some a =>
    have hrooted : u.tail.head? = some 47 := by
      obtain ⟨p, hp⟩ := List.head?_eq_some_iff.mp (u.path_rooted (by rw [ha]; rfl))
      rw [Composed.tail, hp]
      rfl
    have hlen : u.head.length = u.scheme.length + 3 + a.text.length := by
      simp only [Composed.head, ha, length_append, length_cons]
      omega
    have hrest : u.rest =
        47 :: 47 :: (a.userinfoText ++ (a.hostText ++ (a.portText ++ u.tail))) := by
      rw [Composed.rest, ha]
      simp [Authority.text]
    obtain ⟨prev, st, hat, huser⟩ := authorityLoop_userinfo a u.scheme.length (u.scheme.length + 3)
      (a.portText ++ u.tail)
    obtain ⟨st', hlocated, hskip, hhost⟩ := authorityLoop_host hat prev hrooted
    have hscan : scanAuthority u.scheme.length (u.scheme.length + 1) u.rest =
        (u.tail, u.scheme.length + 3 + a.text.length,
          st'.setStart .path (u.scheme.length + 3 + a.text.length)) := by
      rw [hrest, ← hhost, ← huser]
      rfl
    refine ⟨(st'.close (u.scheme.length + 3 + a.text.length)).setStart .path
      (u.scheme.length + 3 + a.text.length), ⟨?_, ?_⟩, ?_, ?_⟩
    · obtain ⟨⟨hscheme, hquery, hfragment⟩, -⟩ := hlocated
      exact ⟨by simpa using hscheme, by simpa using hquery, by simpa using hfragment⟩
    · rw [ha]
      obtain ⟨⟨hscheme, hquery, hfragment⟩, huser, hhost, hport⟩ := hlocated
      exact ⟨⟨by simpa using hscheme, by simpa using hquery, by simpa using hfragment⟩,
        by simpa using huser, by simpa using hhost, by simpa using hport⟩
    · simp [hlen]
    · rw [scan, hscan, hlen]
      simp only [close_skipPath, setStart_skipPath, hskip, close_setStart]
      rfl

/-! ## The components -/

def Composed.located (u : Composed) (st : Scan) : Scan :=
  ((st.setStop .path (u.head.length + u.path.length)).locate .query
    (u.head.length + u.path.length) u.query).locate .fragment
    (u.head.length + u.path.length + (queryText u.query).length) u.fragment

theorem Composed.located_front (u : Composed) (st : Scan) {r : Part} (hpath : r ≠ .path)
    (hquery : r ≠ .query) (hfragment : r ≠ .fragment) :
    (u.located st).start r = st.start r ∧ (u.located st).stop r = st.stop r := by
  unfold located
  rw [(locate_other hfragment _ _ _).1, (locate_other hfragment _ _ _).2,
    (locate_other hquery _ _ _).1, (locate_other hquery _ _ _).2]
  exact ⟨rfl, update_of_ne hpath _ _⟩

theorem located_path {u : Composed} {st : Scan} (hpath : st.start .path = u.head.length) :
    (u.located st).component u.text .path = present u.path := by
  rw [u.text_eq]
  apply component_eq (by decide)
  · rw [Composed.located, (locate_other (by decide) _ _ _).1, (locate_other (by decide) _ _ _).1]
    exact hpath
  · rw [Composed.located, (locate_other (by decide) _ _ _).2, (locate_other (by decide) _ _ _).2,
      setStop_stop, update_self]

theorem located_query {u : Composed} {st : Scan} (hst : Prefix u st) :
    (u.located st).component u.text .query = u.query.bind present := by
  have hsame : (u.located st).component u.text .query =
      ((st.setStop .path (u.head.length + u.path.length)).locate .query
        (u.head.length + u.path.length) u.query).component u.text .query := by
    rw [component, component, Composed.located, (locate_other (by decide) _ _ _).1,
      (locate_other (by decide) _ _ _).2]
  have htext : u.text =
      (u.head ++ u.path) ++ (queryText u.query ++ fragmentText u.fragment) := by
    rw [u.text_eq, Composed.tail, append_assoc]
  rw [hsame, htext, ← length_append]
  refine component_locate (by decide) ?_ (u.head ++ u.path) 63 u.query _
  rw [setStop_stop, update_of_ne (by decide)]
  exact hst.frame.query.2

theorem located_fragment {u : Composed} {st : Scan} (hst : Prefix u st) :
    (u.located st).component u.text .fragment = u.fragment.bind present := by
  have htext : u.text =
      (u.head ++ u.path ++ queryText u.query) ++ (fragmentText u.fragment ++ []) := by
    rw [u.text_eq, Composed.tail, append_nil]
    simp only [append_assoc]
  rw [htext, Composed.located, ← length_append, ← length_append]
  refine component_locate (by decide) ?_ (u.head ++ u.path ++ queryText u.query) 35 u.fragment _
  rw [(locate_other (by decide) _ _ _).2, setStop_stop, update_of_ne (by decide)]
  exact hst.frame.fragment.2

theorem located_scheme {u : Composed} {st : Scan} (hst : Prefix u st) :
    (u.located st).component u.text .scheme = some u.scheme ∧
    (slice u.text ((u.located st).start .scheme) ((u.located st).stop .scheme)).all
      (validChar .scheme) = true := by
  obtain ⟨hstart, hstop⟩ := u.located_front st (r := .scheme) (by decide) (by decide) (by decide)
  rw [hst.frame.scheme.1] at hstart
  rw [hst.frame.scheme.2] at hstop
  have hstop' : (u.located st).stop .scheme = ([] : Bytes).length + u.scheme.length := by
    rw [hstop, length_nil, Nat.zero_add]
  have htext : u.text = [] ++ (u.scheme ++ 58 :: u.rest) := rfl
  rw [htext]
  refine ⟨?_, slice_valid hstart hstop' u.scheme_valid⟩
  rw [component_eq (by decide) hstart hstop', present, if_neg u.scheme_ne]

theorem located_absent {u : Composed} {st : Scan} (hst : Prefix u st) (ha : u.authority = none)
    {r : Part} (hr : r = .userinfo ∨ r = .host ∨ r = .port) :
    (u.located st).component u.text r = none ∧
    (slice u.text ((u.located st).start r) ((u.located st).stop r)).all (validChar r) = true := by
  have hstop : (u.located st).stop r = 0 := by
    have hauth := hst.authority
    rw [ha] at hauth
    rw [(u.located_front st (by rintro rfl; simp at hr) (by rintro rfl; simp at hr)
      (by rintro rfl; simp at hr)).2]
    obtain rfl | rfl | rfl := hr
    · exact hauth.1
    · exact hauth.2.1
    · exact hauth.2.2
  have hle : (u.located st).stop r ≤ (u.located st).start r := by omega
  exact ⟨component_of_le hle _, slice_valid_of_le hle _⟩

theorem Composed.text_of_authority {u : Composed} {a : Authority} (ha : u.authority = some a) :
    u.text = u.scheme ++ 58 :: 47 :: 47 ::
      (a.userinfoText ++ (a.hostText ++ (a.portText ++ u.tail))) := by
  rw [text, rest, ha]
  simp [Authority.text]

theorem located_userinfo {u : Composed} {a : Authority} {st : Scan} (hst : Prefix u st)
    (ha : u.authority = some a) :
    (u.located st).component u.text .userinfo = a.userinfo ∧
    (slice u.text ((u.located st).start .userinfo) ((u.located st).stop .userinfo)).all
      (validChar .userinfo) = true := by
  obtain ⟨hstart, hstop⟩ := u.located_front st (r := .userinfo) (by decide) (by decide) (by decide)
  have hauth := hst.authority
  rw [ha] at hauth
  have hwhere := hauth.userinfo
  cases hu : a.userinfo with
  | none =>
    rw [hu] at hwhere
    have hle : (u.located st).stop .userinfo ≤ (u.located st).start .userinfo := by
      rw [hstop, hwhere]
      exact Nat.zero_le _
    exact ⟨component_of_le hle _, slice_valid_of_le hle _⟩
  | some w =>
    rw [hu] at hwhere
    have htext : u.text = (u.scheme ++ [58, 47, 47]) ++
        (w ++ 64 :: (a.hostText ++ (a.portText ++ u.tail))) := by
      rw [Composed.text_of_authority ha, Authority.userinfoText, hu]
      simp
    have hstart' : (u.located st).start .userinfo = (u.scheme ++ [58, 47, 47]).length := by
      rw [hstart, hwhere.1, length_append]
      rfl
    have hstop' : (u.located st).stop .userinfo =
        (u.scheme ++ [58, 47, 47]).length + w.length := by
      rw [hstop, hwhere.2, length_append]
      rfl
    have hvalid := a.userinfo_valid
    rw [hu] at hvalid
    rw [htext]
    refine ⟨?_, slice_valid hstart' hstop' hvalid⟩
    rw [component_eq (by decide) hstart' hstop', present, if_neg]
    intro hw
    exact a.userinfo_ne (by rw [hu, hw])

theorem located_host {u : Composed} {a : Authority} {st : Scan} (hst : Prefix u st)
    (ha : u.authority = some a) :
    (u.located st).component u.text .host = some a.host ∧
    (slice u.text ((u.located st).start .host) ((u.located st).stop .host)).all
      (validChar .host) = true := by
  obtain ⟨hstart, hstop⟩ := u.located_front st (r := .host) (by decide) (by decide) (by decide)
  have hauth := hst.authority
  rw [ha] at hauth
  have htext : u.text = (u.scheme ++ [58, 47, 47] ++ a.userinfoText) ++
      (a.hostText ++ (a.portText ++ u.tail)) := by
    rw [Composed.text_of_authority ha]
    simp
  have hlen : (u.scheme ++ [58, 47, 47] ++ a.userinfoText).length =
      u.scheme.length + 3 + a.userinfoText.length := by
    rw [length_append, length_append]
    rfl
  have hstart' : (u.located st).start .host =
      (u.scheme ++ [58, 47, 47] ++ a.userinfoText).length := by
    rw [hstart, hauth.host.1, hlen]
  have hstop' : (u.located st).stop .host =
      (u.scheme ++ [58, 47, 47] ++ a.userinfoText).length + a.hostText.length := by
    rw [hstop, hauth.host.2, hlen]
  have hpos : 0 < a.hostText.length := by
    have := length_pos_iff.mpr a.host_ne
    unfold Authority.hostText
    split_ifs
    · simp
    · exact this
  rw [htext]
  refine ⟨?_, slice_valid hstart' hstop' a.hostText_valid⟩
  rw [component, if_pos (by omega), hstart', hstop', slice_append]
  dsimp only
  have hhead := a.hostText_head []
  rw [append_nil] at hhead
  cases hb : a.bracketed with
  | true =>
    have hlast : (91 :: (a.host ++ [93])).getLast? = some 93 := by
      rw [← cons_append, List.getLast?_concat]
    rw [Authority.hostText, if_pos hb, if_pos ⟨rfl, rfl, hlast⟩, tail_cons, dropLast_concat]
  | false =>
    rw [if_neg (by rw [hhead, hb]; simp), Authority.hostText, hb, if_neg Bool.false_ne_true]

theorem located_port {u : Composed} {a : Authority} {st : Scan} (hst : Prefix u st)
    (ha : u.authority = some a) :
    (u.located st).component u.text .port = a.port.bind present ∧
    (slice u.text ((u.located st).start .port) ((u.located st).stop .port)).all
      (validChar .port) = true := by
  obtain ⟨hstart, hstop⟩ := u.located_front st (r := .port) (by decide) (by decide) (by decide)
  have hauth := hst.authority
  rw [ha] at hauth
  have hwhere := hauth.port
  cases hp : a.port with
  | none =>
    rw [hp] at hwhere
    have hle : (u.located st).stop .port ≤ (u.located st).start .port := by
      rw [hstop, hwhere]
      exact Nat.zero_le _
    exact ⟨component_of_le hle _, slice_valid_of_le hle _⟩
  | some p =>
    rw [hp] at hwhere
    have htext : u.text = (u.scheme ++ [58, 47, 47] ++ a.userinfoText ++ a.hostText ++ [58]) ++
        (p ++ u.tail) := by
      rw [Composed.text_of_authority ha, Authority.portText, hp]
      simp
    have hlen : (u.scheme ++ [58, 47, 47] ++ a.userinfoText ++ a.hostText ++ [58]).length =
        u.scheme.length + 3 + a.userinfoText.length + a.hostText.length + 1 := by
      simp only [length_append]
      rfl
    have hstart' : (u.located st).start .port =
        (u.scheme ++ [58, 47, 47] ++ a.userinfoText ++ a.hostText ++ [58]).length := by
      rw [hstart, hwhere.1, hlen]
    have hstop' : (u.located st).stop .port =
        (u.scheme ++ [58, 47, 47] ++ a.userinfoText ++ a.hostText ++ [58]).length + p.length := by
      rw [hstop, hwhere.2, hlen]
    have hdigits := a.port_digits
    rw [hp] at hdigits
    rw [htext]
    exact ⟨component_eq (by decide) hstart' hstop', slice_valid hstart' hstop' hdigits⟩

theorem located_outcome {u : Composed} {st : Scan} (hst : Prefix u st)
    (hpath : st.start .path = u.head.length) (uri : ParsedURI) :
    outcome u.text (u.located st) uri = (0, u.parsed uri) := by
  have hscheme := located_scheme hst
  have hfront : ∀ r, r = .userinfo ∨ r = .host ∨ r = .port →
      (slice u.text ((u.located st).start r) ((u.located st).stop r)).all (validChar r) = true := by
    intro r hr
    cases ha : u.authority with
    | none => exact (located_absent hst ha hr).2
    | some a =>
      obtain rfl | rfl | rfl := hr
      · exact (located_userinfo hst ha).2
      · exact (located_host hst ha).2
      · exact (located_port hst ha).2
  have hvalid : (u.located st).valid u.text = true := by
    simp only [valid, all_cons, all_nil, Bool.and_true, Bool.and_eq_true]
    exact ⟨hscheme.2, hfront _ (.inl rfl), hfront _ (.inr (.inl rfl)), hfront _ (.inr (.inr rfl))⟩
  have hauth : (u.located st).component u.text .userinfo = u.authority.bind (·.userinfo) ∧
      (u.located st).component u.text .host = u.authority.map (·.host) ∧
      (u.located st).component u.text .port = (u.authority.bind (·.port)).bind present := by
    cases ha : u.authority with
    | none =>
      exact ⟨(located_absent hst ha (.inl rfl)).1, (located_absent hst ha (.inr (.inl rfl))).1,
        (located_absent hst ha (.inr (.inr rfl))).1⟩
    | some a =>
      exact ⟨(located_userinfo hst ha).1, (located_host hst ha).1, (located_port hst ha).1⟩
  rw [outcome, if_pos hvalid]
  simp only [store, hscheme.1, hauth, located_path hpath, located_query hst, located_fragment hst,
    Composed.parsed]

theorem Composed.outcome_eq (u : Composed) (uri : ParsedURI) :
    outcome u.text (scan u.scheme.length (u.scheme.length + 1) u.rest).2 uri =
      (0, u.parsed uri) := by
  obtain ⟨st, hst, hpath, hscan⟩ := scan_head u
  have hsame := pathTail_spec (f := u.fragment) u.path_plain.1 u.path_plain.2.1 u.query_plain.1
    u.head.length st
  rw [hscan, tail, hsame.outcome]
  exact located_outcome hst hpath uri

theorem Composed.parse_eq (u : Composed) (uri : ParsedURI) :
    parse u.text uri = if u.text.length ≤ INT_MAX then some (0, u.parsed uri) else none := by
  have h58 : 58 ∉ u.scheme := notMem_of_valid u.scheme_valid (by decide)
  rw [← u.outcome_eq uri]
  exact Uri.parse_eq u.scheme_ne h58 u.zero_notMem uri

/-- A composed text parses into the given components, whatever the object held before, exactly if
    its length is in an `int`. -/
theorem parse_composed_iff (u : Composed) (uri : ParsedURI) :
    parse u.text uri = some (0, u.parsed uri) ↔ u.text.length ≤ INT_MAX := by
  rw [u.parse_eq]
  by_cases hle : u.text.length ≤ INT_MAX
  · rw [if_pos hle]
    exact iff_of_true rfl hle
  · rw [if_neg hle]
    exact iff_of_false (by simp) hle

def letters (n : ℕ) : Composed where
  scheme := bytes "http"
  authority := some
    { userinfo := none, bracketed := false, host := bytes "h", port := none
      userinfo_ne := by decide +kernel, userinfo_valid := by decide +kernel
      host_ne := by decide +kernel, host_valid := by decide +kernel
      host_plain := by decide +kernel, port_digits := by decide +kernel }
  path := 47 :: List.replicate n 97
  query := none
  fragment := none
  scheme_ne := by decide +kernel
  scheme_valid := by decide +kernel
  path_plain := by simp [mem_replicate]
  path_rooted := fun _ => rfl
  path_single := fun h => by cases h
  query_plain := by decide +kernel
  fragment_plain := by decide +kernel

theorem letters_length (n : ℕ) : n < (letters n).text.length := by
  have hpath : (letters n).path.length = n + 1 := by
    rw [letters, length_cons, length_replicate]
  rw [(letters n).text_eq, Composed.tail, length_append, length_append, hpath]
  omega

theorem letters_unparsed :
    parse (letters 2147483648).text {} ≠ some (0, (letters 2147483648).parsed {}) := by
  have hlen := letters_length 2147483648
  rw [(letters 2147483648).parse_eq, if_neg (by rw [INT_MAX]; omega)]
  exact Option.some_ne_none _ ∘ Eq.symm

end MyWorkflow.Uri
