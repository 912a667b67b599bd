import MyWorkflow.HttpParser

set_option autoImplicit false

namespace MyWorkflow.Http
open List CString Incremental

section Lines

variable {limit : ℕ} {reject : UInt8 → Bool} {xs line : Bytes}

theorem scanLine_line_iff : scanLine limit reject xs = .line line ↔
    ∃ rest, scanUntil limit (· == CR) reject [] xs = (.done, line, LF :: rest) := by
  unfold scanLine
  rcases scanUntil limit (· == CR) reject [] xs with ⟨_ | _ | _, text, _ | ⟨c, rest⟩⟩
  all_goals try simp
  split_ifs with hc <;> simp [hc]

theorem scanLine_append (ys : Bytes) (h : scanLine limit reject xs ≠ .again) :
    scanLine limit reject (xs ++ ys) = scanLine limit reject xs := by
  unfold scanLine at h ⊢
  rcases hs : scanUntil limit (· == CR) reject [] xs with ⟨_ | _ | _, text, rest⟩
  · simp [hs] at h
  · rw [scanUntil_append ys hs (by decide)]
  · rw [scanUntil_append ys hs (by decide)]
    cases rest with
    | nil => simp [hs] at h
    | cons c rest => rfl

theorem scanLine_length (h : scanLine limit reject xs = .line line) :
    line.length + 2 ≤ xs.length := by
  obtain ⟨rest, hs⟩ := scanLine_line_iff.mp h
  have := scanUntil_length hs
  simp only [length_cons] at this
  omega

theorem scanLine_take {m : ℕ} (h : scanLine limit reject xs = .line line)
    (hm : line.length + 2 ≤ m) : scanLine limit reject (xs.take m) = .line line := by
  obtain ⟨rest, hs⟩ := scanLine_line_iff.mp h
  obtain ⟨k, rfl⟩ := Nat.exists_eq_add_of_le hm
  have ht := scanUntil_take (k + 1) hs
  refine scanLine_line_iff.mpr ⟨rest.take k, ?_⟩
  rw [show line.length + 2 + k = line.length + 1 + (k + 1) by omega, ht, take_succ_cons]

end Lines

/-- What a cut of the input needs from a sub-parser at `pos`: it leaves the state alone unless it is
    done, and a settled result depends on at most `look` bytes behind the new position. -/
structure Scans (parse : Bytes → ParseState → Verdict × ParseState) (pos : ParseState → ℕ)
    (look : ℕ) : Prop where
  stays : ∀ {ptr p p' v}, parse ptr p = (v, p') → v ≠ .done → p' = p
  bad : ∀ {ptr p p'} (ys), parse ptr p = (.bad, p') → parse (ptr ++ ys) p = (.bad, p')
  reads : ∀ {ptr p p'}, parse ptr p = (.done, p') → ∃ k, pos p' = pos p + k ∧ 0 < k ∧
    k ≤ ptr.length ∧ ∀ zs, parse (ptr.take (k + look) ++ zs) p = (.done, p')

theorem take_two_length {xs : Bytes} (h : xs.take 2 = [CR, LF]) : 2 ≤ xs.length := by
  have := congrArg List.length h
  simp only [length_take, length_cons, length_nil] at this
  omega

theorem take_two_append {xs : Bytes} (ys : Bytes) (h : xs.take 2 = [CR, LF]) :
    (xs ++ ys).take 2 = [CR, LF] := by
  rw [take_append_of_le_length (take_two_length h), h]

theorem take_two_ne {xs : Bytes} (ys : Bytes) (h : xs.take 2 ≠ [CR, LF]) (h0 : xs ≠ [])
    (h1 : xs ≠ [CR]) : (xs ++ ys).take 2 ≠ [CR, LF] := by
  rcases xs with _ | ⟨a, _ | ⟨b, xs⟩⟩
  · exact absurd rfl h0
  · cases ys with
    | nil => simp
    | cons b ys =>
      intro he
      have ha : a = CR := (cons_eq_cons.mp he).1
      exact h1 (by rw [ha])
  · simpa using h

theorem take_two_take_ne {xs : Bytes} (m : ℕ) (h : xs.take 2 ≠ [CR, LF]) :
    (xs.take m).take 2 ≠ [CR, LF] := by
  intro ht
  have hm : 2 ≤ m := by
    have := take_two_length ht
    simp only [length_take] at this
    omega
  rw [take_take, Nat.min_eq_left hm] at ht
  exact h ht

theorem scanLine_ne {limit : ℕ} {reject : UInt8 → Bool} {xs : Bytes} (hl : limit ≠ 0)
    (h : scanLine limit reject xs ≠ .again) : xs ≠ [] ∧ xs ≠ [CR] := by
  constructor
  · rintro rfl
    simp [scanLine, scanUntil, hl.symm] at h
  · rintro rfl
    simp [scanLine, scanUntil, hl.symm] at h

theorem parseStartLine_scans : Scans parseStartLine ParseState.headerOffset 0 where
  stays := by
    intro ptr p p' v h hv
    unfold parseStartLine at h
    split_ifs at h
    · cases h
      exact absurd rfl hv
    split at h
    · cases h; rfl
    · cases h; rfl
    · split at h <;> cases h
      · rfl
      · exact absurd rfl hv
  bad := by
    intro ptr p p' ys h
    unfold parseStartLine at h ⊢
    split_ifs at h with h2
    · cases h
    have hs : scanLine startLineMax (· == 0) ptr ≠ .again := by
      intro ha
      rw [ha] at h
      cases h
    obtain ⟨h0, h1⟩ := scanLine_ne (by decide) hs
    rw [if_neg (take_two_ne ys h2 h0 h1), scanLine_append ys hs]
    exact h
  reads := by
    intro ptr p p' h
    unfold parseStartLine at h
    split_ifs at h with h2
    · cases h
      refine ⟨2, rfl, by decide, take_two_length h2, fun zs => ?_⟩
      rw [parseStartLine, if_pos (take_two_append zs (by rw [take_take]; exact h2))]
    split at h
    · cases h
    · cases h
    · next line hl =>
      split at h <;> cases h
      next hf =>
      refine ⟨line.length + 2, rfl, by omega, scanLine_length hl, fun zs => ?_⟩
      have ht := scanLine_take hl le_rfl
      obtain ⟨h0, h1⟩ := scanLine_ne (by decide) (ht.trans_ne (by simp))
      rw [parseStartLine, if_neg (take_two_ne zs (take_two_take_ne _ h2) h0 h1),
        scanLine_append zs (ht.trans_ne (by simp)), ht]
      simp only [hf]

theorem scanName_ne {xs name rest : Bytes} {v : Verdict} (hv : v ≠ .again)
    (h : scanUntil headerNameMax (· == COLON) nonPositive [] xs = (v, name, rest)) :
    xs ≠ [] ∧ xs ≠ [CR] := by
  constructor
  · rintro rfl
    exact hv (congrArg Prod.fst h).symm
  · rintro rfl
    exact hv (congrArg Prod.fst h).symm

theorem parseHeaderName_scans : Scans parseHeaderName ParseState.headerOffset 0 where
  stays := by
    intro ptr p p' v h hv
    unfold parseHeaderName at h
    split_ifs at h
    · cases h
      exact absurd rfl hv
    split at h <;> cases h
    · exact absurd rfl hv
    · rfl
  bad := by
    intro ptr p p' ys h
    unfold parseHeaderName at h ⊢
    split_ifs at h with h2
    · cases h
    rcases hs : scanUntil headerNameMax (· == COLON) nonPositive [] ptr with ⟨w, name, rest⟩
    rw [hs] at h
    cases w <;> cases h
    obtain ⟨h0, h1⟩ := scanName_ne (by decide) hs
    rw [if_neg (take_two_ne ys h2 h0 h1), scanUntil_append ys hs (by decide)]
  reads := by
    intro ptr p p' h
    unfold parseHeaderName at h
    split_ifs at h with h2
    · cases h
      refine ⟨2, rfl, by decide, take_two_length h2, fun zs => ?_⟩
      rw [parseHeaderName, if_pos (take_two_append zs (by rw [take_take]; exact h2))]
    rcases hs : scanUntil headerNameMax (· == COLON) nonPositive [] ptr with ⟨w, name, rest⟩
    rw [hs] at h
    cases w <;> cases h
    have hlen := scanUntil_length hs
    have ht := scanUntil_take 0 hs
    refine ⟨name.length + 1, rfl, by omega, by omega, fun zs => ?_⟩
    obtain ⟨h0, h1⟩ := scanName_ne (by decide) ht
    rw [parseHeaderName, if_neg (take_two_ne zs (take_two_take_ne _ h2) h0 h1),
      scanUntil_append zs ht (by decide)]

section Values

variable {skipping : Bool} {text : Bytes} {used : ℕ} {c d e : UInt8} {rest : Bytes}

theorem scanValue_full (hb : (skipping && isBlank c) = false) (hl : text.length = headerValueMax) :
    scanValue skipping text used (c :: rest) = .bad := by
  rw [scanValue.eq_def]
  simp only [hb, hl, Bool.false_eq_true, ↓reduceIte]

theorem scanValue_copy (hb : (skipping && isBlank c) = false) (hl : text.length ≠ headerValueMax)
    (hc : c ≠ CR) (hp : nonPositive c = false) :
    scanValue skipping text used (c :: d :: rest) =
      scanValue false (text ++ [c]) (used + 1) (d :: rest) := by
  rw [scanValue.eq_def]
  simp only [hb, hl, hc, hp, Bool.false_eq_true, ↓reduceIte]

theorem scanValue_reject (hb : (skipping && isBlank c) = false) (hc : c ≠ CR)
    (hp : nonPositive c = true) : scanValue skipping text used (c :: d :: rest) = .bad := by
  rw [scanValue.eq_def]
  simp [hb, hc, hp]

theorem scanValue_noLF (hl : text.length ≠ headerValueMax) (hd : d ≠ LF) :
    scanValue skipping text used (CR :: d :: rest) = .bad := by
  have hb : (skipping && isBlank CR) = false := by simp [isBlank, CR, SP, HT]
  rw [scanValue.eq_def]
  simp only [hb, hl, hd, Bool.false_eq_true, ↓reduceIte]

theorem scanValue_fold (hl : text.length ≠ headerValueMax) (he : isBlank e = true) :
    scanValue skipping text used (CR :: LF :: e :: rest) =
      scanValue true (text.rdropWhile isBlank ++ [SP]) (used + 3) rest := by
  have hb : (skipping && isBlank CR) = false := by simp [isBlank, CR, SP, HT]
  rw [scanValue.eq_def]
  simp only [hb, hl, he, Bool.false_eq_true, ↓reduceIte]

theorem scanValue_end (hl : text.length ≠ headerValueMax) (he : isBlank e = false) :
    scanValue skipping text used (CR :: LF :: e :: rest) =
      .value (text.rdropWhile isBlank) (used + 2) := by
  have hb : (skipping && isBlank CR) = false := by simp [isBlank, CR, SP, HT]
  rw [scanValue.eq_def]
  simp only [hb, hl, he, Bool.false_eq_true, ↓reduceIte]

end Values

theorem scanValue_bad_append (skipping : Bool) (text : Bytes) (used : ℕ) (xs ys : Bytes)
    (h : scanValue skipping text used xs = .bad) :
    scanValue skipping text used (xs ++ ys) = .bad := by
  fun_induction scanValue skipping text used xs with
  | case1 => cases h
  | case2 skipping text used c rest hb ih =>
    rw [cons_append, scanValue_skip hb]
    exact ih h
  | case3 skipping text used c rest hb hl => exact scanValue_full (by simpa using hb) hl
  | case4 | case5 => cases h
  | case6 skipping text used hl e rest he hb ih =>
    simp only [cons_append]
    rw [scanValue_fold hl he]
    exact ih h
  | case7 => cases h
  | case8 skipping text used hl d rest hd => exact scanValue_noLF hl hd
  | case9 => cases h
  | case10 skipping text used c hb hl hc d rest hp =>
    exact scanValue_reject (by simpa using hb) hc hp
  | case11 skipping text used c hb hl hc d rest hp ih =>
    simp only [cons_append] at ih ⊢
    rw [scanValue_copy (by simpa using hb) hl hc (by simpa using hp)]
    exact ih h

theorem scanValue_local (skipping : Bool) (text : Bytes) (used : ℕ) (xs v : Bytes) (n : ℕ)
    (h : scanValue skipping text used xs = .value v n) :
    ∃ k, n = used + k ∧ 2 ≤ k ∧ k < xs.length ∧
      ∀ zs, scanValue skipping text used (xs.take (k + 1) ++ zs) = .value v n := by
  fun_induction scanValue skipping text used xs with
  | case1 => cases h
  | case2 skipping text used c rest hb ih =>
    obtain ⟨k, rfl, h2, hk, hz⟩ := ih h
    refine ⟨k + 1, by omega, by omega, by simpa using hk, fun zs => ?_⟩
    rw [take_succ_cons, cons_append, scanValue_skip hb]
    exact hz zs
  | case3 | case4 | case5 => cases h
  | case6 skipping text used hl e rest he hb ih =>
    obtain ⟨k, rfl, h2, hk, hz⟩ := ih h
    refine ⟨k + 3, by omega, by omega, by simpa using hk, fun zs => ?_⟩
    simp only [take_succ_cons, cons_append]
    rw [scanValue_fold hl he]
    exact hz zs
  | case7 skipping text used hl e rest he hb =>
    cases h
    refine ⟨2, rfl, le_rfl, by simp, fun zs => ?_⟩
    exact scanValue_end hl (by simpa using he)
  | case8 | case9 | case10 => cases h
  | case11 skipping text used c hb hl hc d rest hp ih =>
    obtain ⟨k, rfl, h2, hk, hz⟩ := ih h
    refine ⟨k + 1, by omega, by omega, by simpa using hk, fun zs => ?_⟩
    have hcopy := @scanValue_copy skipping text used c d (rest.take k ++ zs) (by simpa using hb)
      hl hc (by simpa using hp)
    simp only [take_succ_cons, cons_append] at hz ⊢
    rw [hcopy]
    exact hz zs

theorem parseHeaderValue_scans : Scans parseHeaderValue ParseState.headerOffset 1 where
  stays := by
    intro ptr p p' v h hv
    unfold parseHeaderValue at h
    split at h <;> cases h
    · rfl
    · rfl
    · exact absurd rfl hv
  bad := by
    intro ptr p p' ys h
    unfold parseHeaderValue at h ⊢
    split at h <;> cases h
    next hs => rw [scanValue_bad_append _ _ _ _ ys hs]
  reads := by
    intro ptr p p' h
    unfold parseHeaderValue at h
    split at h <;> cases h
    next text used hs =>
    obtain ⟨k, rfl, h2, hk, hz⟩ := scanValue_local _ _ _ _ _ _ hs
    refine ⟨k, by simp only [Nat.zero_add], by omega, by omega, fun zs => ?_⟩
    rw [parseHeaderValue, hz zs]

theorem parseChunkData_scans : Scans parseChunkData ParseState.chunkOffset 0 where
  stays := by
    intro ptr p p' v h hv
    unfold parseChunkData at h
    split at h
    · cases h; rfl
    · cases h; rfl
    · split at h
      · cases h; rfl
      · simp only at h
        split_ifs at h <;> cases h <;> first | rfl | exact absurd rfl hv
  bad := by
    intro ptr p p' ys h
    have hs : scanLine chunkLineMax (fun _ => false) ptr ≠ .again := by
      intro ha
      rw [parseChunkData, ha] at h
      cases h
    unfold parseChunkData at h ⊢
    rw [scanLine_append ys hs]
    split at h
    · cases h
    · exact h
    · split at h
      · exact h
      · simp only at h ⊢
        split_ifs at h with h0 hb
        · cases h
        · cases h
        · cases h
        · rw [if_neg h0, if_neg hb]
          exact h
  reads := by
    intro ptr p p' h
    unfold parseChunkData at h
    split at h
    · cases h
    · cases h
    · next line hl =>
      have hlen := scanLine_length hl
      have htake : ∀ k zs, line.length + 2 ≤ k →
          scanLine chunkLineMax (fun _ => false) (ptr.take k ++ zs) = .line line := by
        intro k zs hk
        have ht := scanLine_take hl hk
        rw [scanLine_append zs (ht.trans_ne (by simp)), ht]
      split at h
      · cases h
      · next size hsize =>
        simp only at h
        split_ifs at h with h0 hb hroom <;> cases h
        · refine ⟨line.length + 2, rfl, by omega, hlen, fun zs => ?_⟩
          rw [parseChunkData, htake _ zs le_rfl]
          simp only [hsize, h0, ↓reduceIte]
        · refine ⟨_, rfl, by omega, by omega, fun zs => ?_⟩
          rw [parseChunkData, htake _ zs (by omega)]
          simp only [hsize, h0, hb, ↓reduceIte]
          rw [if_neg (by simp only [length_append, length_take]; omega)]

theorem parseTrailerPart_scans : Scans parseTrailerPart ParseState.chunkOffset 0 where
  stays := by
    intro ptr p p' v h hv
    unfold parseTrailerPart at h
    split at h <;> cases h
    · rfl
    · rfl
    · exact absurd rfl hv
  bad := by
    intro ptr p p' ys h
    unfold parseTrailerPart at h ⊢
    split at h <;> cases h
    next hs => rw [scanLine_append ys (hs.trans_ne (by simp)), hs]
  reads := by
    intro ptr p p' h
    unfold parseTrailerPart at h
    split at h <;> cases h
    next line hl =>
    have ht := scanLine_take hl le_rfl
    refine ⟨line.length + 2, rfl, by omega, scanLine_length hl, fun zs => ?_⟩
    rw [parseTrailerPart, scanLine_append zs (ht.trans_ne (by simp)), ht]

section Scans

variable {parse : Bytes → ParseState → Verdict × ParseState} {pos : ParseState → ℕ} {look : ℕ}
  {msg : Bytes} {p p' : ParseState}

theorem Scans.settle_at (h : Scans parse pos look) (more : Bytes) {v : Verdict}
    (hp : parse (msg.drop (pos p)) p = (v, p')) (hv : v ≠ .again) :
    parse ((msg ++ more).drop (pos p)) p = (v, p') := by
  rw [drop_append]
  cases v with
  | again => exact absurd rfl hv
  | bad => exact h.bad _ hp
  | done =>
    obtain ⟨k, -, -, -, hread⟩ := h.reads hp
    rw [← take_append_drop (k + look) (msg.drop (pos p)), append_assoc]
    exact hread _

theorem Scans.advance_at (h : Scans parse pos look)
    (hp : parse (msg.drop (pos p)) p = (.done, p')) : pos p < pos p' ∧ pos p' ≤ msg.length := by
  obtain ⟨k, hk, hpos, hle, -⟩ := h.reads hp
  rw [length_drop] at hle
  omega

theorem Scans.take_at (h : Scans parse pos look) {m : ℕ}
    (hp : parse (msg.drop (pos p)) p = (.done, p')) (hm : pos p' + look ≤ m) :
    parse ((msg.take m).drop (pos p)) p = (.done, p') := by
  obtain ⟨k, hk, -, -, hread⟩ := h.reads hp
  rw [drop_take, ← take_append_drop (k + look) ((msg.drop (pos p)).take _),
    take_take, Nat.min_eq_left (by omega)]
  exact hread _

/-- A step that chooses its sub-parser by a state of the parser. -/
structure Dispatches {κ : Type} (step : Bytes → ParseState → Verdict × ParseState)
    (parser : κ → Bytes → ParseState → Verdict × ParseState) (key : ParseState → κ)
    (pos : ParseState → ℕ) (look : κ → ℕ) : Prop where
  eq : ∀ msg p, step msg p = parser (key p) (msg.drop (pos p)) p
  scans : ∀ k, Scans (parser k) pos (look k)

variable {κ : Type} {step : Bytes → ParseState → Verdict × ParseState}
  {parser : κ → Bytes → ParseState → Verdict × ParseState} {key : ParseState → κ} {look : κ → ℕ}
  (d : Dispatches step parser key pos look)

include d

theorem Dispatches.stays {v : Verdict} (h : step msg p = (v, p')) (hv : v ≠ .done) : p' = p := by
  rw [d.eq] at h
  exact (d.scans _).stays h hv

theorem Dispatches.resumable : Resumable step where
  settle := by
    intro msg more p p' v h hv
    rw [d.eq] at h ⊢
    exact (d.scans _).settle_at more h hv
  restart := by
    intro msg more p p' h
    rw [d.stays h (by decide)]

theorem Dispatches.advances : Advances step pos := by
  intro msg p p' h
  rw [d.eq] at h
  exact (d.scans _).advance_at h

theorem Dispatches.take {m : ℕ} (h : step msg p = (.done, p')) (hm : pos p' + look (key p) ≤ m) :
    step (msg.take m) p = (.done, p') := by
  rw [d.eq] at h ⊢
  exact (d.scans _).take_at h hm

end Scans

def headerParser : HeaderState → Bytes → ParseState → Verdict × ParseState
  | .startLine => parseStartLine
  | .headerValue => parseHeaderValue
  | _ => parseHeaderName

def headerLook : HeaderState → ℕ
  | .headerValue => 1
  | _ => 0

theorem headerStep_dispatches : Dispatches headerStep headerParser ParseState.headerState
    ParseState.headerOffset headerLook where
  eq := by
    intro message p
    unfold headerStep headerParser
    cases p.headerState <;> rfl
  scans := by
    intro s
    cases s with
    | startLine => exact parseStartLine_scans
    | headerValue => exact parseHeaderValue_scans
    | headerName | headerComplete => exact parseHeaderName_scans

theorem headerStep_eq (message : Bytes) (p : ParseState) :
    headerStep message p = headerParser p.headerState (message.drop p.headerOffset) p :=
  headerStep_dispatches.eq message p

theorem headerStep_stays {msg : Bytes} {p p' : ParseState} {v : Verdict}
    (h : headerStep msg p = (v, p')) (hv : v ≠ .done) : p' = p :=
  headerStep_dispatches.stays h hv

theorem headerStep_resumable : Resumable headerStep := headerStep_dispatches.resumable

theorem headerStep_advances : Advances headerStep ParseState.headerOffset :=
  headerStep_dispatches.advances

theorem parseHeaderValue_state {ptr : Bytes} {p p' : ParseState}
    (h : parseHeaderValue ptr p = (.done, p')) : p'.headerState = .headerName := by
  unfold parseHeaderValue at h
  split at h <;> cases h
  rfl

theorem headerStep_frugal : Frugal headerStep headerComplete ParseState.headerOffset := by
  intro msg p p' m h hm
  refine headerStep_dispatches.take h ?_
  cases hs : p.headerState with
  | headerValue =>
    -- a value never completes the header, only the empty line does
    rw [headerStep_eq, hs] at h
    rw [headerComplete, parseHeaderValue_state h] at hm
    exact hm
  | startLine | headerName | headerComplete =>
    split_ifs at hm
    · exact hm
    · exact hm.le

def chunkParser : ChunkState → Bytes → ParseState → Verdict × ParseState
  | .chunkData => parseChunkData
  | _ => parseTrailerPart

theorem chunkStep_dispatches : Dispatches chunkStep chunkParser ParseState.chunkState
    ParseState.chunkOffset fun _ => 0 where
  eq := by
    intro message p
    unfold chunkStep chunkParser
    cases p.chunkState <;> rfl
  scans := by
    intro s
    cases s with
    | chunkData => exact parseChunkData_scans
    | trailerPart | chunkComplete => exact parseTrailerPart_scans

theorem chunkStep_eq (message : Bytes) (p : ParseState) :
    chunkStep message p = chunkParser p.chunkState (message.drop p.chunkOffset) p :=
  chunkStep_dispatches.eq message p

theorem chunkStep_stays {msg : Bytes} {p p' : ParseState} {v : Verdict}
    (h : chunkStep msg p = (v, p')) (hv : v ≠ .done) : p' = p :=
  chunkStep_dispatches.stays h hv

theorem chunkStep_resumable : Resumable chunkStep := chunkStep_dispatches.resumable

theorem chunkStep_advances : Advances chunkStep ParseState.chunkOffset :=
  chunkStep_dispatches.advances

theorem chunkStep_frugal : Frugal chunkStep chunkComplete ParseState.chunkOffset := by
  intro msg p p' m h hm
  refine chunkStep_dispatches.take h ?_
  split_ifs at hm
  · exact hm
  · exact hm.le

end MyWorkflow.Http
