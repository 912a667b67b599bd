import MyWorkflow.HttpParserCuts
import MyWorkflow.HttpRoundTrip

set_option autoImplicit false

/-!
# Offsets, sizes and array indices of the HTTP parser

The functions ending in `Checked` are the parse functions with a check of every array index: a store
outside the array has no result.
-/
namespace MyWorkflow.Http
open List CString Incremental

/-- `scanUntil` into an array of `size` bytes, whose index `i` is the length of `text`. -/
def scanChecked (size limit : ℕ) (stop reject : UInt8 → Bool) :
    Bytes → Bytes → Option (Verdict × Bytes × Bytes)
  | text, [] => some (if text.length = limit then .bad else .again, text, [])
  | text, c :: rest =>
    if text.length = limit then some (.bad, text, c :: rest)
    else if size ≤ text.length then none
    else if stop c then some (.done, text, rest)
    else if reject c then some (.bad, text, c :: rest)
    else scanChecked size limit stop reject (text ++ [c]) rest

/-- `scanValue` with `char header_value[size]`. Behind a line end the next index takes the joining
    space or the NUL. -/
def scanValueChecked (size : ℕ) : Bool → Bytes → ℕ → Bytes → Option ValueScan
  | _, _, _, [] => some .again
  | skipping, text, used, c :: rest =>
    if skipping && isBlank c then scanValueChecked size true text (used + 1) rest
    else if text.length = headerValueMax then some .bad
    else if size ≤ text.length then none
    else if c = CR then
      match rest with
      | [] => some .again
      | d :: rest' =>
        if d = LF then
          match rest' with
          | [] => some .again
          | e :: rest'' =>
            if size ≤ (text.rdropWhile isBlank).length then none
            else if isBlank e then
              scanValueChecked size true (text.rdropWhile isBlank ++ [SP]) (used + 3) rest''
            else some (.value (text.rdropWhile isBlank) (used + 2))
        else some .bad
    else
      match rest with
      | [] => some .again
      | _ :: _ =>
        if nonPositive c then some .bad else scanValueChecked size false (text ++ [c]) (used + 1) rest

theorem scanChecked_eq {limit : ℕ} {stop reject : UInt8 → Bool} (text ptr : Bytes)
    (h : text.length ≤ limit) :
    scanChecked limit limit stop reject text ptr = some (scanUntil limit stop reject text ptr) := by
  induction ptr generalizing text with
  | nil => rfl
  | cons c rest ih =>
    by_cases hl : text.length = limit
    · simp [scanChecked, scanUntil, hl]
    · have hroom : ¬ limit ≤ text.length := by omega
      have hnext := ih (text ++ [c]) (by rw [length_append, length_singleton]; omega)
      simp only [scanChecked, scanUntil, hl, hroom, ↓reduceIte, hnext]
      split_ifs <;> rfl

theorem scanValueChecked_eq (skipping : Bool) (text : Bytes) (used : ℕ) (ptr : Bytes)
    (h : text.length ≤ headerValueMax) :
    scanValueChecked headerValueMax skipping text used ptr =
      some (scanValue skipping text used ptr) := by
  have room : ∀ text : Bytes, text.length ≤ headerValueMax → ¬ text.length = headerValueMax →
      ¬ headerValueMax ≤ text.length := by
    intro text h hl
    omega
  have trimmed : ∀ text : Bytes, (text.rdropWhile isBlank).length ≤ text.length := fun text =>
    ( rdropWhile_prefix isBlank text).length_le
  fun_induction scanValue skipping text used ptr with
  | case1 => rfl
  | case2 skipping text used c rest hb ih =>
    unfold scanValueChecked
    rw [if_pos hb]
    exact ih h
  | case3 skipping text used c rest hb hl =>
    unfold scanValueChecked
    rw [if_neg hb, if_pos hl]
  | case4 skipping text used hl hb =>
    unfold scanValueChecked
    rw [if_neg hb, if_neg hl, if_neg (room text h hl), if_pos rfl]
  | case5 skipping text used hl hb =>
    unfold scanValueChecked
    rw [if_neg hb, if_neg hl, if_neg (room text h hl), if_pos rfl]
    rfl
  | case6 skipping text used hl e rest he hb ih =>
    have hlt := trimmed text
    unfold scanValueChecked
    rw [if_neg hb, if_neg hl, if_neg (room text h hl), if_pos rfl]
    simp only [↓reduceIte, he]
    rw [if_neg (by omega)]
    apply ih
    rw [length_append, length_singleton]
    omega
  | case7 skipping text used hl e rest he hb =>
    have hlt := trimmed text
    unfold scanValueChecked
    rw [if_neg hb, if_neg hl, if_neg (room text h hl), if_pos rfl]
    simp only [↓reduceIte, he]
    rw [if_neg (by omega)]
    rfl
  | case8 skipping text used hl d rest hd hb =>
    unfold scanValueChecked
    rw [if_neg hb, if_neg hl, if_neg (room text h hl), if_pos rfl]
    simp only [hd, ↓reduceIte]
  | case9 skipping text used c hb hl hc =>
    unfold scanValueChecked
    rw [if_neg hb, if_neg hl, if_neg (room text h hl), if_neg hc]
  | case10 skipping text used c hb hl hc d rest hn =>
    unfold scanValueChecked
    rw [if_neg hb, if_neg hl, if_neg (room text h hl), if_neg hc]
    simp only [hn, ↓reduceIte]
  | case11 skipping text used c hb hl hc d rest hn ih =>
    unfold scanValueChecked
    rw [if_neg hb, if_neg hl, if_neg (room text h hl), if_neg hc]
    simp only [hn]
    apply ih
    rw [length_append, length_singleton]
    omega

theorem cutSpace_length {s a b : Bytes} (h : cutSpace s = some (a, b)) :
    a.length + 1 + b.length = s.length := by
  unfold cutSpace at h
  split at h
  · cases h
  · next c rest hs =>
    cases h
    have hlen := congrArg List.length (takeWhile_append_dropWhile (p := (· != SP)) (l := s))
    rw [hs, length_append, length_cons] at hlen
    omega

theorem scanLine_lt {limit : ℕ} {reject : UInt8 → Bool} {xs line : Bytes}
    (h : scanLine limit reject xs = .line line) : line.length < limit := by
  obtain ⟨rest, hs⟩ := scanLine_line_iff.mp h
  obtain ⟨_, _, _, _, _, hl, _⟩ := (scanUntil_done_iff (by simp)).mp hs
  exact hl

/-! ## The sub-parsers with their arrays

The first argument is the declared size of the array. -/

def scanLineChecked (size limit : ℕ) (reject : UInt8 → Bool) (ptr : Bytes) : Option LineScan :=
  match scanChecked size limit (· == CR) reject [] ptr with
  | none => none
  | some (.again, _, _) => some .again
  | some (.bad, _, _) => some .bad
  | some (.done, _, []) => some .again
  -- the NUL takes the place of the CR, whose index is checked already
  | some (.done, text, c :: _) => some (if c = LF then .line text else .bad)

/-- `*p2++ = '\0'` and `*p3++ = '\0'`. -/
def startLineFieldsChecked (size : ℕ) (startLine : Bytes) :
    Option (Option (Bytes × Bytes × Bytes)) :=
  match cutSpace startLine with
  | none => some none
  | some (p1, rest) =>
    if size ≤ p1.length then none
    else
      match cutSpace rest with
      | none => some none
      | some (p2, p3) =>
        if size ≤ p1.length + 1 + p2.length then none else some (some (p1, p2, p3))

/-- `__parse_start_line` with `char start_line[size]`. -/
def parseStartLineChecked (size : ℕ) (ptr : Bytes) (p : ParseState) :
    Option (Verdict × ParseState) :=
  if ptr.take 2 = [CR, LF] then some (.done, { p with headerOffset := p.headerOffset + 2 })
  else
    match scanLineChecked size startLineMax (· == 0) ptr with
    | none => none
    | some .again => some (.again, p)
    | some .bad => some (.bad, p)
    | some (.line startLine) =>
      match startLineFieldsChecked size startLine with
      | none => none
      | some none => some (.bad, p)
      | some (some (p1, p2, p3)) =>
        some (.done, { matchStartLine p1 p2 p3 p with
          headerOffset := p.headerOffset + startLine.length + 2
          headerState := .headerName })

/-- `__parse_header_name` with `char namebuf[size]`, where the NUL takes the place of the colon. -/
def parseHeaderNameChecked (size : ℕ) (ptr : Bytes) (p : ParseState) :
    Option (Verdict × ParseState) :=
  if ptr.take 2 = [CR, LF] then
    some (.done, { p with headerOffset := p.headerOffset + 2, headerState := .headerComplete })
  else
    match scanChecked size headerNameMax (· == COLON) nonPositive [] ptr with
    | none => none
    | some (.done, name, _) =>
      some (.done, { p with
        namebuf := name
        headerOffset := p.headerOffset + name.length + 1
        headerState := .headerValue })
    | some (v, _, _) => some (v, p)

/-- `__parse_header_value` with `char header_value[size]`. -/
def parseHeaderValueChecked (size : ℕ) (ptr : Bytes) (p : ParseState) :
    Option (Verdict × ParseState) :=
  match scanValueChecked size true [] 0 ptr with
  | none => none
  | some .again => some (.again, p)
  | some .bad => some (.bad, p)
  | some (.value text used) =>
    some (.done, { httpParserAddHeader p.namebuf text p with
      headerOffset := p.headerOffset + used
      headerState := .headerName })

/-- `__parse_chunk_data` with `char chunk_line[size]`. -/
def parseChunkDataChecked (size : ℕ) (ptr : Bytes) (p : ParseState) :
    Option (Verdict × ParseState) :=
  match scanLineChecked size chunkLineMax (fun _ => false) ptr with
  | none => none
  | some .again => some (.again, p)
  | some .bad => some (.bad, p)
  | some (.line chunkLine) =>
    match strtol 16 (strdup chunkLine) with
    | none => some (.bad, p)
    | some chunkSize =>
      if chunkSize = 0 then
        some (.done, { p with
          chunkOffset := p.chunkOffset + chunkLine.length + 2
          chunkState := .trailerPart })
      else if toULong chunkSize < chunkSizeMax then
        let total := toULong chunkSize + chunkLine.length + 4
        if ptr.length < total then some (.again, p)
        else some (.done, { p with chunkOffset := p.chunkOffset + total })
      else some (.bad, p)

/-- A turn of `__parse_message_header`, with the arrays as they are declared. -/
def headerStepChecked (message : Bytes) (p : ParseState) : Option (Verdict × ParseState) :=
  let ptr := message.drop p.headerOffset
  match p.headerState with
  | .startLine => parseStartLineChecked startLineMax ptr p
  | .headerValue => parseHeaderValueChecked headerValueMax ptr p
  | _ => parseHeaderNameChecked headerNameMax ptr p

/-- A turn of `__parse_chunk`. `__parse_trailer_part` has no array. -/
def chunkStepChecked (message : Bytes) (p : ParseState) : Option (Verdict × ParseState) :=
  let ptr := message.drop p.chunkOffset
  match p.chunkState with
  | .chunkData => parseChunkDataChecked chunkLineMax ptr p
  | _ => some (parseTrailerPart ptr p)

theorem scanLineChecked_eq (limit : ℕ) (reject : UInt8 → Bool) (ptr : Bytes) :
    scanLineChecked limit limit reject ptr = some (scanLine limit reject ptr) := by
  rw [scanLineChecked, scanChecked_eq [] ptr (Nat.zero_le _), scanLine]
  rcases scanUntil limit (· == CR) reject [] ptr with ⟨_ | _ | _, text, _ | ⟨c, rest⟩⟩ <;> rfl

theorem startLineFieldsChecked_eq {size : ℕ} {startLine : Bytes} (h : startLine.length < size) :
    startLineFieldsChecked size startLine = some (startLineFields startLine) := by
  unfold startLineFieldsChecked startLineFields
  cases h1 : cutSpace startLine with
  | none => rfl
  | some cut =>
    obtain ⟨p1, rest⟩ := cut
    have hl1 := cutSpace_length h1
    have hp1 : ¬ size ≤ p1.length := by omega
    simp only [hp1, ↓reduceIte]
    cases h2 : cutSpace rest with
    | none => rfl
    | some cut =>
      obtain ⟨p2, p3⟩ := cut
      have hl2 := cutSpace_length h2
      have hp2 : ¬ size ≤ p1.length + 1 + p2.length := by omega
      simp only [hp2, ↓reduceIte]

theorem parseStartLineChecked_eq (ptr : Bytes) (p : ParseState) :
    parseStartLineChecked startLineMax ptr p = some (parseStartLine ptr p) := by
  rw [parseStartLineChecked, parseStartLine, scanLineChecked_eq]
  split_ifs
  · rfl
  cases hs : scanLine startLineMax (· == 0) ptr with
  | again | bad => rfl
  | line startLine =>
    simp only [startLineFieldsChecked_eq (scanLine_lt hs)]
    rcases startLineFields startLine with _ | ⟨p1, p2, p3⟩ <;> rfl

theorem parseHeaderNameChecked_eq (ptr : Bytes) (p : ParseState) :
    parseHeaderNameChecked headerNameMax ptr p = some (parseHeaderName ptr p) := by
  rw [parseHeaderNameChecked, parseHeaderName, scanChecked_eq [] ptr (Nat.zero_le _)]
  split_ifs
  · rfl
  · rcases scanUntil headerNameMax (· == COLON) nonPositive [] ptr with ⟨_ | _ | _, name, rest⟩ <;> rfl

theorem parseHeaderValueChecked_eq (ptr : Bytes) (p : ParseState) :
    parseHeaderValueChecked headerValueMax ptr p = some (parseHeaderValue ptr p) := by
  rw [parseHeaderValueChecked, parseHeaderValue, scanValueChecked_eq true [] 0 ptr (Nat.zero_le _)]
  cases scanValue true [] 0 ptr <;> rfl

theorem parseChunkDataChecked_eq (ptr : Bytes) (p : ParseState) :
    parseChunkDataChecked chunkLineMax ptr p = some (parseChunkData ptr p) := by
  rw [parseChunkDataChecked, parseChunkData, scanLineChecked_eq]
  cases scanLine chunkLineMax (fun _ => false) ptr with
  | again | bad => rfl
  | line chunkLine =>
    cases hs : strtol 16 (strdup chunkLine) with
    | none => simp only [hs]
    | some chunkSize =>
      simp only [hs]
      split_ifs <;> rfl

theorem headerStepChecked_eq (message : Bytes) (p : ParseState) :
    headerStepChecked message p = some (headerStep message p) := by
  unfold headerStepChecked headerStep
  cases p.headerState with
  | startLine => exact parseStartLineChecked_eq _ p
  | headerName => exact parseHeaderNameChecked_eq _ p
  | headerValue => exact parseHeaderValueChecked_eq _ p
  | headerComplete => exact parseHeaderNameChecked_eq _ p

theorem chunkStepChecked_eq (message : Bytes) (p : ParseState) :
    chunkStepChecked message p = some (chunkStep message p) := by
  unfold chunkStepChecked chunkStep
  cases p.chunkState with
  | chunkData => exact parseChunkDataChecked_eq _ p
  | trailerPart | chunkComplete => rfl

theorem growSize_ge {need : ℕ} (fuel size : ℕ) (h : need ≤ size * 2 ^ fuel) :
    need ≤ growSize need fuel size := by
  induction fuel generalizing size with
  | zero => simpa [growSize] using h
  | succ fuel ih =>
    rw [growSize]
    split_ifs with hs
    · apply ih
      calc
        need ≤ size * 2 ^ (fuel + 1) := h
        _ = 2 * size * 2 ^ fuel := by rw [Nat.pow_succ', ← Nat.mul_assoc, Nat.mul_comm size 2]
    · omega

theorem growSize_le {need bound : ℕ} (fuel size : ℕ) (h : size ≤ bound) (hn : 2 * need ≤ bound) :
    growSize need fuel size ≤ bound := by
  induction fuel generalizing size with
  | zero => exact h
  | succ fuel ih =>
    rw [growSize]
    split_ifs with hs
    · exact ih (2 * size) (by omega)
    · exact h

theorem growBuffer_ge (need bufsize : ℕ) : need ≤ growBuffer need bufsize := by
  unfold growBuffer
  split_ifs with h1 h2
  · apply growSize_ge
    exact Nat.lt_two_pow_self.le.trans (Nat.le_mul_of_pos_left _ (by decide))
  · apply growSize_ge
    refine Nat.lt_two_pow_self.le.trans (Nat.le_mul_of_pos_left _ ?_)
    have : msgbufInitSize = 2048 := rfl
    omega
  · omega

theorem growBuffer_le {need bufsize : ℕ} (hn : need ≤ 2 ^ 62) (hb : bufsize ≤ 2 ^ 63) :
    growBuffer need bufsize ≤ 2 ^ 63 := by
  unfold growBuffer
  split_ifs with h1 h2
  · exact growSize_le _ _ (by decide) (by omega)
  · exact growSize_le _ _ (by omega) (by omega)
  · exact hb

def ShortLength (n : ℕ) : Prop := n = sizeMax ∨ n < 10 ^ 15

def ShortLengths (p : ParseState) : Prop :=
  ShortLength p.contentLength ∧ ShortLength p.transferLength

theorem matchStartLine_lengths (p1 p2 p3 : Bytes) {p : ParseState} (h : ShortLengths p) :
    ShortLengths (matchStartLine p1 p2 p3 p) := by
  have hzero : ShortLength 0 := .inr (by decide)
  unfold matchStartLine matchStatusLine matchRequestLine
  split_ifs
  all_goals first | exact h | exact ⟨h.1, hzero⟩

theorem httpParserAddHeader_lengths (name value : Bytes) {p : ParseState} (h : ShortLengths p) :
    ShortLengths (httpParserAddHeader name value p) := by
  constructor
  · rw [httpParserAddHeader, checkMessageHeader_contentLength]
    split_ifs with hl
    · simp only [Bool.and_eq_true, decide_eq_true_eq] at hl
      right
      unfold atol
      cases hs : strtol 10 value with
      | none => simp
      | some n =>
        have hlt := strtol_lt_pow (by decide) hs
        have hpow : 10 ^ value.length ≤ 10 ^ 15 := Nat.pow_le_pow_right (by decide) hl.2
        rw [Option.getD_some]
        omega
    · exact h.1
  · obtain ⟨_, _, _, _, _, _, _, heq⟩ :=
      checkMessageHeader_frame name value (addMessageHeader name value p)
    rw [httpParserAddHeader, heq]
    exact h.2

theorem headerStep_lengths (msg : Bytes) (p p' : ParseState) (v : Verdict)
    (h : headerStep msg p = (v, p')) (hp : ShortLengths p) : ShortLengths p' := by
  refine headerStep_keeps ?_ ?_ ?_ msg p p' v h hp
  · exact fun p _ _ _ hp _ => hp
  · exact fun p1 p2 p3 p _ hp _ => matchStartLine_lengths p1 p2 p3 hp
  · exact fun name value p hp => httpParserAddHeader_lengths name value hp

theorem enterBody_lengths {p : ParseState} (h : ShortLengths p) : ShortLengths (enterBody p) := by
  unfold enterBody
  split_ifs
  · exact h
  · exact ⟨h.1, h.1⟩
  · exact h

structure Offsets (size : ℕ) (p : ParseState) : Prop where
  header : p.headerOffset ≤ size
  chunk : headerComplete p = true → p.chunked = true →
    p.headerOffset ≤ p.chunkOffset ∧ p.chunkOffset ≤ size

theorem Offsets.mono {m n : ℕ} {p : ParseState} (h : Offsets m p) (hmn : m ≤ n) : Offsets n p where
  header := h.header.trans hmn
  chunk := fun hh hc => ⟨(h.chunk hh hc).1, (h.chunk hh hc).2.trans hmn⟩

theorem parseMessageHeader_offset {msg : Bytes} {p q : ParseState} {v : Verdict}
    (h : parseMessageHeader msg p = (v, q)) (hp : p.headerOffset ≤ msg.length) :
    q.headerOffset ≤ msg.length :=
  (loop_pos_le headerStep_advances headerStep_stays h hp).2

theorem enterBody_offsets {p : ParseState} {size : ℕ} (h : p.headerOffset ≤ size) :
    Offsets size (enterBody p) where
  header := by rwa [enterBody_headerOffset]
  chunk := by
    intro _ hc
    rw [(enterBody_chunk hc).1, enterBody_headerOffset]
    exact ⟨le_rfl, h⟩

theorem bodyStep_moves {msg : Bytes} {p q : ParseState} {v : Verdict} (h : bodyStep msg p = (v, q)) :
    q = p ∨ (p.transferLength = sizeMax ∧ p.chunked = true ∧ parseChunk msg p = (v, q)) := by
  unfold bodyStep at h
  split_ifs at h with h1 h2 h3 h4
  · exact .inl (Prod.mk.inj h).2.symm
  · exact .inl (Prod.mk.inj h).2.symm
  · exact .inl (Prod.mk.inj h).2.symm
  · exact .inr ⟨by simpa using h1, by simpa using h3, h⟩
  · exact .inl (Prod.mk.inj h).2.symm

theorem bodyStep_offsets {msg : Bytes} {p q : ParseState} {v : Verdict}
    (h : bodyStep msg p = (v, q)) (hh : headerComplete p = true) (hp : Offsets msg.length p) :
    Offsets msg.length q := by
  obtain rfl | ⟨_, hc, hchunk⟩ := bodyStep_moves h
  · exact hp
  · have same := parseChunk_sameHeader hchunk
    have hlow := hp.chunk hh hc
    have hle := loop_pos_le chunkStep_advances chunkStep_stays hchunk hlow.2
    constructor
    · rw [same.headerOffset]
      exact hp.header
    · intro _ _
      rw [same.headerOffset]
      exact ⟨hlow.1.trans hle.1, hle.2⟩

theorem bodyStep_done_offsets {msg : Bytes} {p q : ParseState}
    (h : bodyStep msg (enterBody p) = (.done, q)) (hp : p.headerOffset ≤ msg.length) :
    Offsets (endOffset q) q := by
  have hend := (bodyStep_exact h).1
  obtain rfl | ⟨ht, hc, hchunk⟩ := bodyStep_moves h
  · exact enterBody_offsets hend
  · have same := parseChunk_sameHeader hchunk
    have hlow := (enterBody_offsets hp).chunk
    have he : endOffset q = q.chunkOffset := by simp [endOffset, same.transferLength, ht]
    rw [he] at hend ⊢
    constructor
    · rwa [same.headerOffset, enterBody_headerOffset]
    · intro _ _
      rw [same.headerOffset, enterBody_headerOffset]
      exact ⟨hend, le_rfl⟩

theorem parseMessage_offsets {msg : Bytes} {p q : ParseState} {v : Verdict}
    (h : parseMessage msg p = (v, q)) (hp : headerComplete p = false)
    (hoff : p.headerOffset ≤ msg.length) :
    Offsets msg.length q ∧ (v = .done → Offsets (endOffset q) q) := by
  rw [parseMessage] at h
  obtain ⟨r, hs, hbody⟩ | ⟨hv, hs⟩ := andThen_cases hp h
  · have hr := parseMessageHeader_offset hs hoff
    have hcomplete : headerComplete (enterBody r) = true := by
      simpa [headerComplete, enterBody_headerState] using parseMessageHeader_complete hs
    refine ⟨bodyStep_offsets hbody hcomplete (enterBody_offsets hr), ?_⟩
    rintro rfl
    exact bodyStep_done_offsets hbody hr
  · have hstop : headerComplete q = false :=
      loop_waiting headerStep_advances headerStep_stays hs hv hp
    refine ⟨⟨parseMessageHeader_offset hs hoff, fun hcomplete => ?_⟩, fun hd => absurd hd hv⟩
    rw [hstop] at hcomplete
    cases hcomplete

theorem parseMessage_lengths {msg : Bytes} {p q : ParseState} {v : Verdict}
    (h : parseMessage msg p = (v, q)) (hl : ShortLengths p) : ShortLengths q := by
  refine parseMessage_keeps headerStep_lengths (fun _ => enterBody_lengths) ?_ h hl
  intro p q same hp
  rwa [← same]

/-- The parsers that calls on a fresh one lead to, up to the first negative result, with the number
    of bytes passed in. -/
inductive Fed (isResp : Bool) : ℕ → HttpParser → Prop
  | init : Fed isResp 0 (httpParserInit isResp)
  | call {total : ℕ} {parser : HttpParser} (buf : Bytes) : Fed isResp total parser →
      (httpParserAppendMessage buf parser).1 ≠ .bad →
      Fed isResp (total + buf.length) (httpParserAppendMessage buf parser).2.2

def bodyState (message : Bytes) (p : ParseState) : Option ParseState :=
  if p.headerState = .headerComplete then some p
  else
    match parseMessageHeader message p with
    | (.done, q) => some (enterBody q)
    | _ => none

/-- A turn of a parse loop starts inside the message, fails no check of an array index and moves
    forward if the loop goes on. -/
structure TurnSafe (step : Bytes → ParseState → Verdict × ParseState)
    (checked : Bytes → ParseState → Option (Verdict × ParseState)) (pos : ParseState → ℕ)
    (message : Bytes) (p : ParseState) : Prop where
  offset : pos p ≤ message.length
  inside : checked message p = some (step message p)
  forward : ∀ p', step message p = (.done, p') → pos p < pos p' ∧ pos p' ≤ message.length

structure OffsetsInRange (parser : HttpParser) : Prop where
  offsets : Offsets parser.msgsize parser.toParseState
  buffer : parser.msgsize < parser.bufsize
  noWrap : parser.bufsize < 2 ^ 64

structure CallSafe (buf : Bytes) (parser : HttpParser) (message : Bytes)
    (r : Verdict × ℕ × HttpParser) : Prop where
  headerTurns : ∀ p, parser.headerState ≠ .headerComplete →
    Visited headerStep headerComplete message parser.toParseState p →
    TurnSafe headerStep headerStepChecked ParseState.headerOffset message p
  total : ∀ p, bodyState message parser.toParseState = some p → p.transferLength ≠ sizeMax →
    p.headerOffset + p.transferLength < 2 ^ 64
  chunkTurns : ∀ p p', bodyState message parser.toParseState = some p →
    p.transferLength = sizeMax → p.chunked = true →
    Visited chunkStep chunkComplete message p p' →
    TurnSafe chunkStep chunkStepChecked ParseState.chunkOffset message p'
  surplus : r.1 = .done → r.2.2.msgsize ≤ message.length ∧
    message.length - r.2.2.msgsize ≤ buf.length
  consumes : r.1 = .done → buf ≠ [] → 0 < r.2.1

structure Sound (isResp : Bool) (total : ℕ) (parser : HttpParser) : Prop where
  size : parser.msgsize ≤ total
  room : parser.bufsize ≤ 2 ^ 63
  finished : parser.complete = true → OffsetsInRange parser
  midway : parser.complete = false → Midway (httpParserInit isResp).toParseState parser
  state : parser.complete = false → parser.toParseState =
    (parseMessage parser.msgbuf (httpParserInit isResp).toParseState).2

theorem httpParserInit_sound (isResp : Bool) : Sound isResp 0 (httpParserInit isResp) where
  size := Nat.zero_le _
  room := Nat.zero_le _
  finished := by rintro ⟨⟩
  midway := fun _ => httpParserInit_midway isResp
  state := fun _ => by cases isResp <;> rfl

theorem httpParserInit_lengths (isResp : Bool) :
    ShortLengths (httpParserInit isResp).toParseState := by
  cases isResp with
  | false => exact ⟨.inr (by decide), .inl rfl⟩
  | true => exact ⟨.inl rfl, .inl rfl⟩

section Call

variable {isResp : Bool} {total : ℕ} {parser : HttpParser} (buf : Bytes)

theorem Sound.offsets (h : Sound isResp total parser) (hc : parser.complete = false) :
    Offsets parser.msgsize parser.toParseState := by
  have hs := h.state hc
  rcases hp : parseMessage parser.msgbuf (httpParserInit isResp).toParseState with ⟨v, q⟩
  rw [hp] at hs
  rw [hs, ← (h.midway hc).buffered]
  exact (parseMessage_offsets hp rfl (Nat.zero_le _)).1

theorem Sound.lengths (h : Sound isResp total parser) (hc : parser.complete = false) :
    ShortLengths parser.toParseState := by
  rw [h.state hc]
  exact parseMessage_lengths rfl (httpParserInit_lengths isResp)

theorem Sound.take (h : Sound isResp total parser) (hc : parser.complete = false) :
    parser.msgbuf.take parser.msgsize = parser.msgbuf := by
  rw [← (h.midway hc).buffered, take_length]

theorem Sound.append_eq (h : Sound isResp total parser) (hc : parser.complete = false) :
    httpParserAppendMessage buf parser =
      settled buf.length (parser.msgbuf ++ buf)
        (growBuffer (parser.msgsize + buf.length + 1) parser.bufsize)
        (parseMessage (parser.msgbuf ++ buf) (httpParserInit isResp).toParseState) := by
  have mid := h.midway hc
  rw [Http.append_eq buf parser hc mid.buffered, mid.resumes buf]

theorem Sound.grow_le (h : Sound isResp total parser) (hn : total + buf.length < 2 ^ 62) :
    growBuffer (parser.msgsize + buf.length + 1) parser.bufsize ≤ 2 ^ 63 := by
  have hsize := h.size
  exact growBuffer_le (by omega) h.room

theorem Sound.append_inRange (h : Sound isResp total parser) (hn : total + buf.length < 2 ^ 62) :
    OffsetsInRange (httpParserAppendMessage buf parser).2.2 := by
  cases hc : parser.complete with
  | true =>
    rw [httpParserAppendMessage, if_pos hc]
    exact h.finished hc
  | false =>
    have hlen : (parser.msgbuf ++ buf).length = parser.msgsize + buf.length := by
      rw [length_append, (h.midway hc).buffered]
    have hge := growBuffer_ge (parser.msgsize + buf.length + 1) parser.bufsize
    have hle := h.grow_le buf hn
    rw [h.append_eq buf hc]
    rcases hp : parseMessage (parser.msgbuf ++ buf) (httpParserInit isResp).toParseState with ⟨v, q⟩
    have hoff := parseMessage_offsets hp rfl (Nat.zero_le _)
    have hstop : OffsetsInRange ⟨q, parser.msgbuf ++ buf, (parser.msgbuf ++ buf).length,
        growBuffer (parser.msgsize + buf.length + 1) parser.bufsize⟩ :=
      ⟨hoff.1, by simp only [hlen]; omega, by simp only; omega⟩
    cases v with
    | again | bad => exact hstop
    | done =>
      have hend := (parseMessage_exact rfl hp).1
      have hdone := hoff.2 rfl
      exact ⟨⟨hdone.header, hdone.chunk⟩, by simp only [settled]; omega, by simp only [settled]; omega⟩

theorem Sound.call (h : Sound isResp total parser) (hn : total + buf.length < 2 ^ 62)
    (hv : (httpParserAppendMessage buf parser).1 ≠ .bad) :
    Sound isResp (total + buf.length) (httpParserAppendMessage buf parser).2.2 := by
  have hrange := h.append_inRange buf hn
  have hsize := h.size
  cases hc : parser.complete with
  | true =>
    rw [httpParserAppendMessage, if_pos hc]
    exact ⟨by simp only; omega, h.room, h.finished, h.midway, h.state⟩
  | false =>
    have mid := h.midway hc
    have hlen : (parser.msgbuf ++ buf).length = parser.msgsize + buf.length := by
      rw [length_append, mid.buffered]
    have hle := h.grow_le buf hn
    rw [h.append_eq buf hc] at hv hrange ⊢
    rcases hp : parseMessage (parser.msgbuf ++ buf) (httpParserInit isResp).toParseState with ⟨v, q⟩
    rw [hp] at hv hrange
    cases v with
    | bad => exact absurd rfl hv
    | again =>
      have hnext := mid.next buf (growBuffer (parser.msgsize + buf.length + 1) parser.bufsize) hp
      exact ⟨by simp only [settled]; omega, hle, fun _ => hrange, fun _ => hnext,
        fun _ => by simp only [settled, hp]⟩
    | done =>
      have hend := (parseMessage_exact rfl hp).1
      exact ⟨by simp only [settled]; omega, hle, fun _ => hrange, (by rintro ⟨⟩), (by rintro ⟨⟩)⟩

theorem Fed.sound (h : Fed isResp total parser) (hn : total < 2 ^ 62) :
    Sound isResp total parser := by
  induction h with
  | init => exact httpParserInit_sound isResp
  | call buf _ hv ih => exact (ih (by omega)).call buf hn hv

theorem Sound.body (h : Sound isResp total parser) (hc : parser.complete = false) {p : ParseState}
    (hp : bodyState (parser.msgbuf ++ buf) parser.toParseState = some p) :
    headerComplete p = true ∧ Offsets (parser.msgbuf ++ buf).length p ∧ ShortLengths p := by
  have hoff := (h.offsets hc).mono (n := (parser.msgbuf ++ buf).length) (by
    rw [length_append, (h.midway hc).buffered]
    omega)
  have hlen := h.lengths hc
  unfold bodyState at hp
  split_ifs at hp with hs
  · cases hp
    exact ⟨by simp [headerComplete, hs], hoff, hlen⟩
  · split at hp
    · next q hq =>
      cases hp
      have hcomplete : headerComplete (enterBody q) = true := by
        simpa [headerComplete, enterBody_headerState] using parseMessageHeader_complete hq
      exact ⟨hcomplete, enterBody_offsets (parseMessageHeader_offset hq hoff.header),
        enterBody_lengths (loop_preserves headerStep_advances headerStep_lengths hq hlen)⟩
    · cases hp

theorem Sound.append_stored_le (h : Sound isResp total parser) :
    (httpParserAppendMessage buf parser).2.1 ≤ buf.length := by
  cases hc : parser.complete with
  | true =>
    rw [httpParserAppendMessage, if_pos hc]
    exact Nat.zero_le _
  | false =>
    rw [h.append_eq buf hc]
    rcases parseMessage (parser.msgbuf ++ buf) (httpParserInit isResp).toParseState with
      ⟨_ | _ | _, q⟩
    · exact le_rfl
    · exact le_rfl
    · exact Nat.sub_le _ _

theorem Sound.append_done (h : Sound isResp total parser) (hc : parser.complete = false)
    (hd : (httpParserAppendMessage buf parser).1 = .done) :
    let r := httpParserAppendMessage buf parser
    parser.msgsize < r.2.2.msgsize ∧ r.2.2.msgsize ≤ parser.msgsize + buf.length ∧
      r.2.1 = buf.length - (parser.msgsize + buf.length - r.2.2.msgsize) := by
  have mid := h.midway hc
  have hlen : (parser.msgbuf ++ buf).length = parser.msgsize + buf.length := by
    rw [length_append, mid.buffered]
  rw [h.append_eq buf hc] at hd ⊢
  rcases hp : parseMessage (parser.msgbuf ++ buf) (httpParserInit isResp).toParseState with
    ⟨_ | _ | _, q⟩
  · rw [hp] at hd
    cases hd
  · rw [hp] at hd
    cases hd
  · have hend := (parseMessage_exact rfl hp).1
    have hbefore := mid.before rfl hp
    rw [mid.buffered] at hbefore
    rw [hlen] at hend
    refine ⟨hbefore, hend, ?_⟩
    rw [settled, hlen]

theorem Sound.callSafe (h : Sound isResp total parser) (hc : parser.complete = false)
    (hn : total + buf.length < 2 ^ 62) :
    CallSafe buf parser (parser.msgbuf.take parser.msgsize ++ buf)
      (httpParserAppendMessage buf parser) := by
  have mid := h.midway hc
  have hsize := h.size
  have hlen : (parser.msgbuf ++ buf).length = parser.msgsize + buf.length := by
    rw [length_append, mid.buffered]
  rw [h.take hc]
  constructor
  · intro p _ hvisit
    have hhead := (h.offsets hc).header
    have hle := hvisit.pos_le headerStep_advances (by omega)
    exact ⟨hle, headerStepChecked_eq _ _, fun p' => headerStep_advances _ p p'⟩
  · intro p hp ht
    obtain ⟨_, hoff, hshort⟩ := h.body buf hc hp
    have hhead := hoff.header
    have hlt := hshort.2.resolve_left ht
    omega
  · intro p p' hp _ hchunked hvisit
    obtain ⟨hcomplete, hoff, _⟩ := h.body buf hc hp
    have hle := hvisit.pos_le chunkStep_advances (hoff.chunk hcomplete hchunked).2
    exact ⟨hle, chunkStepChecked_eq _ _, fun q => chunkStep_advances _ p' q⟩
  · intro hd
    obtain ⟨hlow, hhigh, _⟩ := h.append_done buf hc hd
    omega
  · intro hd hbuf
    have hpos := length_pos_of_ne_nil hbuf
    obtain ⟨hlow, hhigh, hn⟩ := h.append_done buf hc hd
    omega

/-- Every call keeps the offsets inside the buffer and stays inside its arrays, and no `size_t`
    wraps. -/
theorem appendMessage_in_range (h : Fed isResp total parser) (hn : total + buf.length < 2 ^ 62) :
    let r := httpParserAppendMessage buf parser
    OffsetsInRange r.2.2 ∧ r.2.1 ≤ buf.length ∧
      (parser.complete = false →
        CallSafe buf parser (parser.msgbuf.take parser.msgsize ++ buf) r) := by
  have hs := h.sound (by omega)
  exact ⟨hs.append_inRange buf hn, hs.append_stored_le buf, fun hc => hs.callSafe buf hc hn⟩

end Call

theorem secondPiece_in_range :
    let parser := (httpParserAppendMessage (bytes "GET / HTTP/1.1\r\n") (httpParserInit false)).2.2
    let r := httpParserAppendMessage (bytes "\r\n") parser
    Fed false 16 parser ∧ r.1 = .done ∧ OffsetsInRange r.2.2 ∧ 0 < r.2.1 := by
  intro parser r
  have hfed : Fed false 16 parser := Fed.call (bytes "GET / HTTP/1.1\r\n") .init (by decide +kernel)
  have hdone : r.1 = .done := by decide +kernel
  have h := appendMessage_in_range (bytes "\r\n") hfed (by decide)
  have hsafe := h.2.2 (by decide +kernel)
  exact ⟨hfed, hdone, h.1, hsafe.consumes hdone (by decide)⟩

end MyWorkflow.Http
