import Mathlib.Algebra.GroupWithZero.Nat
import MyWorkflow.HttpParserResume

set_option autoImplicit false

namespace MyWorkflow.Http
open List CString Incremental

def bodyStep (message : Bytes) (p : ParseState) : Verdict × ParseState :=
  if p.transferLength ≠ sizeMax then
    if p.headerOffset + p.transferLength ≤ message.length then (.done, p) else (.again, p)
  else if !p.chunked then (.again, p)
  else if p.chunkState ≠ .chunkComplete then parseChunk message p
  else (.done, p)

def parseMessage : Bytes → ParseState → Verdict × ParseState :=
  andThen headerComplete parseMessageHeader bodyStep enterBody

def endOffset (p : ParseState) : ℕ :=
  if p.transferLength ≠ sizeMax then p.headerOffset + p.transferLength else p.chunkOffset

def SameHeader (p q : ParseState) : Prop :=
  { p with chunkOffset := q.chunkOffset, chunkState := q.chunkState } = q

theorem chunkStep_sameHeader (p₀ : ParseState) (msg : Bytes) (p p' : ParseState) (v : Verdict)
    (h : chunkStep msg p = (v, p')) (hp : SameHeader p₀ p) : SameHeader p₀ p' := by
  unfold SameHeader at hp ⊢
  rw [chunkStep_eq] at h
  cases hs : p.chunkState with
  | chunkData =>
    simp only [hs, chunkParser, parseChunkData] at h
    split at h
    · cases h; exact hp
    · cases h; exact hp
    · split at h
      · cases h; exact hp
      · split_ifs at h <;> cases h <;> first | exact hp | (rw [← hp])
  | trailerPart =>
    simp only [hs, chunkParser, parseTrailerPart] at h
    split at h <;> cases h <;> first | exact hp | (rw [← hp])
  | chunkComplete =>
    simp only [hs, chunkParser, parseTrailerPart] at h
    split at h <;> cases h <;> first | exact hp | (rw [← hp])

theorem parseChunk_sameHeader {msg : Bytes} {p p' : ParseState} {v : Verdict}
    (h : parseChunk msg p = (v, p')) : SameHeader p p' :=
  loop_preserves chunkStep_advances (chunkStep_sameHeader p) h rfl

theorem SameHeader.transferLength {p q : ParseState} (h : SameHeader p q) :
    q.transferLength = p.transferLength := by
  rw [← h]

theorem SameHeader.chunked {p q : ParseState} (h : SameHeader p q) : q.chunked = p.chunked := by
  rw [← h]

theorem SameHeader.headerState {p q : ParseState} (h : SameHeader p q) :
    q.headerState = p.headerState := by
  rw [← h]

theorem SameHeader.headerOffset {p q : ParseState} (h : SameHeader p q) :
    q.headerOffset = p.headerOffset := by
  rw [← h]

theorem bodyStep_sameHeader {msg : Bytes} {p q : ParseState} {v : Verdict}
    (h : bodyStep msg p = (v, q)) : SameHeader p q := by
  unfold bodyStep at h
  split_ifs at h
  · cases h
    rfl
  · cases h
    rfl
  · cases h
    rfl
  · exact parseChunk_sameHeader h
  · cases h
    rfl

theorem parseChunk_waiting {msg : Bytes} {p p' : ParseState}
    (h : parseChunk msg p = (.again, p')) (hp : p.chunkState ≠ .chunkComplete) :
    p'.chunkState ≠ .chunkComplete := by
  have := loop_waiting chunkStep_advances chunkStep_stays h (by decide)
    (by simpa [chunkComplete] using hp)
  simpa [chunkComplete] using this

theorem parseChunk_resumable : Resumable parseChunk :=
  chunkStep_resumable.loop chunkStep_advances

theorem bodyStep_chunk {msg : Bytes} {p : ParseState} (ht : p.transferLength = sizeMax)
    (hc : p.chunked = true) (hs : p.chunkState ≠ .chunkComplete) :
    bodyStep msg p = parseChunk msg p := by
  simp [bodyStep, ht, hc, hs]

theorem bodyStep_again {msg : Bytes} {p p' : ParseState} (h : bodyStep msg p = (.again, p')) :
    p' = p ∨ (p.transferLength = sizeMax ∧ p.chunked = true ∧
      p.chunkState ≠ .chunkComplete ∧ parseChunk msg p = (.again, p')) := by
  unfold bodyStep at h
  split_ifs at h with h1 h2 h3 h4
  · cases h
  · exact .inl (Prod.mk.inj h).2.symm
  · exact .inl (Prod.mk.inj h).2.symm
  · exact .inr ⟨by simpa using h1, by simpa using h3, h4, h⟩
  · cases h

theorem bodyStep_resumable : Resumable bodyStep where
  settle := by
    intro msg more p p' v h hv
    by_cases ht : p.transferLength = sizeMax
    · by_cases hc : p.chunked = true
      · by_cases hs : p.chunkState = .chunkComplete
        · simpa [bodyStep, ht, hc, hs] using h
        · rw [bodyStep_chunk ht hc hs] at h ⊢
          exact parseChunk_resumable.settle more h hv
      · simp only [bodyStep, ht, hc] at h
        cases h
        exact absurd rfl hv
    · simp only [bodyStep, ht, ne_eq, not_false_eq_true, ↓reduceIte] at h ⊢
      split_ifs at h with hl
      · rwa [if_pos (by simp only [length_append]; omega)]
      · cases h
        exact absurd rfl hv
  restart := by
    intro msg more p p' h
    obtain rfl | ⟨ht, hc, hs, h⟩ := bodyStep_again h
    · rfl
    · have same := parseChunk_sameHeader h
      rw [bodyStep_chunk ht hc hs, bodyStep_chunk (same.transferLength.trans ht)
        (same.chunked.trans hc) (parseChunk_waiting h hs)]
      exact parseChunk_resumable.restart more h

theorem enterBody_headerState (p : ParseState) : (enterBody p).headerState = p.headerState := by
  unfold enterBody
  split_ifs <;> rfl

theorem enterBody_headerOffset (p : ParseState) : (enterBody p).headerOffset = p.headerOffset := by
  unfold enterBody
  split_ifs <;> rfl

theorem parseMessageHeader_complete {msg : Bytes} {p p' : ParseState}
    (h : parseMessageHeader msg p = (.done, p')) : headerComplete p' = true :=
  loop_halted headerStep_advances h

theorem parseMessage_resumable : Resumable parseMessage := by
  refine (headerStep_resumable.loop headerStep_advances).andThen bodyStep_resumable ?_ ?_ ?_
  · intro msg p p' hp h
    exact loop_waiting headerStep_advances headerStep_stays h (by decide) hp
  · intro msg p p' hp h
    obtain rfl | ⟨_, _, _, h⟩ := bodyStep_again h
    · exact hp
    · simpa [headerComplete, (parseChunk_sameHeader h).headerState] using hp
  · intro msg p p' h
    have hd := parseMessageHeader_complete h
    simpa [headerComplete, enterBody_headerState] using hd

theorem enterBody_chunk {p : ParseState} (hc : (enterBody p).chunked = true) :
    (enterBody p).chunkOffset = p.headerOffset ∧ (enterBody p).chunkState = .chunkData := by
  unfold enterBody at hc ⊢
  split_ifs at hc ⊢ with h1 h2
  · exact ⟨rfl, rfl⟩
  · exact absurd hc h1
  · exact absurd hc h1

theorem bodyStep_exact {msg : Bytes} {p p' : ParseState}
    (h : bodyStep msg (enterBody p) = (.done, p')) :
    p.headerOffset ≤ endOffset p' ∧ endOffset p' ≤ msg.length ∧
      ∀ m, endOffset p' ≤ m → bodyStep (msg.take m) (enterBody p) = (.done, p') := by
  by_cases ht : (enterBody p).transferLength = sizeMax
  · by_cases hc : (enterBody p).chunked = true
    · obtain ⟨ho, hs⟩ := enterBody_chunk hc
      have hs' : (enterBody p).chunkState ≠ .chunkComplete := by rw [hs]; decide
      rw [bodyStep_chunk ht hc hs'] at h
      have hend : endOffset p' = p'.chunkOffset := by
        simp [endOffset, (parseChunk_sameHeader h).transferLength, ht]
      have hadv := loop_advances chunkStep_advances msg (enterBody p) p' h
      rw [hend]
      refine ⟨by omega, hadv.2, fun m hm => ?_⟩
      rw [bodyStep_chunk ht hc hs']
      exact loop_exact chunkStep_advances chunkStep_frugal h hm
    · simp [bodyStep, ht, hc] at h
  · simp only [bodyStep, ht, ne_eq, not_false_eq_true, ↓reduceIte] at h
    split_ifs at h with hl
    · obtain ⟨-, rfl⟩ := Prod.mk.inj h
      have hend : endOffset (enterBody p) =
          (enterBody p).headerOffset + (enterBody p).transferLength := by
        simp [endOffset, ht]
      rw [hend]
      refine ⟨by rw [enterBody_headerOffset]; omega, hl, fun m hm => ?_⟩
      simp only [bodyStep, ht, ne_eq, not_false_eq_true, ↓reduceIte]
      rw [if_pos (by simp only [length_take]; omega)]
    · cases h

theorem parseMessage_exact {msg : Bytes} {p p' : ParseState} (hp : headerComplete p = false)
    (h : parseMessage msg p = (.done, p')) : endOffset p' ≤ msg.length ∧
      ∀ m, endOffset p' ≤ m → parseMessage (msg.take m) p = (.done, p') := by
  obtain ⟨q, hs, hbody⟩ := andThen_inv hp h
  obtain ⟨h1, h2, h3⟩ := bodyStep_exact hbody
  refine ⟨h2, fun m hm => ?_⟩
  have hq : parseMessageHeader (msg.take m) p = (.done, q) :=
    loop_exact headerStep_advances headerStep_frugal hs (by omega)
  rw [parseMessage, andThen_done hp hq]
  exact h3 m hm

def settled (n : ℕ) (message : Bytes) (bufsize : ℕ) :
    Verdict × ParseState → Verdict × ℕ × HttpParser
  | (.done, p) => (.done, n - (message.length - endOffset p),
      ⟨{ p with complete := true }, message, endOffset p, bufsize⟩)
  | (v, p) => (v, n, ⟨p, message, message.length, bufsize⟩)

theorem settled_body (n : ℕ) (message : Bytes) (bufsize : ℕ) (p : ParseState) :
    settled n message bufsize (bodyStep message p) =
      if p.transferLength ≠ sizeMax then
        if message.length ≥ p.headerOffset + p.transferLength then
          (.done, n - (message.length - (p.headerOffset + p.transferLength)),
            ⟨{ p with complete := true }, message, p.headerOffset + p.transferLength, bufsize⟩)
        else (.again, n, ⟨p, message, message.length, bufsize⟩)
      else if !p.chunked then (.again, n, ⟨p, message, message.length, bufsize⟩)
      else
        match (if p.chunkState ≠ .chunkComplete then parseChunk message p else (.done, p)) with
        | (.done, p) =>
          (.done, n - (message.length - p.chunkOffset),
            ⟨{ p with complete := true }, message, p.chunkOffset, bufsize⟩)
        | (v, p) => (v, n, ⟨p, message, message.length, bufsize⟩) := by
  by_cases ht : p.transferLength = sizeMax
  · by_cases hc : p.chunked = true
    · by_cases hs : p.chunkState = .chunkComplete
      · simp [bodyStep, ht, hc, hs, settled, endOffset]
      · rw [bodyStep_chunk ht hc hs]
        simp only [ht, hc, hs, ne_eq, not_true_eq_false, Bool.not_true, Bool.false_eq_true,
          not_false_eq_true, ↓reduceIte]
        rcases hp : parseChunk message p with ⟨_ | _ | _, q⟩
        · rfl
        · rfl
        · simp [settled, endOffset, (parseChunk_sameHeader hp).transferLength, ht]
    · simp [bodyStep, ht, hc, settled]
  · simp only [bodyStep, ht, ne_eq, not_false_eq_true, ↓reduceIte]
    split_ifs with hl
    · simp [settled, endOffset, ht]
    · rfl

theorem append_eq (buf : Bytes) (parser : HttpParser) (hc : parser.complete = false)
    (hb : parser.msgbuf.length = parser.msgsize) :
    httpParserAppendMessage buf parser =
      settled buf.length (parser.msgbuf ++ buf)
        (growBuffer (parser.msgsize + buf.length + 1) parser.bufsize)
        (parseMessage (parser.msgbuf ++ buf) parser.toParseState) := by
  have htake : parser.msgbuf.take parser.msgsize = parser.msgbuf := by rw [← hb, take_length]
  have hlen : (parser.msgbuf ++ buf).length = parser.msgsize + buf.length := by simp [hb]
  unfold httpParserAppendMessage
  simp only [hc, htake, Bool.false_eq_true, ↓reduceIte, ← hlen]
  by_cases hh : parser.headerState = .headerComplete
  · have hp : headerComplete parser.toParseState = true := by simp [headerComplete, hh]
    rw [parseMessage, andThen_second hp, if_neg (not_not_intro hh)]
    exact (settled_body _ _ _ _).symm
  · have hp : headerComplete parser.toParseState = false := by simp [headerComplete, hh]
    simp only [hh, ne_eq, not_false_eq_true, ↓reduceIte]
    rcases hs : parseMessageHeader (parser.msgbuf ++ buf) parser.toParseState with ⟨_ | _ | _, q⟩
    · rw [parseMessage, andThen_stop hp hs (by decide)]
      rfl
    · rw [parseMessage, andThen_stop hp hs (by decide)]
      rfl
    · rw [parseMessage, andThen_done hp hs]
      exact (settled_body _ _ _ _).symm

/-- One call per piece, up to the first that returns 1 or -2: the value and the `*n` of
    each call, and the parser behind the last. -/
def appendPieces (parser : HttpParser) : List Bytes → List (Verdict × ℕ) × HttpParser
  | [] => ([], parser)
  | piece :: pieces =>
    match httpParserAppendMessage piece parser with
    | (.again, n, parser') =>
      let (calls, last) := appendPieces parser' pieces
      ((.again, n) :: calls, last)
    | (v, n, parser') => ([(v, n)], parser')

structure Agrees (whole : Bytes) (before : ℕ) (r : Verdict × ParseState)
    (run : List (Verdict × ℕ) × HttpParser) : Prop where
  verdict : ∀ v, v ≠ .again → (r.1 = v ↔ ∃ call ∈ run.1, call.1 = v)
  waits : r.1 = .again ↔ ∀ call ∈ run.1, call.1 = .again
  consumed : r.1 = .done → before + (run.1.map Prod.snd).sum = endOffset r.2
  state : r.1 = .done → run.2.toParseState = { r.2 with complete := true }
  size : r.1 = .done → run.2.msgsize = endOffset r.2
  message : r.1 = .done → run.2.msgbuf.take run.2.msgsize = whole.take run.2.msgsize

/-- The bytes so far settle nothing, and the parser goes on as one in state `p₀` does on all of
    them. -/
structure Midway (p₀ : ParseState) (parser : HttpParser) : Prop where
  incomplete : parser.complete = false
  buffered : parser.msgbuf.length = parser.msgsize
  waiting : (parseMessage parser.msgbuf p₀).1 = .again
  resumes : ∀ more, parseMessage (parser.msgbuf ++ more) parser.toParseState =
    parseMessage (parser.msgbuf ++ more) p₀

theorem matchStartLine_complete (p1 p2 p3 : Bytes) (p : ParseState) :
    (matchStartLine p1 p2 p3 p).complete = p.complete := by
  unfold matchStartLine matchStatusLine matchRequestLine
  split_ifs <;> rfl

theorem httpParserAddHeader_complete (name value : Bytes) (p : ParseState) :
    (httpParserAddHeader name value p).complete = p.complete := by
  unfold httpParserAddHeader checkMessageHeader addMessageHeader
  split
  all_goals first | (split_ifs <;> rfl) | rfl

theorem headerStep_keeps {P : ParseState → Prop}
    (move : ∀ p offset state name, P p → (state = .startLine → p.headerState = .startLine) →
      P { p with headerOffset := offset, headerState := state, namebuf := name })
    (start : ∀ p1 p2 p3 p offset, P p → p.headerState = .startLine →
      P { matchStartLine p1 p2 p3 p with headerOffset := offset, headerState := .headerName })
    (line : ∀ name value p, P p → P (httpParserAddHeader name value p))
    (msg : Bytes) (p p' : ParseState) (v : Verdict) (h : headerStep msg p = (v, p'))
    (hp : P p) : P p' := by
  have hname : ∀ ptr, parseHeaderName ptr p = (v, p') → P p' := by
    intro ptr h
    unfold parseHeaderName at h
    split_ifs at h
    · cases h
      exact move p _ _ p.namebuf hp (by simp)
    · split at h
      · cases h
        exact move p _ _ _ hp (by simp)
      · cases h
        exact hp
  rw [headerStep_eq] at h
  cases hs : p.headerState with
  | startLine =>
    simp only [hs, headerParser, parseStartLine] at h
    split_ifs at h
    · cases h
      exact move p _ _ p.namebuf hp fun _ => hs
    · split at h
      · cases h
        exact hp
      · cases h
        exact hp
      · split at h
        · cases h
          exact hp
        · next p1 p2 p3 _ =>
          cases h
          exact start p1 p2 p3 p _ hp hs
  | headerValue =>
    simp only [hs, headerParser, parseHeaderValue] at h
    split at h
    · cases h
      exact hp
    · cases h
      exact hp
    · next text used _ =>
      cases h
      exact move _ _ _ (httpParserAddHeader p.namebuf text p).namebuf (line p.namebuf text p hp)
        (by simp)
  | headerName =>
    rw [hs] at h
    exact hname _ h
  | headerComplete =>
    rw [hs] at h
    exact hname _ h

theorem parseMessage_keeps {P : ParseState → Prop}
    (header : ∀ msg p p' v, headerStep msg p = (v, p') → P p → P p')
    (enter : ∀ p, P p → P (enterBody p)) (body : ∀ p q, SameHeader p q → P p → P q) {msg : Bytes}
    {p q : ParseState} {v : Verdict} (h : parseMessage msg p = (v, q)) (hp : P p) : P q := by
  have hheader : ∀ {r w}, parseMessageHeader msg p = (w, r) → P r :=
    fun hs => loop_preserves headerStep_advances header hs hp
  cases hf : headerComplete p with
  | true =>
    rw [parseMessage, andThen_second hf] at h
    exact body p q (bodyStep_sameHeader h) hp
  | false =>
    obtain ⟨r, hs, hbody⟩ | ⟨-, hs⟩ := andThen_cases hf h
    · exact body _ q (bodyStep_sameHeader hbody) (enter r (hheader hs))
    · exact hheader hs

theorem enterBody_complete (p : ParseState) : (enterBody p).complete = p.complete := by
  unfold enterBody
  split_ifs <;> rfl

theorem parseMessage_incomplete {msg : Bytes} {p p' : ParseState} {v : Verdict}
    (h : parseMessage msg p = (v, p')) (hp : p.complete = false) : p'.complete = false := by
  refine parseMessage_keeps (P := fun p => p.complete = false) (headerStep_keeps ?_ ?_ ?_) ?_ ?_ h hp
  · exact fun _ _ _ _ hp _ => hp
  · exact fun p1 p2 p3 p _ hp _ => (matchStartLine_complete p1 p2 p3 p).trans hp
  · exact fun name value p hp => (httpParserAddHeader_complete name value p).trans hp
  · exact fun p hp => (enterBody_complete p).trans hp
  · intro p q same hp
    rwa [← same]

theorem Midway.next {p₀ q : ParseState} {parser : HttpParser} (mid : Midway p₀ parser)
    (piece : Bytes) (bufsize : ℕ) (h : parseMessage (parser.msgbuf ++ piece) p₀ = (.again, q)) :
    Midway p₀ ⟨q, parser.msgbuf ++ piece, (parser.msgbuf ++ piece).length, bufsize⟩ where
  incomplete := parseMessage_incomplete ((mid.resumes piece).trans h) mid.incomplete
  buffered := rfl
  waiting := by rw [h]
  resumes := by
    intro more
    rw [parseMessage_resumable.restart more ((mid.resumes piece).trans h), append_assoc]
    exact mid.resumes (piece ++ more)

theorem Midway.before {p₀ q : ParseState} {parser : HttpParser} (mid : Midway p₀ parser)
    (hp₀ : headerComplete p₀ = false) {piece : Bytes}
    (h : parseMessage (parser.msgbuf ++ piece) p₀ = (.done, q)) :
    parser.msgbuf.length < endOffset q := by
  by_contra hlt
  have ht := (parseMessage_exact hp₀ h).2 parser.msgbuf.length (by omega)
  rw [take_left] at ht
  have hw := mid.waiting
  rw [ht] at hw
  cases hw

theorem appendPieces_agrees {p₀ : ParseState} (hp₀ : headerComplete p₀ = false)
    (parser : HttpParser) (mid : Midway p₀ parser) (pieces : List Bytes) :
    Agrees (parser.msgbuf ++ pieces.flatten) parser.msgbuf.length
      (parseMessage (parser.msgbuf ++ pieces.flatten) p₀) (appendPieces parser pieces) := by
  induction pieces generalizing parser with
  | nil =>
    have hw := mid.waiting
    simp only [flatten_nil, append_nil]
    constructor <;> simp [hw, appendPieces]
    intro v hv h
    exact hv h.symm
  | cons piece pieces ih =>
    have hcall := append_eq piece parser mid.incomplete mid.buffered
    rw [mid.resumes piece] at hcall
    rw [flatten_cons, ← append_assoc]
    rcases hp : parseMessage (parser.msgbuf ++ piece) p₀ with ⟨_ | _ | _, q⟩
    · -- the call waits: the remaining pieces are appended to a parser that is still midway
      rw [hp] at hcall
      have hrest := ih _ (mid.next piece
        (growBuffer (parser.msgsize + piece.length + 1) parser.bufsize) hp)
      have hrun : appendPieces parser (piece :: pieces) =
          ((.again, piece.length) :: (appendPieces ⟨q, parser.msgbuf ++ piece,
            (parser.msgbuf ++ piece).length,
            growBuffer (parser.msgsize + piece.length + 1) parser.bufsize⟩ pieces).1,
          (appendPieces ⟨q, parser.msgbuf ++ piece, (parser.msgbuf ++ piece).length,
            growBuffer (parser.msgsize + piece.length + 1) parser.bufsize⟩ pieces).2) := by
        simp only [appendPieces, hcall, settled]
      rw [hrun]
      constructor
      · intro v hv
        rw [hrest.verdict v hv]
        simp [hv.symm]
      · rw [hrest.waits]
        simp
      · intro hd
        have := hrest.consumed hd
        simp only [length_append, map_cons, sum_cons] at this ⊢
        omega
      · exact hrest.state
      · exact hrest.size
      · exact hrest.message
    · rw [hp] at hcall
      have hw := parseMessage_resumable.settle pieces.flatten hp (by decide)
      have hrun : (appendPieces parser (piece :: pieces)).1 = [(.bad, piece.length)] := by
        simp only [appendPieces, hcall, settled]
      rw [hw]
      constructor <;> simp [hrun]
    · rw [hp] at hcall
      have hw := parseMessage_resumable.settle pieces.flatten hp (by decide)
      have hb := mid.before hp₀ hp
      have he := (parseMessage_exact hp₀ hp).1
      have hrun : appendPieces parser (piece :: pieces) =
          ([(.done, piece.length - ((parser.msgbuf ++ piece).length - endOffset q))],
            ⟨{ q with complete := true }, parser.msgbuf ++ piece, endOffset q,
              growBuffer (parser.msgsize + piece.length + 1) parser.bufsize⟩) := by
        simp only [appendPieces, hcall, settled]
      rw [hrun, hw]
      constructor
      · intro v _
        simp
      · simp
      · intro _
        simp only [length_append, map_cons, map_nil, sum_cons,
          sum_nil] at he ⊢
        omega
      · intro _; rfl
      · intro _; rfl
      · intro _
        exact (take_append_of_le_length he).symm

theorem httpParserGetBody_congr {a b : HttpParser} (hs : a.toParseState = b.toParseState)
    (hm : a.msgbuf.take a.msgsize = b.msgbuf.take b.msgsize) :
    httpParserGetBody a = httpParserGetBody b := by
  unfold httpParserGetBody
  rw [hs, hm]

theorem httpParserInit_midway (isResp : Bool) :
    Midway (httpParserInit isResp).toParseState (httpParserInit isResp) where
  incomplete := rfl
  buffered := rfl
  waiting := by cases isResp <;> rfl
  resumes := by intro more; rfl

/-- One call on all the bytes and one call per piece return the same, and a completed message comes
    out the same. -/
theorem appendMessage_cut_independent (isResp : Bool) (pieces : List Bytes) :
    let whole := httpParserAppendMessage pieces.flatten (httpParserInit isResp)
    let cut := appendPieces (httpParserInit isResp) pieces
    (whole.1 = .done ↔ ∃ call ∈ cut.1, call.1 = .done) ∧
    (whole.1 = .bad ↔ ∃ call ∈ cut.1, call.1 = .bad) ∧
    (whole.1 = .again ↔ ∀ call ∈ cut.1, call.1 = .again) ∧
    (whole.1 = .done →
      whole.2.1 = (cut.1.map Prod.snd).sum ∧
      whole.2.2.toParseState = cut.2.toParseState ∧
      whole.2.2.msgsize = cut.2.msgsize ∧
      httpParserGetBody whole.2.2 = httpParserGetBody cut.2) := by
  have mid := httpParserInit_midway isResp
  have hp₀ : headerComplete (httpParserInit isResp).toParseState = false := rfl
  have hcut := appendPieces_agrees hp₀ _ mid pieces
  have hwhole := append_eq pieces.flatten _ mid.incomplete mid.buffered
  change Agrees pieces.flatten 0 (parseMessage pieces.flatten (httpParserInit isResp).toParseState)
    (appendPieces (httpParserInit isResp) pieces) at hcut
  change _ = settled _ pieces.flatten _
    (parseMessage pieces.flatten (httpParserInit isResp).toParseState) at hwhole
  intro whole cut
  have hv : whole.1 =
      (parseMessage pieces.flatten (httpParserInit isResp).toParseState).1 := by
    change (httpParserAppendMessage _ _).1 = _
    rw [hwhole]
    rcases parseMessage pieces.flatten _ with ⟨_ | _ | _, q⟩ <;> rfl
  refine ⟨?_, ?_, ?_, ?_⟩
  · rw [hv]
    exact hcut.verdict .done (by decide)
  · rw [hv]
    exact hcut.verdict .bad (by decide)
  · rw [hv]
    exact hcut.waits
  · intro hd
    rw [hv] at hd
    obtain ⟨q, hq⟩ : ∃ q, parseMessage pieces.flatten (httpParserInit isResp).toParseState =
        (.done, q) := ⟨_, Prod.ext hd rfl⟩
    have hw : whole = settled _ pieces.flatten _ (.done, q) := hwhole.trans (by rw [hq])
    have hle := (parseMessage_exact hp₀ hq).1
    have hsum := hcut.consumed hd
    have hstate := hcut.state hd
    have hsize := hcut.size hd
    have hmsg := hcut.message hd
    simp only [hq, Nat.zero_add] at hsum hstate hsize
    rw [hw]
    refine ⟨?_, hstate.symm, hsize.symm, ?_⟩
    · change pieces.flatten.length - (pieces.flatten.length - endOffset q) =
        ((appendPieces (httpParserInit isResp) pieces).1.map Prod.snd).sum
      rw [hsum]
      omega
    · rw [hsize] at hmsg
      apply httpParserGetBody_congr hstate.symm
      change pieces.flatten.take (endOffset q) =
        (appendPieces (httpParserInit isResp) pieces).2.msgbuf.take _
      rw [hsize, hmsg]

end MyWorkflow.Http
