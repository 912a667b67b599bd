import MyWorkflow.HttpRoundTrip

set_option autoImplicit false

namespace MyWorkflow.Http
open List CString Incremental

def contentLengths (lines : List HeaderLine) : List Bytes :=
  (lines.filter fun line => named (bytes "Content-Length") line.name).map HeaderLine.value

def setsLength (value : Bytes) : Bool := isdigit (firstByte value) && value.length ≤ 15

def lengthLeft (values : List Bytes) : ℕ :=
  values.foldl (fun n value => if setsLength value then (atol value).toNat else n) 0

/-- Without a Content-Length header the body is empty; otherwise the last one is its length in
    decimal. -/
def Framed (lines : List HeaderLine) (body : Bytes) : Prop :=
  match (contentLengths lines).getLast? with
  | none => body = []
  | some value =>
    value ≠ [] ∧ (∀ c ∈ value, isdigit c = true) ∧ body.length = digitsVal 10 value

/-- The last Content-Length value is a decimal number that is read, or the one that the values
    before it have left behind. -/
def ReadableLength (lines : List HeaderLine) : Prop :=
  match (contentLengths lines).getLast? with
  | none => True
  | some value =>
    value ≠ [] ∧ (∀ c ∈ value, isdigit c = true) ∧
      (value.length ≤ 15 ∨ digitsVal 10 value = lengthLeft (contentLengths lines).dropLast)

structure Counted (p : ParseState) : Prop where
  isResp : p.isResp = false
  transferLength : p.transferLength = sizeMax
  contentLength : p.contentLength = lengthLeft (contentLengths p.headerList)

theorem contentLengths_append (lines : List HeaderLine) (name value : Bytes) :
    contentLengths (lines ++ [HeaderLine.make name value]) =
      contentLengths lines ++ if named (bytes "Content-Length") name then [value] else [] := by
  rw [contentLengths, filter_append, map_append]
  congr 1
  by_cases h : named (bytes "Content-Length") name = true <;> simp [h]

theorem lengthLeft_append (values : List Bytes) (value : Bytes) :
    lengthLeft (values ++ [value]) =
      if setsLength value then (atol value).toNat else lengthLeft values := by
  rw [lengthLeft, foldl_append]
  rfl

theorem Counted.addHeader {p : ParseState} (h : Counted p) (name value : Bytes) :
    Counted (httpParserAddHeader name value p) := by
  have hlength := checkMessageHeader_contentLength name value (addMessageHeader name value p)
  obtain ⟨_, _, _, _, _, _, length, hframe⟩ :=
    checkMessageHeader_frame name value (addMessageHeader name value p)
  unfold httpParserAddHeader
  rw [hframe] at hlength ⊢
  refine ⟨h.isResp, h.transferLength, ?_⟩
  change length = lengthLeft (contentLengths (p.headerList ++ [HeaderLine.make name value]))
  rw [contentLengths_append]
  change length = if _ then _ else p.contentLength at hlength
  rw [hlength]
  by_cases hn : named (bytes "Content-Length") name = true
  · rw [hn, if_pos rfl, lengthLeft_append, h.contentLength]
    rfl
  · have hn' : named (bytes "Content-Length") name = false := by simpa using hn
    rw [hn', Bool.false_and, Bool.false_and, if_neg Bool.false_ne_true, if_neg Bool.false_ne_true,
      append_nil]
    exact h.contentLength

theorem Counted.startLine {p : ParseState} (h : Counted p) (p1 p2 p3 : Bytes) :
    Counted (matchStartLine p1 p2 p3 p) := by
  have hresp : ¬p.isResp = true := by simp [h.isResp]
  rw [matchStartLine, if_neg hresp, matchRequestLine]
  split_ifs
  · exact { h with }
  · exact { h with }

theorem headerStep_counted (msg : Bytes) (p p' : ParseState) (v : Verdict)
    (h : headerStep msg p = (v, p')) (hp : Counted p) : Counted p' :=
  headerStep_keeps (P := Counted) (fun _ _ _ _ hp _ => { hp with })
    (fun p1 p2 p3 _ _ hp _ => { hp.startLine p1 p2 p3 with })
    (fun name value _ hp => hp.addHeader name value) msg p p' v h hp

theorem bodyStep_done {msg : Bytes} {p q : ParseState} (h : bodyStep msg p = (.done, q))
    (hq : q.chunked = false) : q = p ∧ p.transferLength ≠ sizeMax := by
  by_cases ht : p.transferLength = sizeMax
  · by_cases hc : p.chunked = true
    · by_cases hs : p.chunkState = .chunkComplete
      · simp only [bodyStep, ht, hc, hs] at h
        cases h
        rw [hc] at hq
        cases hq
      · rw [bodyStep_chunk ht hc hs] at h
        rw [(parseChunk_sameHeader h).chunked, hc] at hq
        cases hq
    · simp [bodyStep, ht, hc] at h
  · simp only [bodyStep, ht, ne_eq, not_false_eq_true, ↓reduceIte] at h
    split_ifs at h
    · cases h
      exact ⟨rfl, ht⟩
    · cases h

theorem parseMessage_counted {msg : Bytes} {p q : ParseState} (hp : headerComplete p = false)
    (hcounted : Counted p) (h : parseMessage msg p = (.done, q)) (hq : q.chunked = false) :
    headerComplete q = true ∧
      endOffset q = q.headerOffset + lengthLeft (contentLengths q.headerList) := by
  obtain ⟨r, hs, hbody⟩ := andThen_inv hp h
  have hr : Counted r := loop_preserves headerStep_advances headerStep_counted hs hcounted
  obtain ⟨rfl, hlength⟩ := bodyStep_done hbody hq
  have hchunked : ¬r.chunked = true := by
    intro hc
    rw [enterBody, if_pos hc] at hq
    rw [show r.chunked = false from hq] at hc
    cases hc
  have henter : enterBody r = { r with transferLength := r.contentLength } := by
    rw [enterBody, if_neg hchunked, if_pos hr.transferLength]
  have hcomplete := parseMessageHeader_complete hs
  rw [henter] at hlength ⊢
  refine ⟨hcomplete, ?_⟩
  rw [endOffset, if_pos hlength]
  exact congrArg (r.headerOffset + ·) hr.contentLength

theorem framed_iff (lines : List HeaderLine) {body : Bytes}
    (h : body.length = lengthLeft (contentLengths lines)) :
    Framed lines body ↔ ReadableLength lines := by
  unfold Framed ReadableLength
  cases hl : (contentLengths lines).getLast? with
  | none =>
    rw [List.getLast?_eq_none_iff.mp hl] at h
    exact iff_of_true (length_eq_zero_iff.mp h) trivial
  | some value =>
    have hvalues : contentLengths lines = (contentLengths lines).dropLast ++ [value] :=
      (dropLast_append_getLast? value hl).symm
    rw [hvalues, lengthLeft_append] at h
    refine and_congr_right fun hne => and_congr_right fun hdigits => ?_
    have hfirst : isdigit (firstByte value) = true := by
      obtain ⟨c, rest, rfl⟩ := exists_cons_of_ne_nil hne
      exact hdigits c mem_cons_self
    by_cases hshort : value.length ≤ 15
    · have hsets : setsLength value = true := by simp [setsLength, hfirst, hshort]
      rw [hsets, if_pos rfl, atol_digits hdigits hne hshort, Int.toNat_natCast] at h
      exact iff_of_true h (.inl hshort)
    · have hsets : setsLength value = false := by simp [setsLength, hshort]
      rw [hsets, if_neg Bool.false_ne_true] at h
      rw [h, or_iff_right hshort]
      exact eq_comm

/-- An accepted request without chunks has the body that its headers declare exactly if the last
    Content-Length is readable. -/
theorem request_framed_iff (pieces : List Bytes)
    (hdone : ∃ call ∈ (appendPieces (httpParserInit false) pieces).1, call.1 = .done)
    (hchunked : (appendPieces (httpParserInit false) pieces).2.chunked = false) :
    ∃ body, httpParserGetBody (appendPieces (httpParserInit false) pieces).2 = some body ∧
      (Framed (appendPieces (httpParserInit false) pieces).2.headerList body ↔
        ReadableLength (appendPieces (httpParserInit false) pieces).2.headerList) := by
  have mid := httpParserInit_midway false
  have hp : headerComplete (httpParserInit false).toParseState = false := rfl
  have hcut := appendPieces_agrees hp _ mid pieces
  change Agrees pieces.flatten 0 (parseMessage pieces.flatten (httpParserInit false).toParseState)
    (appendPieces (httpParserInit false) pieces) at hcut
  have hverdict := (hcut.verdict .done (by decide)).mpr hdone
  obtain ⟨q, hq⟩ : ∃ q, parseMessage pieces.flatten (httpParserInit false).toParseState =
      (.done, q) := ⟨_, Prod.ext hverdict rfl⟩
  rw [hq] at hcut
  have hstate := hcut.state rfl
  have hsize := hcut.size rfl
  have hmessage := hcut.message rfl
  have hle := (parseMessage_exact hp hq).1
  have hcounted : Counted (httpParserInit false).toParseState := ⟨rfl, rfl, rfl⟩
  obtain ⟨hcomplete, hend⟩ := parseMessage_counted hp hcounted hq (by
    rw [hstate] at hchunked
    exact hchunked)
  refine ⟨_, if_pos ?_, framed_iff _ ?_⟩
  · rw [hstate]
    simpa [headerComplete] using hcomplete
  · rw [hmessage, hsize, hstate]
    simp only [length_drop, length_take]
    omega

def twoPieces : List Bytes :=
  [bytes "POST / HTTP/1.1\r\nContent-Length: 1", bytes "2\r\n\r\nhello, world"]

theorem twoPieces_done :
    ∃ call ∈ (appendPieces (httpParserInit false) twoPieces).1, call.1 = .done :=
  ⟨(.done, 17), by decide +kernel, rfl⟩

theorem twoPieces_chunked :
    (appendPieces (httpParserInit false) twoPieces).2.chunked = false := by
  decide +kernel

theorem twoPieces_readable :
    ReadableLength (appendPieces (httpParserInit false) twoPieces).2.headerList := by
  have hlengths : contentLengths (appendPieces (httpParserInit false) twoPieces).2.headerList =
      [bytes "12"] := by decide +kernel
  rw [ReadableLength, hlengths]
  exact ⟨by decide +kernel, by decide +kernel, .inl (by decide +kernel)⟩

theorem twoPieces_framed : ∃ body,
    httpParserGetBody (appendPieces (httpParserInit false) twoPieces).2 = some body ∧
      Framed (appendPieces (httpParserInit false) twoPieces).2.headerList body := by
  have h := request_framed_iff twoPieces twoPieces_done twoPieces_chunked
  simpa only [twoPieces_readable, iff_true] using h

def paddedLength : List Bytes :=
  [bytes "POST / HTTP/1.1\r\nContent-Length: 0000000000000005\r\n\r\nhello"]

/-- The value is not read, and the body is left to the next request. -/
theorem paddedLength_ignored :
    (∃ call ∈ (appendPieces (httpParserInit false) paddedLength).1, call.1 = .done) ∧
    (appendPieces (httpParserInit false) paddedLength).2.chunked = false ∧
    httpParserGetBody (appendPieces (httpParserInit false) paddedLength).2 = some [] ∧
    ¬Framed (appendPieces (httpParserInit false) paddedLength).2.headerList [] := by
  have hvalues : contentLengths (appendPieces (httpParserInit false) paddedLength).2.headerList =
      [bytes "0000000000000005"] := by decide +kernel
  refine ⟨⟨(.done, 53), by decide +kernel, rfl⟩, by decide +kernel, by decide +kernel, ?_⟩
  rw [Framed, hvalues]
  rintro ⟨-, -, hlength⟩
  exact absurd hlength (by decide)

end MyWorkflow.Http
