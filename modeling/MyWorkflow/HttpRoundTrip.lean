import MyWorkflow.HttpMessage
import MyWorkflow.HttpParserCuts

set_option autoImplicit false

namespace MyWorkflow.Http
open List CString Incremental

def named (field name : Bytes) : Bool :=
  name.length == field.length && strncaseeq field.length name field

structure StartLineOk (a b c : Bytes) : Prop where
  text : ∀ e ∈ a ++ b ++ c, e ≠ CR ∧ e ≠ 0
  spaceless : SP ∉ a ∧ SP ∉ b
  length : a.length + 1 + b.length + 1 + c.length ≤ 8191

structure LineOk (name value : Bytes) : Prop where
  nameLength : name.length ≤ 63
  nameText : ∀ e ∈ name, 1 ≤ e ∧ e ≤ 127 ∧ e ≠ COLON ∧ e ≠ CR
  nameHead : ∀ e ∈ name.head?, e ≠ SP ∧ e ≠ HT
  valueLength : value.length ≤ 8191
  valueText : ∀ e ∈ value, 1 ≤ e ∧ e ≤ 127 ∧ e ≠ CR
  valueHead : ∀ e ∈ value.head?, e ≠ SP ∧ e ≠ HT
  valueLast : ∀ e ∈ value.getLast?, e ≠ SP ∧ e ≠ HT

structure LengthOk (size : ℕ) (value : Bytes) : Prop where
  digits : ∀ e ∈ value, isdigit e = true
  nonempty : value ≠ []
  short : value.length ≤ 15
  denotes : digitsVal 10 value = size

structure Transmissible (msg : HttpMessage) : Prop where
  startLine : ∃ a b c, startLine msg.parser.toParseState = some (a, b, c) ∧ StartLineOk a b c ∧
    (msg.parser.isResp = true → b.head? ≠ some 49 ∧ b ≠ bytes "204" ∧ b ≠ bytes "304")
  lines : ∀ line ∈ msg.parser.headerList, LineOk line.name line.value
  unchunked : ∀ line ∈ msg.parser.headerList, named (bytes "Transfer-Encoding") line.name = false
  contentLength : ∃ line, msg.parser.headerList.filter
      (fun line => named (bytes "Content-Length") line.name) = [line] ∧
    LengthOk msg.outputBodySize line.value

theorem nonPositive_of_text {e : UInt8} (h1 : 1 ≤ e) (h2 : e ≤ 127) : nonPositive e = false := by
  have h127 : (127 : UInt8).toNat = 127 := rfl
  have h128 : (128 : UInt8).toNat = 128 := rfl
  rw [UInt8.le_iff_toNat_le] at h2
  have hne : e ≠ 0 := by
    rintro rfl
    exact absurd h1 (by decide)
  have hlt : ¬ 128 ≤ e := by
    rw [UInt8.le_iff_toNat_le]
    omega
  simp [nonPositive, hne, hlt]

theorem isBlank_eq_false {e : UInt8} (h : e ≠ SP ∧ e ≠ HT) : isBlank e = false := by
  simp [isBlank, h.1, h.2]

theorem cutSpace_append {a : Bytes} (rest : Bytes) (h : SP ∉ a) :
    cutSpace (a ++ SP :: rest) = some (a, rest) := by
  have hne : ∀ e ∈ a, (e != SP) = true := by
    intro e he
    simp only [bne_iff_ne, ne_eq]
    rintro rfl
    exact h he
  unfold cutSpace
  rw [dropWhile_append_of_pos hne, takeWhile_append_of_pos hne]
  simp

theorem StartLineOk.fields {a b c : Bytes} (ok : StartLineOk a b c) :
    startLineFields (a ++ SP :: (b ++ SP :: c)) = some (a, b, c) := by
  unfold startLineFields
  rw [cutSpace_append _ ok.spaceless.1]
  simp only [cutSpace_append c ok.spaceless.2]

theorem StartLineOk.scan {a b c : Bytes} (ok : StartLineOk a b c) (rest : Bytes) :
    scanLine startLineMax (· == 0) (a ++ SP :: (b ++ SP :: (c ++ CR :: LF :: rest))) =
      .line (a ++ SP :: (b ++ SP :: c)) := by
  refine scanLine_line_iff.mpr ⟨rest, (scanUntil_done_iff (by simp)).mpr
    ⟨a ++ SP :: (b ++ SP :: c), CR, rfl, by simp, rfl, ?_, ?_⟩⟩
  · have hlen := ok.length
    simp only [length_append, length_cons, startLineMax]
    omega
  · intro e he
    have hcases : e ∈ a ++ b ++ c ∨ e = SP := by
      simp only [mem_append, mem_cons] at he ⊢
      tauto
    rcases hcases with hm | rfl
    · have := ok.text e hm
      simp [this.1, this.2]
    · decide

theorem take_two_of_ne {c : UInt8} {xs : Bytes} (h : c ≠ CR) : (c :: xs).take 2 ≠ [CR, LF] := by
  intro he
  exact h (cons_eq_cons.mp he).1

theorem parseStartLine_ok {a b c : Bytes} (ok : StartLineOk a b c) (rest : Bytes)
    (p : ParseState) :
    parseStartLine (a ++ SP :: (b ++ SP :: (c ++ CR :: LF :: rest))) p =
      (.done, { matchStartLine a b c p with
        headerOffset := p.headerOffset + (a ++ SP :: (b ++ SP :: c)).length + 2
        headerState := .headerName }) := by
  have h2 : (a ++ SP :: (b ++ SP :: (c ++ CR :: LF :: rest))).take 2 ≠ [CR, LF] := by
    cases a with
    | nil => exact take_two_of_ne (by decide)
    | cons e a => exact take_two_of_ne (ok.text e (by simp)).1
  unfold parseStartLine
  rw [if_neg h2, ok.scan]
  simp only [ok.fields]

theorem HeaderLine.text_eq (line : HeaderLine) :
    line.text = line.name ++ COLON :: SP :: (line.value ++ [CR, LF]) := by
  obtain ⟨slack, hb, hn, hv⟩ := line.buf_eq
  have hlen : line.nameLen + 2 + line.valueLen + 2 =
      (line.name ++ [COLON, SP] ++ line.value ++ [CR, LF]).length := by
    simp only [length_append, length_cons, length_nil, hn, hv]
  rw [HeaderLine.text, hlen, hb, take_left]
  simp

theorem parseHeaderName_ok {name value : Bytes} (ok : LineOk name value) (rest : Bytes)
    (p : ParseState) :
    parseHeaderName (name ++ COLON :: rest) p =
      (.done, { p with
        namebuf := name
        headerOffset := p.headerOffset + name.length + 1
        headerState := .headerValue }) := by
  have h2 : (name ++ COLON :: rest).take 2 ≠ [CR, LF] := by
    cases name with
    | nil => exact take_two_of_ne (by decide)
    | cons e name => exact take_two_of_ne (ok.nameText e (by simp)).2.2.2
  have hscan : scanUntil headerNameMax (· == COLON) nonPositive [] (name ++ COLON :: rest) =
      (.done, name, rest) := by
    refine (scanUntil_done_iff (by simp)).mpr ⟨name, COLON, rfl, rfl, rfl, ?_, ?_⟩
    · have := ok.nameLength
      simp only [headerNameMax]
      omega
    · intro e he
      obtain ⟨h1, h127, hc, -⟩ := ok.nameText e he
      exact ⟨by simpa using hc, nonPositive_of_text h1 h127⟩
  unfold parseHeaderName
  rw [if_neg h2, hscan]

theorem scanValue_line {value : Bytes} {c : UInt8} (rest : Bytes) (hc : isBlank c = false)
    (ht : ∀ e ∈ value, 1 ≤ e ∧ e ≤ 127 ∧ e ≠ CR) (skipping : Bool) (text : Bytes) (used : ℕ)
    (hs : ∀ e ∈ value.head?, (skipping && isBlank e) = false)
    (hl : text.length + value.length < headerValueMax) :
    scanValue skipping text used (value ++ CR :: LF :: c :: rest) =
      .value ((text ++ value).rdropWhile isBlank) (used + value.length + 2) := by
  induction value generalizing skipping text used with
  | nil =>
    rw [nil_append, scanValue_end (by simp at hl; omega) hc]
    simp
  | cons e value ih =>
    obtain ⟨h1, h127, hcr⟩ := ht e (by simp)
    have hnext : ∃ d tail, value ++ CR :: LF :: c :: rest = d :: tail := by
      cases value with
      | nil | cons => exact ⟨_, _, rfl⟩
    obtain ⟨d, tail, hd⟩ := hnext
    simp only [length_cons] at hl
    rw [cons_append, hd, scanValue_copy (hs e (by simp)) (by omega) hcr
      (nonPositive_of_text h1 h127), ← hd, ih (fun b hb => ht b (by simp [hb])) false]
    · rw [append_assoc, singleton_append, length_cons]
      congr 1
      omega
    · simp
    · simp only [length_append, length_cons, length_nil]
      omega

theorem parseHeaderValue_ok {name value : Bytes} (ok : LineOk name value) {c : UInt8}
    (rest : Bytes) (hc : isBlank c = false) (p : ParseState) :
    parseHeaderValue (SP :: (value ++ CR :: LF :: c :: rest)) p =
      (.done, { httpParserAddHeader p.namebuf value p with
        headerOffset := p.headerOffset + (1 + value.length + 2)
        headerState := .headerName }) := by
  have htrim : value.rdropWhile isBlank = value := by
    rw [rdropWhile_eq_self_iff]
    intro hv
    have := ok.valueLast _ (List.getLast?_eq_some_getLast hv)
    simp [isBlank_eq_false this]
  have hline := scanValue_line rest hc ok.valueText true [] 1
    (fun e he => by simp [isBlank_eq_false (ok.valueHead e he)])
    (by have := ok.valueLength; simp [headerValueMax]; omega)
  rw [nil_append, htrim] at hline
  unfold parseHeaderValue
  rw [scanValue_skip (by rfl), hline]

def afterLine (p : ParseState) (line : HeaderLine) : ParseState :=
  { httpParserAddHeader line.name line.value
      { p with
        namebuf := line.name
        headerOffset := p.headerOffset + line.name.length + 1
        headerState := .headerValue } with
    headerOffset := p.headerOffset + line.name.length + 1 + (1 + line.value.length + 2)
    headerState := .headerName }

theorem afterLine_headerOffset (p : ParseState) (line : HeaderLine) :
    (afterLine p line).headerOffset = p.headerOffset + line.text.length := by
  rw [line.text_eq]
  simp only [afterLine, length_append, length_cons, length_nil]
  omega

theorem parseMessageHeader_line {message rest : Bytes} {c : UInt8} {line : HeaderLine}
    {p : ParseState} (ok : LineOk line.name line.value) (hc : isBlank c = false)
    (hs : p.headerState = .headerName)
    (hm : message.drop p.headerOffset = line.text ++ c :: rest) :
    parseMessageHeader message p = parseMessageHeader message (afterLine p line) := by
  have htext : line.text ++ c :: rest =
      line.name ++ COLON :: (SP :: (line.value ++ CR :: LF :: c :: rest)) := by
    rw [line.text_eq]
    simp
  have hname : headerStep message p = (.done, { p with
      namebuf := line.name
      headerOffset := p.headerOffset + line.name.length + 1
      headerState := .headerValue }) := by
    rw [headerStep_eq, hs, hm, htext]
    exact parseHeaderName_ok ok _ p
  have hdrop : message.drop (p.headerOffset + line.name.length + 1) =
      SP :: (line.value ++ CR :: LF :: c :: rest) := by
    rw [Nat.add_assoc, ← drop_drop, hm, htext, drop_length_add_append]
    rfl
  have hvalue : headerStep message { p with
      namebuf := line.name
      headerOffset := p.headerOffset + line.name.length + 1
      headerState := .headerValue } = (.done, afterLine p line) := by
    rw [headerStep_eq]
    simp only [hdrop]
    exact parseHeaderValue_ok ok rest hc _
  unfold parseMessageHeader
  rw [loop_next headerStep_advances hname rfl, loop_next headerStep_advances hvalue rfl]

theorem exists_lines_head {lines : List HeaderLine} (rest : Bytes)
    (ok : ∀ line ∈ lines, LineOk line.name line.value) : ∃ c tail, isBlank c = false ∧
      (lines.map HeaderLine.text).flatten ++ CR :: LF :: rest = c :: tail := by
  cases lines with
  | nil => exact ⟨CR, LF :: rest, rfl, rfl⟩
  | cons line lines =>
    have hl := ok line (by simp)
    have ht := line.text_eq
    cases hn : line.name with
    | nil =>
      rw [hn] at ht
      exact ⟨COLON, _, rfl, by rw [map_cons, ht]; rfl⟩
    | cons e name =>
      rw [hn] at ht
      exact ⟨e, _, isBlank_eq_false (hl.nameHead e (by simp [hn])),
        by rw [map_cons, ht]; rfl⟩

theorem parseMessageHeader_lines {message : Bytes} (rest : Bytes) (lines : List HeaderLine)
    (ok : ∀ line ∈ lines, LineOk line.name line.value) (p : ParseState)
    (hs : p.headerState = .headerName)
    (hm : message.drop p.headerOffset =
      (lines.map HeaderLine.text).flatten ++ CR :: LF :: rest) :
    parseMessageHeader message p = (.done, { lines.foldl afterLine p with
      headerOffset := (lines.foldl afterLine p).headerOffset + 2
      headerState := .headerComplete }) := by
  induction lines generalizing p with
  | nil =>
    have hstep : headerStep message p = (.done, { p with
        headerOffset := p.headerOffset + 2, headerState := .headerComplete }) := by
      rw [headerStep_eq, hs, hm]
      rfl
    exact loop_stop hstep fun _ => rfl
  | cons line lines ih =>
    have hrest : ∀ l ∈ lines, LineOk l.name l.value := fun l hl => ok l (by simp [hl])
    obtain ⟨c, tail, hc, htail⟩ := exists_lines_head rest hrest
    rw [map_cons, flatten_cons, append_assoc] at hm
    rw [parseMessageHeader_line (ok line (by simp)) hc hs (by rw [hm, htail])]
    refine ih hrest (afterLine p line) rfl ?_
    rw [afterLine_headerOffset, ← drop_drop, hm, drop_left]

theorem checkMessageHeader_frame (name value : Bytes) (p : ParseState) :
    ∃ expect connection hasLength hasKeep keep chunked length,
      checkMessageHeader name value p =
        { p with
          expectContinue := expect, hasConnection := connection, hasContentLength := hasLength
          hasKeepAlive := hasKeep, keepAlive := keep, chunked := chunked
          contentLength := length } := by
  unfold checkMessageHeader
  split
  all_goals first
    | (split_ifs <;> exact ⟨_, _, _, _, _, _, _, rfl⟩)
    | exact ⟨_, _, _, _, _, _, _, rfl⟩

theorem checkMessageHeader_chunked {name value : Bytes} {p : ParseState}
    (h : named (bytes "Transfer-Encoding") name = false) :
    (checkMessageHeader name value p).chunked = p.chunked := by
  unfold checkMessageHeader
  split
  case h_4 hn =>
    have hfalse : strncaseeq 17 name (bytes "Transfer-Encoding") = false := by
      simpa [named, hn, bytes] using h
    rw [hfalse]
    rfl
  all_goals first | (split_ifs <;> rfl) | rfl

theorem checkMessageHeader_contentLength (name value : Bytes) (p : ParseState) :
    (checkMessageHeader name value p).contentLength =
      if named (bytes "Content-Length") name && isdigit (firstByte value) && value.length ≤ 15 then
        (atol value).toNat
      else p.contentLength := by
  by_cases hn : name.length = 14
  · have hnamed : named (bytes "Content-Length") name =
        strncaseeq 14 name (bytes "Content-Length") := by
      simp [named, hn, bytes]
    unfold checkMessageHeader
    simp only [hn, hnamed]
    cases strncaseeq 14 name (bytes "Content-Length") with
    | false => rfl
    | true =>
      simp only [Bool.true_and, ↓reduceIte]
      split_ifs <;> rfl
  · have hnamed : named (bytes "Content-Length") name = false := by
      simp [named, hn, bytes]
    rw [hnamed, Bool.false_and, Bool.false_and, if_neg (by simp)]
    unfold checkMessageHeader
    split
    case h_3 h14 => exact absurd h14 hn
    all_goals first | (split_ifs <;> rfl) | rfl

structure SameStart (p q : ParseState) : Prop where
  isResp : q.isResp = p.isResp
  transferLength : q.transferLength = p.transferLength
  version : q.version = p.version
  method : q.method = p.method
  uri : q.uri = p.uri
  code : q.code = p.code
  phrase : q.phrase = p.phrase

theorem SameStart.trans {p q r : ParseState} (h : SameStart p q) (h' : SameStart q r) :
    SameStart p r where
  isResp := h'.isResp.trans h.isResp
  transferLength := h'.transferLength.trans h.transferLength
  version := h'.version.trans h.version
  method := h'.method.trans h.method
  uri := h'.uri.trans h.uri
  code := h'.code.trans h.code
  phrase := h'.phrase.trans h.phrase

theorem afterLine_spec (p : ParseState) (line : HeaderLine) : SameStart p (afterLine p line) ∧
    (afterLine p line).headerList = p.headerList ++ [HeaderLine.make line.name line.value] := by
  unfold afterLine httpParserAddHeader
  obtain ⟨_, _, _, _, _, _, _, h⟩ := checkMessageHeader_frame line.name line.value
    (addMessageHeader line.name line.value { p with
      namebuf := line.name
      headerOffset := p.headerOffset + line.name.length + 1
      headerState := .headerValue })
  rw [h]
  exact ⟨⟨rfl, rfl, rfl, rfl, rfl, rfl, rfl⟩, rfl⟩

section Fold

variable (lines : List HeaderLine) (p : ParseState)

theorem foldl_afterLine_sameStart : SameStart p (lines.foldl afterLine p) := by
  induction lines generalizing p with
  | nil => exact ⟨rfl, rfl, rfl, rfl, rfl, rfl, rfl⟩
  | cons line lines ih => exact (afterLine_spec p line).1.trans (ih (afterLine p line))

theorem foldl_afterLine_headerList :
    (lines.foldl afterLine p).headerList =
      p.headerList ++ lines.map (fun line => HeaderLine.make line.name line.value) := by
  induction lines generalizing p with
  | nil => simp
  | cons line lines ih =>
    rw [foldl_cons, ih, (afterLine_spec p line).2, map_cons, append_assoc,
      singleton_append]

theorem foldl_afterLine_headerOffset :
    (lines.foldl afterLine p).headerOffset =
      p.headerOffset + (lines.map HeaderLine.text).flatten.length := by
  induction lines generalizing p with
  | nil => simp
  | cons line lines ih =>
    rw [foldl_cons, ih, afterLine_headerOffset, map_cons, flatten_cons,
      length_append, Nat.add_assoc]

theorem foldl_afterLine_chunked
    (h : ∀ line ∈ lines, named (bytes "Transfer-Encoding") line.name = false) :
    (lines.foldl afterLine p).chunked = p.chunked := by
  induction lines generalizing p with
  | nil => rfl
  | cons line lines ih =>
    rw [foldl_cons, ih _ (fun l hl => h l (by simp [hl]))]
    exact checkMessageHeader_chunked (h line (by simp))

theorem foldl_afterLine_unlengthed
    (h : lines.filter (fun line => named (bytes "Content-Length") line.name) = []) :
    (lines.foldl afterLine p).contentLength = p.contentLength := by
  induction lines generalizing p with
  | nil => rfl
  | cons line lines ih =>
    have hne : named (bytes "Content-Length") line.name = false := by
      have := filter_eq_nil_iff.mp h line (by simp)
      simpa using this
    rw [filter_cons_of_neg (by simp [hne])] at h
    rw [foldl_cons, ih _ h]
    change (checkMessageHeader _ _ _).contentLength = _
    rw [checkMessageHeader_contentLength, hne, Bool.false_and, Bool.false_and]
    rfl

theorem foldl_afterLine_contentLength {line : HeaderLine} {size : ℕ}
    (h : lines.filter (fun line => named (bytes "Content-Length") line.name) = [line])
    (ok : LengthOk size line.value) : (lines.foldl afterLine p).contentLength = size := by
  induction lines generalizing p with
  | nil => cases h
  | cons head lines ih =>
    by_cases hn : named (bytes "Content-Length") head.name = true
    · rw [filter_cons_of_pos (by simpa using hn)] at h
      obtain ⟨rfl, hrest⟩ := cons_eq_cons.mp h
      rw [foldl_cons, foldl_afterLine_unlengthed _ _ hrest]
      change (checkMessageHeader _ _ _).contentLength = _
      have hfirst : isdigit (firstByte head.value) = true := by
        obtain ⟨c, rest, hv⟩ := exists_cons_of_ne_nil ok.nonempty
        rw [hv]
        exact ok.digits c (by simp [hv])
      rw [checkMessageHeader_contentLength, hn, hfirst, if_pos (by simpa using ok.short),
        atol_digits ok.digits ok.nonempty ok.short, Int.toNat_natCast, ok.denotes]
    · rw [filter_cons_of_neg (by simpa using hn)] at h
      rw [foldl_cons, ih _ h]

end Fold

def headerState (isResp : Bool) (a b c : Bytes) (lines : List HeaderLine) : ParseState :=
  let p := lines.foldl afterLine { matchStartLine a b c (httpParserInit isResp).toParseState with
    headerOffset := (a ++ SP :: (b ++ SP :: c)).length + 2
    headerState := .headerName }
  { p with headerOffset := p.headerOffset + 2, headerState := .headerComplete }

theorem strdup_eq {s : Bytes} (h : ∀ e ∈ s, e ≠ 0) : strdup s = s := by
  rw [strdup, takeWhile_eq_self_iff]
  intro e he
  simpa using h e he

theorem parseMessageHeader_wire {a b c : Bytes} {lines : List HeaderLine} (isResp : Bool)
    (body : Bytes) (ok : StartLineOk a b c) (hl : ∀ line ∈ lines, LineOk line.name line.value) :
    parseMessageHeader (wire (a, b, c) lines body) (httpParserInit isResp).toParseState =
      (.done, headerState isResp a b c lines) := by
  have htext := ok.text
  simp only [mem_append] at htext
  have hwire : wire (a, b, c) lines body = a ++ SP :: (b ++ SP :: (c ++ CR :: LF ::
      ((lines.map HeaderLine.text).flatten ++ CR :: LF :: body))) := by
    rw [wire, strdup_eq (fun e he => (htext e (by simp [he])).2),
      strdup_eq (fun e he => (htext e (by simp [he])).2),
      strdup_eq (fun e he => (htext e (by simp [he])).2)]
  have hstep : headerStep (wire (a, b, c) lines body) (httpParserInit isResp).toParseState =
      (.done, { matchStartLine a b c (httpParserInit isResp).toParseState with
        headerOffset := 0 + (a ++ SP :: (b ++ SP :: c)).length + 2
        headerState := .headerName }) := by
    rw [headerStep_eq, hwire]
    exact parseStartLine_ok ok _ _
  rw [Nat.zero_add] at hstep
  rw [parseMessageHeader, loop_next headerStep_advances hstep rfl]
  refine parseMessageHeader_lines body lines hl _ rfl ?_
  have hsplit : wire (a, b, c) lines body = (a ++ SP :: (b ++ SP :: c) ++ [CR, LF]) ++
      ((lines.map HeaderLine.text).flatten ++ CR :: LF :: body) := by
    rw [hwire]
    simp
  rw [hsplit]
  exact drop_left' (by simp only [length_append, length_cons, length_nil])

theorem headerState_startLine (isResp : Bool) (a b c : Bytes) (lines : List HeaderLine) :
    SameStart (matchStartLine a b c (httpParserInit isResp).toParseState)
      (headerState isResp a b c lines) := by
  have h := foldl_afterLine_sameStart lines
    { matchStartLine a b c (httpParserInit isResp).toParseState with
      headerOffset := (a ++ SP :: (b ++ SP :: c)).length + 2
      headerState := .headerName }
  exact { h with }

theorem wire_length {a b c : Bytes} (ok : StartLineOk a b c) (lines : List HeaderLine)
    (body : Bytes) (isResp : Bool) : (wire (a, b, c) lines body).length =
      (headerState isResp a b c lines).headerOffset + body.length := by
  have htext := ok.text
  simp only [mem_append] at htext
  rw [wire, strdup_eq (fun e he => (htext e (by simp [he])).2),
    strdup_eq (fun e he => (htext e (by simp [he])).2),
    strdup_eq (fun e he => (htext e (by simp [he])).2)]
  simp only [headerState, foldl_afterLine_headerOffset, length_append, length_cons]
  omega

theorem wire_append (fields : Bytes × Bytes × Bytes) (lines : List HeaderLine)
    (body rest : Bytes) : wire fields lines body ++ rest = wire fields lines (body ++ rest) := by
  simp [wire]

theorem wire_drop {a b c : Bytes} (ok : StartLineOk a b c) (lines : List HeaderLine)
    (body : Bytes) (isResp : Bool) :
    (wire (a, b, c) lines body).drop (headerState isResp a b c lines).headerOffset = body := by
  have hlen := wire_length ok lines [] isResp
  rw [length_nil, Nat.add_zero] at hlen
  have hsplit := wire_append (a, b, c) lines [] body
  rw [nil_append] at hsplit
  rw [← hlen, ← hsplit, drop_left]

theorem matchStatusLine_transferLength (version code phrase : Bytes) (p : ParseState) :
    (matchStatusLine version code phrase p).transferLength =
      if firstByte code == 49 || code == bytes "204" || code == bytes "304" then 0
      else p.transferLength := by
  unfold matchStatusLine
  split_ifs <;> rfl

theorem matchRequestLine_transferLength (method uri version : Bytes) (p : ParseState) :
    (matchRequestLine method uri version p).transferLength = p.transferLength := by
  unfold matchRequestLine
  split_ifs <;> rfl

theorem matchStartLine_transferLength {isResp : Bool} {a b c : Bytes}
    (h : isResp = true → b.head? ≠ some 49 ∧ b ≠ bytes "204" ∧ b ≠ bytes "304") :
    (matchStartLine a b c (httpParserInit isResp).toParseState).transferLength = sizeMax := by
  cases isResp with
  | false => exact matchRequestLine_transferLength a b c _
  | true =>
    obtain ⟨h1, h204, h304⟩ := h rfl
    have hfirst : firstByte b ≠ 49 := by
      cases b with
      | nil => decide
      | cons e b => simpa [firstByte] using h1
    have hcode : (firstByte b == 49 || b == bytes "204" || b == bytes "304") = false := by
      simp [hfirst, h204, h304]
    refine (matchStatusLine_transferLength a b c _).trans ?_
    rw [hcode]
    rfl

theorem matchStartLine_headerList (a b c : Bytes) (p : ParseState) :
    (matchStartLine a b c p).headerList = p.headerList := by
  unfold matchStartLine matchStatusLine matchRequestLine
  split_ifs <;> rfl

theorem matchStartLine_chunked (a b c : Bytes) (p : ParseState) :
    (matchStartLine a b c p).chunked = p.chunked := by
  unfold matchStartLine matchStatusLine matchRequestLine
  split_ifs <;> rfl

theorem matchRequestLine_fields {p : ParseState} (method uri version : Bytes)
    (hc : p.code = none) (hp : p.phrase = none) :
    (matchRequestLine method uri version p).method = some method ∧
      (matchRequestLine method uri version p).uri = some uri ∧
      (matchRequestLine method uri version p).version = some version ∧
      (matchRequestLine method uri version p).code = none ∧
      (matchRequestLine method uri version p).phrase = none := by
  unfold matchRequestLine
  split_ifs <;> exact ⟨rfl, rfl, rfl, hc, hp⟩

theorem matchStatusLine_fields {p : ParseState} (version code phrase : Bytes)
    (hm : p.method = none) (hu : p.uri = none) :
    (matchStatusLine version code phrase p).method = none ∧
      (matchStatusLine version code phrase p).uri = none ∧
      (matchStatusLine version code phrase p).version = some version ∧
      (matchStatusLine version code phrase p).code = some code ∧
      (matchStatusLine version code phrase p).phrase = some phrase := by
  unfold matchStatusLine
  split_ifs <;> exact ⟨hm, hu, rfl, rfl, rfl⟩

theorem HttpMessage.startLine_matched {msg : HttpMessage} {a b c : Bytes} {q : ParseState}
    (h : Http.startLine msg.parser.toParseState = some (a, b, c))
    (hq : SameStart (matchStartLine a b c (httpParserInit msg.parser.isResp).toParseState) q) :
    q.method = msg.parser.method ∧ q.uri = msg.parser.uri ∧ q.version = msg.parser.version ∧
      q.code = msg.parser.code ∧ q.phrase = msg.parser.phrase := by
  rw [hq.method, hq.uri, hq.version, hq.code, hq.phrase]
  have hreq := msg.request
  have hresp := msg.response
  unfold Http.startLine at h
  cases hk : msg.parser.isResp with
  | false =>
    obtain ⟨hcode, hphrase⟩ := hreq hk
    cases hm : msg.parser.method with
    | none => simp [hm, hcode] at h
    | some method =>
      simp only [hm, bind, pure, Option.bind_eq_some_iff, Option.some.injEq, Prod.mk.injEq] at h
      obtain ⟨uri, hu, version, hv, rfl, rfl, rfl⟩ := h
      rw [hu, hv, hcode, hphrase]
      exact matchRequestLine_fields method uri version rfl rfl
  | true =>
    obtain ⟨hmethod, huri⟩ := hresp hk
    simp only [hmethod, bind, pure, Option.bind_eq_some_iff, Option.some.injEq,
      Prod.mk.injEq] at h
    obtain ⟨version, hv, code, hcode, phrase, hphrase, rfl, rfl, rfl⟩ := h
    rw [hmethod, huri, hv, hcode, hphrase]
    exact matchStatusLine_fields version code phrase rfl rfl

section Wire

variable {isResp : Bool} {a b c : Bytes} {lines : List HeaderLine} {line : HeaderLine} {body : Bytes}
  (hstart : StartLineOk a b c)
  (hcode : isResp = true → b.head? ≠ some 49 ∧ b ≠ bytes "204" ∧ b ≠ bytes "304")
  (hlines : ∀ line ∈ lines, LineOk line.name line.value)
  (hte : ∀ line ∈ lines, named (bytes "Transfer-Encoding") line.name = false)
  (hcl : lines.filter (fun line => named (bytes "Content-Length") line.name) = [line])
  (hlen : LengthOk body.length line.value)

include hlen in
theorem LengthOk.lt_sizeMax : body.length < sizeMax := by
  have hlt := digitsVal_lt fun c hc => digitVal_of_isdigit (hlen.digits c hc)
  rw [hlen.denotes] at hlt
  have hpow : 10 ^ line.value.length ≤ 10 ^ 15 := Nat.pow_le_pow_right (by decide) hlen.short
  have hmax : sizeMax = 18446744073709551615 := rfl
  omega

include hcode hte hcl hlen in
theorem enterBody_headerState_wire : enterBody (headerState isResp a b c lines) =
    { headerState isResp a b c lines with transferLength := body.length } := by
  have hchunked : (headerState isResp a b c lines).chunked = false := by
    change (lines.foldl afterLine _).chunked = false
    rw [foldl_afterLine_chunked _ _ hte]
    exact matchStartLine_chunked a b c _
  have hlength : (headerState isResp a b c lines).contentLength = body.length :=
    foldl_afterLine_contentLength lines _ hcl hlen
  have ht : (headerState isResp a b c lines).transferLength = sizeMax :=
    (headerState_startLine isResp a b c lines).transferLength.trans
      (matchStartLine_transferLength hcode)
  simp [enterBody, hchunked, ht, hlength]

include hstart hcode hlines hte hcl hlen in
theorem parseMessage_wire (rest : Bytes) :
    parseMessage (wire (a, b, c) lines (body ++ rest)) (httpParserInit isResp).toParseState =
      (.done, { headerState isResp a b c lines with transferLength := body.length }) := by
  have hhead := parseMessageHeader_wire isResp (body ++ rest) hstart hlines
  rw [parseMessage, andThen_done rfl hhead, enterBody_headerState_wire hcode hte hcl hlen, bodyStep]
  simp only [ne_eq, hlen.lt_sizeMax.ne, not_false_eq_true, ↓reduceIte]
  rw [if_pos]
  rw [wire_length hstart lines _ isResp, length_append]
  omega

include hstart hcode hlines hte hcl hlen in
theorem append_wire (rest : Bytes) :
    httpParserAppendMessage (wire (a, b, c) lines body ++ rest) (httpParserInit isResp) =
      (.done, (wire (a, b, c) lines body).length,
        ⟨{ headerState isResp a b c lines with transferLength := body.length, complete := true },
          wire (a, b, c) lines body ++ rest, (wire (a, b, c) lines body).length,
          growBuffer (0 + (wire (a, b, c) lines body ++ rest).length + 1) 0⟩) := by
  have hend : endOffset { headerState isResp a b c lines with transferLength := body.length } =
      (wire (a, b, c) lines body).length := by
    rw [wire_length hstart lines _ isResp]
    simp only [endOffset, ne_eq, hlen.lt_sizeMax.ne, not_false_eq_true, ↓reduceIte]
  refine (append_eq _ (httpParserInit isResp) rfl rfl).trans ?_
  change settled _ (wire (a, b, c) lines body ++ rest) _ (parseMessage
    (wire (a, b, c) lines body ++ rest) (httpParserInit isResp).toParseState) = _
  have hn : (wire (a, b, c) lines body ++ rest).length - ((wire (a, b, c) lines body ++
      rest).length - (wire (a, b, c) lines body).length) = (wire (a, b, c) lines body).length := by
    rw [length_append]
    omega
  rw [wire_append, parseMessage_wire hstart hcode hlines hte hcl hlen, ← wire_append]
  simp only [settled, hend, hn]
  rfl

end Wire

/-- What `encode` sends of a transmissible message is parsed as one message, up to its last byte and
    none behind it, with the same start line, headers and body. -/
theorem encode_parse_identity (msg : HttpMessage) (ok : Transmissible msg) (max : ℕ)
    (vectors : List Bytes) (msg' : HttpMessage) (h : encode max msg = (.ok vectors, msg'))
    (rest : Bytes) :
    ∃ parser, httpParserAppendMessage (vectors.flatten ++ rest)
        (httpParserInit msg.parser.isResp) = (.done, vectors.flatten.length, parser) ∧
      parser.method = msg.parser.method ∧ parser.uri = msg.parser.uri ∧
      parser.version = msg.parser.version ∧ parser.code = msg.parser.code ∧
      parser.phrase = msg.parser.phrase ∧
      parser.headerList.map (fun line => (line.name, line.value)) =
        msg.parser.headerList.map (fun line => (line.name, line.value)) ∧
      httpParserGetBody parser = some msg.outputBody.flatten := by
  obtain ⟨a, b, c, hstart, hok, hcode⟩ := ok.startLine
  obtain ⟨fields, hf, hwire⟩ := encode_ok h
  obtain rfl : fields = (a, b, c) := Option.some.inj (hf.symm.trans hstart)
  obtain ⟨line, hcl, hlen⟩ := ok.contentLength
  rw [msg.bodySize] at hlen
  have hcall := append_wire hok hcode ok.lines ok.unchunked hcl hlen rest
  rw [hwire]
  refine ⟨_, hcall, ?_⟩
  have hsame := headerState_startLine msg.parser.isResp a b c msg.parser.headerList
  obtain ⟨hmethod, huri, hversion, hcode', hphrase⟩ := HttpMessage.startLine_matched hstart hsame
  refine ⟨hmethod, huri, hversion, hcode', hphrase, ?_, ?_⟩
  · have hlist := foldl_afterLine_headerList msg.parser.headerList
      { matchStartLine a b c (httpParserInit msg.parser.isResp).toParseState with
        headerOffset := (a ++ SP :: (b ++ SP :: c)).length + 2
        headerState := .headerName }
    change (msg.parser.headerList.foldl afterLine _).headerList.map _ = _
    rw [hlist, matchStartLine_headerList]
    simp [httpParserInit, Function.comp_def]
  · have hdrop := wire_drop hok msg.parser.headerList msg.outputBody.flatten msg.parser.isResp
    change some (((wire (a, b, c) msg.parser.headerList msg.outputBody.flatten ++ rest).take
      (wire (a, b, c) msg.parser.headerList msg.outputBody.flatten).length).drop
        (headerState msg.parser.isResp a b c msg.parser.headerList).headerOffset) = _
    rw [take_left, hdrop]

def postRequest : HttpMessage :=
  appendOutputBody (bytes "lo") <| appendOutputBody (bytes "hel")
    { parser :=
        { httpParserInit false with
          method := some (bytes "POST")
          uri := some (bytes "/a")
          version := some (bytes "HTTP/1.1")
          headerList := [HeaderLine.make (bytes "Host") (bytes "h"),
            HeaderLine.make (bytes "content-length") (bytes "5")] }
      outputBody := []
      outputBodySize := 0
      request := fun _ => ⟨rfl, rfl⟩
      response := by rintro ⟨⟩
      bodySize := rfl }

theorem postRequest_transmissible : Transmissible postRequest where
  startLine := ⟨bytes "POST", bytes "/a", bytes "HTTP/1.1", rfl,
    ⟨by decide +kernel, by decide +kernel, by decide +kernel⟩, by rintro ⟨⟩⟩
  lines := by
    intro line hline
    obtain rfl | rfl : line = HeaderLine.make (bytes "Host") (bytes "h") ∨
        line = HeaderLine.make (bytes "content-length") (bytes "5") := by
      simpa [postRequest, appendOutputBody] using hline
    · exact ⟨by decide +kernel, by decide +kernel, by decide +kernel, by decide +kernel,
        by decide +kernel, by decide +kernel, by decide +kernel⟩
    · exact ⟨by decide +kernel, by decide +kernel, by decide +kernel, by decide +kernel,
        by decide +kernel, by decide +kernel, by decide +kernel⟩
  unchunked := by decide +kernel
  contentLength := ⟨HeaderLine.make (bytes "content-length") (bytes "5"), by decide +kernel,
    ⟨by decide +kernel, by decide +kernel, by decide +kernel, by decide +kernel⟩⟩

theorem postRequest_roundtrip : ∃ vectors msg', encode 10 postRequest = (.ok vectors, msg') ∧
    vectors.length = 10 ∧ ∃ parser, httpParserAppendMessage (vectors.flatten ++ bytes "GET")
      (httpParserInit false) = (.done, vectors.flatten.length, parser) ∧
      httpParserGetBody parser = some (bytes "hello") := by
  refine ⟨_, _, rfl, rfl, ?_⟩
  obtain ⟨parser, h1, _, _, _, _, _, _, h2⟩ := encode_parse_identity postRequest
    postRequest_transmissible 10 _ _ rfl (bytes "GET")
  exact ⟨parser, h1, h2⟩

end MyWorkflow.Http
