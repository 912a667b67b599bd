import Mathlib.Data.List.DropRight
import MyWorkflow.CString
import MyWorkflow.Incremental

set_option autoImplicit false

/-!
# The HTTP parser

The functions of `http_parser.c` on byte lists. A sub-parser gets the unread part of the
message; a verdict `again`, `done` or `bad` is the return value 0, 1 or -2. Allocation
never fails here, so -1 does not occur. Sizes are natural numbers, and `sizeMax` is the
marker `(size_t)-1`.
-/
namespace MyWorkflow.Http
open CString Incremental

def startLineMax : ℕ := 8192
def headerNameMax : ℕ := 64
def headerValueMax : ℕ := 8192
def chunkLineMax : ℕ := 1024
def trailerLineMax : ℕ := 8192
def msgbufInitSize : ℕ := 2048
def chunkSizeMax : ℕ := 2 * 1024 * 1024 * 1024 - chunkLineMax - 4
def sizeMax : ℕ := 2 ^ 64 - 1

inductive HeaderState where
  | startLine
  | headerName
  | headerValue
  | headerComplete
deriving DecidableEq, Repr

inductive ChunkState where
  | chunkData
  | trailerPart
  | chunkComplete
deriving DecidableEq, Repr

/-- `name ": " value CRLF`, then whatever an earlier, longer value left in the buffer. -/
def Layout (buf : Bytes) (nameLen valueLen : ℕ) : Prop :=
  ∃ name value slack : Bytes, name.length = nameLen ∧ value.length = valueLen ∧
    buf = name ++ [COLON, SP] ++ value ++ [CR, LF] ++ slack

/-- A line of the header list; only buffers with the right layout exist. -/
structure HeaderLine where
  buf : Bytes
  nameLen : ℕ
  valueLen : ℕ
  layout : Layout buf nameLen valueLen
deriving DecidableEq

def HeaderLine.name (line : HeaderLine) : Bytes := line.buf.take line.nameLen

def HeaderLine.value (line : HeaderLine) : Bytes :=
  (line.buf.drop (line.nameLen + 2)).take line.valueLen

def HeaderLine.make (name value : Bytes) : HeaderLine where
  buf := name ++ [COLON, SP] ++ value ++ [CR, LF]
  nameLen := name.length
  valueLen := value.length
  layout := ⟨name, value, [], rfl, rfl, by simp⟩

theorem HeaderLine.buf_eq (line : HeaderLine) : ∃ slack,
    line.buf = line.name ++ [COLON, SP] ++ line.value ++ [CR, LF] ++ slack ∧
      line.name.length = line.nameLen ∧ line.value.length = line.valueLen := by
  obtain ⟨buf, n, v, name, value, slack, rfl, rfl, rfl⟩ := line
  exact ⟨slack, by simp [HeaderLine.name, HeaderLine.value]⟩

@[simp] theorem HeaderLine.make_name (name value : Bytes) :
    (HeaderLine.make name value).name = name := by
  simp [HeaderLine.make, HeaderLine.name]

@[simp] theorem HeaderLine.make_value (name value : Bytes) :
    (HeaderLine.make name value).value = value := by
  simp [HeaderLine.make, HeaderLine.value]

theorem HeaderLine.overwrite_layout (line : HeaderLine) (value : Bytes) :
    Layout (line.buf.take (line.nameLen + 2) ++ value ++ [CR, LF] ++
      line.buf.drop (line.nameLen + 2 + value.length + 2)) line.nameLen value.length := by
  obtain ⟨slack, hb, hn, _⟩ := line.buf_eq
  refine ⟨line.name, value, line.buf.drop (line.nameLen + 2 + value.length + 2), hn, rfl, ?_⟩
  have hpre : line.buf.take (line.nameLen + 2) = line.name ++ [COLON, SP] := by
    rw [hb, ← hn]
    simp [List.take_append, List.take_of_length_le]
  rw [hpre]

/-- The branch of `__set_message_header` for a line that matches: a longer value moves to a new
    buffer. -/
def HeaderLine.store (line : HeaderLine) (name value : Bytes) : HeaderLine :=
  if line.valueLen < value.length then HeaderLine.make name value
  else
    { buf := line.buf.take (line.nameLen + 2) ++ value ++ [CR, LF] ++
        line.buf.drop (line.nameLen + 2 + value.length + 2)
      nameLen := line.nameLen
      valueLen := value.length
      layout := line.overwrite_layout value }

/-- The parse state of `http_parser_t`: everything but the message buffer. -/
structure ParseState where
  isResp : Bool
  headerState : HeaderState
  chunkState : ChunkState
  headerOffset : ℕ
  chunkOffset : ℕ
  contentLength : ℕ
  transferLength : ℕ
  version : Option Bytes
  method : Option Bytes
  uri : Option Bytes
  code : Option Bytes
  phrase : Option Bytes
  headerList : List HeaderLine
  namebuf : Bytes
  hasConnection : Bool
  hasContentLength : Bool
  hasKeepAlive : Bool
  expectContinue : Bool
  keepAlive : Bool
  chunked : Bool
  complete : Bool
deriving DecidableEq

structure HttpParser extends ParseState where
  msgbuf : Bytes
  msgsize : ℕ
  bufsize : ℕ
deriving DecidableEq

def httpParserInit (isResp : Bool) : HttpParser where
  isResp := isResp
  headerState := .startLine
  chunkState := .chunkData
  headerOffset := 0
  chunkOffset := 0
  contentLength := if isResp then sizeMax else 0
  transferLength := sizeMax
  version := none
  method := none
  uri := none
  code := none
  phrase := none
  headerList := []
  namebuf := []
  hasConnection := false
  hasContentLength := false
  hasKeepAlive := false
  expectContinue := false
  keepAlive := true
  chunked := false
  complete := false
  msgbuf := []
  msgsize := 0
  bufsize := 0

/-! ## Header fields -/

def addMessageHeader (name value : Bytes) (p : ParseState) : ParseState :=
  { p with headerList := p.headerList ++ [HeaderLine.make name value] }

def setInList (name value : Bytes) : List HeaderLine → Option (List HeaderLine)
  | [] => none
  | line :: lines =>
    if line.nameLen == name.length && strncaseeq name.length line.buf name then
      some (line.store name value :: lines)
    else (setInList name value lines).map (line :: ·)

def setMessageHeader (name value : Bytes) (p : ParseState) : ParseState :=
  match setInList name value p.headerList with
  | some lines => { p with headerList := lines }
  | none => addMessageHeader name value p

def firstByte (value : Bytes) : UInt8 := value.headD 0

def checkMessageHeader (name value : Bytes) (p : ParseState) : ParseState :=
  match name.length with
  | 6 =>
    if strncaseeq 6 name (bytes "Expect") then
      if value.length == 12 && strncaseeq 12 value (bytes "100-continue") then
        { p with expectContinue := true }
      else p
    else p
  | 10 =>
    if strncaseeq 10 name (bytes "Connection") then
      let p := { p with hasConnection := true }
      if value.length == 10 && strncaseeq 10 value (bytes "Keep-Alive") then
        { p with keepAlive := true }
      else if value.length == 5 && strncaseeq 5 value (bytes "close") then
        { p with keepAlive := false }
      else p
    else if strncaseeq 10 name (bytes "Keep-Alive") then { p with hasKeepAlive := true }
    else p
  | 14 =>
    if strncaseeq 14 name (bytes "Content-Length") then
      let p := { p with hasContentLength := true }
      if isdigit (firstByte value) && value.length ≤ 15 then
        { p with contentLength := (atol value).toNat }
      else p
    else p
  | 17 =>
    if strncaseeq 17 name (bytes "Transfer-Encoding") then
      if value.length != 8 || !strncaseeq 8 value (bytes "identity") then
        { p with chunked := true }
      else { p with chunked := false }
    else p
  | _ => p

theorem checkMessageHeader_list (name value : Bytes) (p : ParseState) :
    (checkMessageHeader name value p).headerList = p.headerList := by
  unfold checkMessageHeader
  split
  all_goals first | (split_ifs <;> rfl) | rfl

def httpParserAddHeader (name value : Bytes) (p : ParseState) : ParseState :=
  checkMessageHeader name value (addMessageHeader name value p)

def httpParserSetHeader (name value : Bytes) (p : ParseState) : ParseState :=
  checkMessageHeader name value (setMessageHeader name value p)

/-! ## Start line -/

def oldVersion (version : Bytes) : Bool :=
  version == bytes "HTTP/1.0" || version.take 6 == bytes "HTTP/0"

def matchRequestLine (method uri version : Bytes) (p : ParseState) : ParseState :=
  let p := if oldVersion version then { p with keepAlive := false } else p
  { p with method := some method, uri := some uri, version := some version }

def matchStatusLine (version code phrase : Bytes) (p : ParseState) : ParseState :=
  let p := if oldVersion version then { p with keepAlive := false } else p
  let p := if firstByte code == 49 || code == bytes "204" || code == bytes "304" then
    { p with transferLength := 0 } else p
  { p with version := some version, code := some code, phrase := some phrase }

inductive LineScan where
  | again
  | bad
  | line (text : Bytes)
deriving DecidableEq, Repr

/-- The copying loop shared by the line readers: fewer than `limit` bytes up to CR, which LF
    must follow. A byte that satisfies `reject` is an error. -/
def scanLine (limit : ℕ) (reject : UInt8 → Bool) (ptr : Bytes) : LineScan :=
  match scanUntil limit (· == CR) reject [] ptr with
  | (.again, _, _) => .again
  | (.bad, _, _) => .bad
  | (.done, _, []) => .again
  | (.done, text, c :: _) => if c = LF then .line text else .bad

/-- `strchr(s, ' ')`: the text before the first space and the text after it. -/
def cutSpace (s : Bytes) : Option (Bytes × Bytes) :=
  match s.dropWhile (· != SP) with
  | [] => none
  | _ :: rest => some (s.takeWhile (· != SP), rest)

def startLineFields (startLine : Bytes) : Option (Bytes × Bytes × Bytes) :=
  match cutSpace startLine with
  | none => none
  | some (p1, rest) =>
    match cutSpace rest with
    | none => none
    | some (p2, p3) => some (p1, p2, p3)

def matchStartLine (p1 p2 p3 : Bytes) (p : ParseState) : ParseState :=
  if p.isResp then matchStatusLine p1 p2 p3 p else matchRequestLine p1 p2 p3 p

def parseStartLine (ptr : Bytes) (p : ParseState) : Verdict × ParseState :=
  if ptr.take 2 = [CR, LF] then (.done, { p with headerOffset := p.headerOffset + 2 })
  else
    match scanLine startLineMax (· == 0) ptr with
    | .again => (.again, p)
    | .bad => (.bad, p)
    | .line startLine =>
      match startLineFields startLine with
      | none => (.bad, p)
      | some (p1, p2, p3) =>
        (.done, { matchStartLine p1 p2 p3 p with
          headerOffset := p.headerOffset + startLine.length + 2
          headerState := .headerName })

/-! ## Header lines -/

def parseHeaderName (ptr : Bytes) (p : ParseState) : Verdict × ParseState :=
  if ptr.take 2 = [CR, LF] then
    (.done, { p with headerOffset := p.headerOffset + 2, headerState := .headerComplete })
  else
    match scanUntil headerNameMax (· == COLON) nonPositive [] ptr with
    | (.done, name, _) =>
      (.done, { p with
        namebuf := name
        headerOffset := p.headerOffset + name.length + 1
        headerState := .headerValue })
    -- the bytes already in `namebuf` are never read: the next call starts over at index 0
    | (v, _, _) => (v, p)

def isBlank (c : UInt8) : Bool := c == SP || c == HT

inductive ValueScan where
  | again
  | bad
  | value (text : Bytes) (used : ℕ)
deriving DecidableEq, Repr

/-- The loops of `__parse_header_value`. `text` is `header_value[0..i)` and `used` is
    `ptr - begin`; `skipping` is the loop over leading blanks of a line. A line end is
    final only once the byte behind it is seen not to be a blank. -/
def scanValue : Bool → Bytes → ℕ → Bytes → ValueScan
  | _, _, _, [] => .again
  | skipping, text, used, c :: rest =>
    if skipping && isBlank c then scanValue true text (used + 1) rest
    else if text.length = headerValueMax then .bad
    else if c = CR then
      match rest with
      | [] => .again
      | d :: rest' =>
        if d = LF then
          match rest' with
          | [] => .again
          | e :: rest'' =>
            if isBlank e then
              scanValue true (text.rdropWhile isBlank ++ [SP]) (used + 3) rest''
            else .value (text.rdropWhile isBlank) (used + 2)
        else .bad
    else
      match rest with
      | [] => .again
      | _ :: _ =>
        if nonPositive c then .bad else scanValue false (text ++ [c]) (used + 1) rest

theorem scanValue_skip {skipping : Bool} {text : Bytes} {used : ℕ} {c : UInt8} {rest : Bytes}
    (hb : (skipping && isBlank c) = true) :
    scanValue skipping text used (c :: rest) = scanValue true text (used + 1) rest := by
  rw [scanValue.eq_def]
  simp only [hb, ↓reduceIte]

def parseHeaderValue (ptr : Bytes) (p : ParseState) : Verdict × ParseState :=
  match scanValue true [] 0 ptr with
  | .again => (.again, p)
  | .bad => (.bad, p)
  | .value text used =>
    (.done, { httpParserAddHeader p.namebuf text p with
      headerOffset := p.headerOffset + used
      headerState := .headerName })

def headerStep (message : Bytes) (p : ParseState) : Verdict × ParseState :=
  let ptr := message.drop p.headerOffset
  match p.headerState with
  | .startLine => parseStartLine ptr p
  | .headerValue => parseHeaderValue ptr p
  | _ => parseHeaderName ptr p

def headerComplete (p : ParseState) : Bool := p.headerState == .headerComplete

def parseMessageHeader (message : Bytes) (p : ParseState) : Verdict × ParseState :=
  loop headerStep headerComplete message p

/-! ## Chunked bodies -/

def toULong (n : ℤ) : ℕ := (n % 2 ^ 64).toNat

def parseChunkData (ptr : Bytes) (p : ParseState) : Verdict × ParseState :=
  match scanLine chunkLineMax (fun _ => false) ptr with
  | .again => (.again, p)
  | .bad => (.bad, p)
  | .line chunkLine =>
    -- `strtol` stops at a NUL inside the line
    match strtol 16 (strdup chunkLine) with
    | none => (.bad, p)
    | some chunkSize =>
      if chunkSize = 0 then
        (.done, { p with
          chunkOffset := p.chunkOffset + chunkLine.length + 2
          chunkState := .trailerPart })
      else if toULong chunkSize < chunkSizeMax then
        let size := toULong chunkSize + chunkLine.length + 4
        if ptr.length < size then (.again, p)
        else (.done, { p with chunkOffset := p.chunkOffset + size })
      else (.bad, p)

def parseTrailerPart (ptr : Bytes) (p : ParseState) : Verdict × ParseState :=
  match scanLine trailerLineMax (fun _ => false) ptr with
  | .again => (.again, p)
  | .bad => (.bad, p)
  | .line trailer =>
    (.done, { p with
      chunkOffset := p.chunkOffset + trailer.length + 2
      chunkState := if trailer.length = 0 then .chunkComplete else p.chunkState })

def chunkStep (message : Bytes) (p : ParseState) : Verdict × ParseState :=
  let ptr := message.drop p.chunkOffset
  match p.chunkState with
  | .chunkData => parseChunkData ptr p
  | _ => parseTrailerPart ptr p

def chunkComplete (p : ParseState) : Bool := p.chunkState == .chunkComplete

def parseChunk (message : Bytes) (p : ParseState) : Verdict × ParseState :=
  loop chunkStep chunkComplete message p

/-! ## Appending bytes -/

def growSize (need : ℕ) : ℕ → ℕ → ℕ
  | 0, size => size
  | fuel + 1, size => if size < need then growSize need fuel (2 * size) else size

def growBuffer (need bufsize : ℕ) : ℕ :=
  if bufsize < need then
    growSize need need (if msgbufInitSize ≥ 2 * bufsize then msgbufInitSize else 2 * bufsize)
  else bufsize

def enterBody (p : ParseState) : ParseState :=
  if p.chunked then { p with chunkOffset := p.headerOffset, chunkState := .chunkData }
  else if p.transferLength = sizeMax then { p with transferLength := p.contentLength }
  else p

/-- `http_parser_append_message`; the second component is the new `*n`. -/
def httpParserAppendMessage (buf : Bytes) (parser : HttpParser) : Verdict × ℕ × HttpParser :=
  if parser.complete then (.done, 0, parser)
  else
    let n := buf.length
    let bufsize := growBuffer (parser.msgsize + n + 1) parser.bufsize
    let message := parser.msgbuf.take parser.msgsize ++ buf
    let msgsize := parser.msgsize + n
    let header : Verdict × ParseState :=
      if parser.headerState ≠ .headerComplete then
        match parseMessageHeader message parser.toParseState with
        | (.done, p) => (.done, enterBody p)
        | r => r
      else (.done, parser.toParseState)
    match header with
    | (.done, p) =>
      if p.transferLength ≠ sizeMax then
        let total := p.headerOffset + p.transferLength
        if msgsize ≥ total then
          (.done, n - (msgsize - total), ⟨{ p with complete := true }, message, total, bufsize⟩)
        else (.again, n, ⟨p, message, msgsize, bufsize⟩)
      else if !p.chunked then (.again, n, ⟨p, message, msgsize, bufsize⟩)
      else
        let chunk : Verdict × ParseState :=
          if p.chunkState ≠ .chunkComplete then parseChunk message p else (.done, p)
        match chunk with
        | (.done, p) =>
          (.done, n - (msgsize - p.chunkOffset),
            ⟨{ p with complete := true }, message, p.chunkOffset, bufsize⟩)
        | (v, p) => (v, n, ⟨p, message, msgsize, bufsize⟩)
    | (v, p) => (v, n, ⟨p, message, msgsize, bufsize⟩)

def httpParserGetBody (parser : HttpParser) : Option Bytes :=
  if parser.complete && headerComplete parser.toParseState then
    some ((parser.msgbuf.take parser.msgsize).drop parser.headerOffset)
  else none

end MyWorkflow.Http
