import MyWorkflow.HttpFraming

set_option autoImplicit false

/-!
# Reading chunks back

`HttpChunkCursor` decodes a chunked body a second time, from the body itself, where
`__parse_chunk_data` works on a copy of the line. The body is followed by a NUL.
-/
namespace MyWorkflow.Http
open List CString Incremental

/-! ## What the parser delimits -/

structure Chunk where
  line : Bytes
  payload : Bytes
deriving DecidableEq

def chunkNote (message : Bytes) (p : ParseState) : List Chunk :=
  let ptr := message.drop p.chunkOffset
  match p.chunkState with
  | .chunkData =>
    match scanLine chunkLineMax (fun _ => false) ptr with
    | .line chunkLine =>
      match strtol 16 (strdup chunkLine) with
      | some chunkSize =>
        if chunkSize = 0 then []
        else [⟨chunkLine, (ptr.drop (chunkLine.length + 2)).take (toULong chunkSize)⟩]
      | none => []
    | _ => []
  | _ => []

def parseChunkNoted : Bytes → ParseState × List Chunk → Verdict × (ParseState × List Chunk) :=
  loop (recording chunkStep chunkNote) (fun s => chunkComplete s.1)

def bodyStepNoted (message : Bytes) (s : ParseState × List Chunk) :
    Verdict × (ParseState × List Chunk) :=
  if s.1.transferLength = sizeMax ∧ s.1.chunked = true ∧ s.1.chunkState ≠ .chunkComplete then
    parseChunkNoted message s
  else recording bodyStep (fun _ _ => []) message s

def parseMessageNoted : Bytes → ParseState × List Chunk → Verdict × (ParseState × List Chunk) :=
  andThen (fun s => headerComplete s.1) (recording parseMessageHeader fun _ _ => []) bodyStepNoted
    (Prod.map enterBody id)

def appendMessageChunks (buf : Bytes) (parser : HttpParser) (seen : List Chunk) : List Chunk :=
  if parser.complete then seen
  else (parseMessageNoted (parser.msgbuf.take parser.msgsize ++ buf)
    (parser.toParseState, seen)).2.2

def appendPiecesChunks (parser : HttpParser) (seen : List Chunk) : List Bytes → List Chunk
  | [] => seen
  | piece :: pieces =>
    match httpParserAppendMessage piece parser with
    | (.again, _, parser') =>
      appendPiecesChunks parser' (appendMessageChunks piece parser seen) pieces
    | _ => appendMessageChunks piece parser seen

/-! ## The cursor -/

structure HttpChunkCursor where
  body : Option Bytes
  pos : ℕ
  chunked : Bool
  ended : Bool
deriving DecidableEq

/-- The constructor; without a body neither `pos` nor `chunked` is ever read. -/
def HttpChunkCursor.make (msg : HttpParser) : HttpChunkCursor :=
  match httpParserGetBody msg with
  | some body => { body := some body, pos := 0, chunked := msg.chunked, ended := false }
  | none => { body := none, pos := 0, chunked := false, ended := true }

/-- `read` is the end of the bytes `next` has looked at; `fault` is to go on from the NULL of
    `strchr` or from a position behind the body. -/
inductive NextCall where
  | chunk (read first size : ℕ) (cursor : HttpChunkCursor)
  | finished (read : ℕ) (cursor : HttpChunkCursor)
  | fault
deriving DecidableEq

def HttpChunkCursor.next (cursor : HttpChunkCursor) : NextCall :=
  let body := cursor.body.getD []
  if cursor.ended then .finished 0 cursor
  else if !cursor.chunked then .chunk 0 0 body.length { cursor with ended := true }
  else if body.length < cursor.pos then .fault
  else
    let cur := body.drop cursor.pos
    let size := toULong ((strtol 16 cur).getD 0)
    let read := cursor.pos + strtolRead 16 cur
    if size = 0 then .finished read { cursor with ended := true }
    else
      let stop := cursor.pos + strtolEnd 16 cur
      match strchr (body.drop stop) CR with
      | none => .fault
      | some i =>
        .chunk (max read (stop + i + 1)) (stop + i + 2) size
          { cursor with pos := stop + i + (size + 4) }

/-- The loop of `decode_chunked_body`; `none` if a call faults or its range leaves the body. -/
def decodeLoop (body : Bytes) : ℕ → HttpChunkCursor → Bytes → Option Bytes
  | 0, _, _ => none
  | fuel + 1, cursor, result =>
    match cursor.next with
    | .chunk _ first size cursor' =>
      if first + size ≤ body.length then
        decodeLoop body fuel cursor' (result ++ (body.drop first).take size)
      else none
    | .finished _ _ => some result
    | .fault => none

def decodeChunkedBody (msg : HttpParser) : Option Bytes :=
  match httpParserGetBody msg with
  | some body => decodeLoop body (body.length + 1) (HttpChunkCursor.make msg) []
  | none => some []

/-- `next` returns true once for each payload, in order, and then false, and neither its ranges
    nor what it reads leave the body. -/
def Yields (body : Bytes) : HttpChunkCursor → List Bytes → Prop
  | cursor, [] => ∃ read cursor', cursor.next = .finished read cursor' ∧ read ≤ body.length
  | cursor, payload :: payloads => ∃ read first size cursor',
      cursor.next = .chunk read first size cursor' ∧ read ≤ body.length ∧
      first + size ≤ body.length ∧ (body.drop first).take size = payload ∧
      Yields body cursor' payloads

/-! ## Every cut delimits the same chunks -/

theorem chunkStep_data {msg : Bytes} {p p' : ParseState} (hs : p.chunkState = .chunkData)
    (h : chunkStep msg p = (.done, p')) : ∃ line size,
      scanLine chunkLineMax (fun _ => false) (msg.drop p.chunkOffset) = .line line ∧
      strtol 16 (strdup line) = some size ∧
      (size = 0 ∧ p' = { p with
          chunkOffset := p.chunkOffset + line.length + 2, chunkState := .trailerPart } ∨
        size ≠ 0 ∧ toULong size + line.length + 4 ≤ (msg.drop p.chunkOffset).length ∧
          p' = { p with chunkOffset := p.chunkOffset + (toULong size + line.length + 4) }) := by
  simp only [chunkStep_eq, hs, chunkParser, parseChunkData] at h
  cases hl : scanLine chunkLineMax (fun _ => false) (msg.drop p.chunkOffset) with
  | again | bad => simp [hl] at h
  | line line =>
    cases hn : strtol 16 (strdup line) with
    | none => simp [hl, hn] at h
    | some size =>
      refine ⟨line, size, rfl, hn, ?_⟩
      simp only [hl, hn] at h
      split_ifs at h with h0 hb hlen
      · cases h
        exact .inl ⟨h0, rfl⟩
      · cases h
      · cases h
        refine .inr ⟨h0, by omega, ?_⟩
        rw [← hs]
      · cases h

theorem chunkNote_data {msg line : Bytes} {p : ParseState} {size : ℤ}
    (hs : p.chunkState = .chunkData)
    (hl : scanLine chunkLineMax (fun _ => false) (msg.drop p.chunkOffset) = .line line)
    (hn : strtol 16 (strdup line) = some size) :
    chunkNote msg p = if size = 0 then [] else
      [⟨line, ((msg.drop p.chunkOffset).drop (line.length + 2)).take (toULong size)⟩] := by
  simp only [chunkNote, hs, hl, hn]

theorem chunkNote_trailer {msg : Bytes} {p : ParseState} (hs : p.chunkState ≠ .chunkData) :
    chunkNote msg p = [] := by
  unfold chunkNote
  cases h : p.chunkState with
  | chunkData => exact absurd h hs
  | trailerPart | chunkComplete => rfl

theorem chunkNote_stable (msg more : Bytes) (p p' : ParseState)
    (h : chunkStep msg p = (.done, p')) : chunkNote (msg ++ more) p = chunkNote msg p := by
  by_cases hs : p.chunkState = .chunkData
  · obtain ⟨line, size, hl, hn, hcases⟩ := chunkStep_data hs h
    have hl' : scanLine chunkLineMax (fun _ => false) ((msg ++ more).drop p.chunkOffset) =
        .line line := by
      rw [drop_append, scanLine_append _ (by simp [hl]), hl]
    rw [chunkNote_data hs hl hn, chunkNote_data hs hl' hn]
    obtain ⟨h0, -⟩ | ⟨h0, hlen, -⟩ := hcases
    · rw [if_pos h0, if_pos h0]
    · rw [if_neg h0, if_neg h0, drop_append, drop_append_of_le_length (by omega),
        take_append_of_le_length]
      rw [length_drop]
      omega
  · rw [chunkNote_trailer hs, chunkNote_trailer hs]

theorem recording_chunkStep_resumable : Resumable (recording chunkStep chunkNote) :=
  chunkStep_resumable.recording chunkNote_stable (by
    intro msg more p p' h
    rw [chunkStep_stays h (by decide)])

theorem parseChunkNoted_resumable : Resumable parseChunkNoted :=
  recording_chunkStep_resumable.loop chunkStep_advances.recording

theorem forget_parseChunkNoted (msg : Bytes) (s : ParseState × List Chunk) :
    forget (parseChunkNoted msg s) = parseChunk msg s.1 :=
  forget_loop chunkStep_advances msg s

theorem forget_bodyStepNoted (msg : Bytes) (s : ParseState × List Chunk) :
    forget (bodyStepNoted msg s) = bodyStep msg s.1 := by
  unfold bodyStepNoted
  split
  · next h => rw [forget_parseChunkNoted, bodyStep_chunk h.1 h.2.1 h.2.2]
  · exact forget_recording msg s

theorem bodyStepNoted_resumable : Resumable bodyStepNoted where
  settle := by
    intro msg more s s' v h hv
    unfold bodyStepNoted at h ⊢
    split at h
    · next hc =>
      rw [if_pos hc]
      exact parseChunkNoted_resumable.settle more h hv
    · next hc =>
      rw [if_neg hc]
      exact (bodyStep_resumable.recording (fun _ _ _ _ _ => rfl)
        (fun _ _ _ _ _ => rfl)).settle more h hv
  restart := by
    rintro msg more ⟨p, seen⟩ ⟨p', seen'⟩ h
    have hforget := forget_bodyStepNoted msg (p, seen)
    rw [h] at hforget
    by_cases hc : p.transferLength = sizeMax ∧ p.chunked = true ∧ p.chunkState ≠ .chunkComplete
    · have hchunk : parseChunk msg p = (.again, p') := by
        rw [← bodyStep_chunk hc.1 hc.2.1 hc.2.2]
        exact hforget.symm
      have same := parseChunk_sameHeader hchunk
      have hc' : p'.transferLength = sizeMax ∧ p'.chunked = true ∧
          p'.chunkState ≠ .chunkComplete :=
        ⟨same.transferLength.trans hc.1, same.chunked.trans hc.2.1,
          parseChunk_waiting hchunk hc.2.2⟩
      simp only [bodyStepNoted, if_pos hc] at h
      simp only [bodyStepNoted, if_pos hc, if_pos hc']
      exact parseChunkNoted_resumable.restart more h
    · simp only [bodyStepNoted, if_neg hc] at h
      obtain ⟨hstep, rfl⟩ := (recording_stop_iff (by decide)).mp h
      obtain rfl | ⟨h1, h2, h3, -⟩ := bodyStep_again hstep
      · rfl
      · exact absurd ⟨h1, h2, h3⟩ hc

theorem forget_parseMessageNoted (msg : Bytes) (s : ParseState × List Chunk) :
    forget (parseMessageNoted msg s) = parseMessage msg s.1 :=
  forget_andThen (fun _ => rfl) forget_recording forget_bodyStepNoted msg s

theorem parseMessageNoted_resumable : Resumable parseMessageNoted := by
  have hheader : Resumable (recording (α := Chunk) parseMessageHeader fun _ _ => []) :=
    (headerStep_resumable.loop headerStep_advances).recording (fun _ _ _ _ _ => rfl)
      (fun _ _ _ _ _ => rfl)
  refine hheader.andThen bodyStepNoted_resumable ?_ ?_ ?_
  · rintro msg ⟨p, seen⟩ ⟨p', seen'⟩ hp h
    obtain ⟨hs, -⟩ := (recording_stop_iff (by decide)).mp h
    exact loop_waiting headerStep_advances headerStep_stays hs (by decide) hp
  · rintro msg ⟨p, seen⟩ ⟨p', seen'⟩ hp h
    have hforget := forget_bodyStepNoted msg (p, seen)
    rw [h] at hforget
    have hbody : bodyStep msg p = (.again, p') := hforget.symm
    obtain rfl | ⟨-, -, -, hs⟩ := bodyStep_again hbody
    · exact hp
    · simpa [headerComplete, (parseChunk_sameHeader hs).headerState] using hp
  · rintro msg ⟨p, seen⟩ ⟨p', seen'⟩ h
    have hd := parseMessageHeader_complete (recording_done_iff.mp h).1
    simpa [headerComplete, enterBody_headerState] using hd

theorem appendPiecesChunks_eq {p₀ q : ParseState} {chunks : List Chunk} (parser : HttpParser)
    (mid : Midway p₀ parser) (seen : List Chunk) (pieces : List Bytes)
    (hres : ∀ more, parseMessageNoted (parser.msgbuf ++ more) (parser.toParseState, seen) =
      parseMessageNoted (parser.msgbuf ++ more) (p₀, []))
    (h : parseMessageNoted (parser.msgbuf ++ pieces.flatten) (p₀, []) = (.done, q, chunks)) :
    appendPiecesChunks parser seen pieces = chunks := by
  induction pieces generalizing parser seen with
  | nil =>
    have hforget := forget_parseMessageNoted (parser.msgbuf ++ [].flatten) (p₀, [])
    have hw := mid.waiting
    rw [h, flatten_nil, append_nil] at hforget
    rw [← hforget] at hw
    cases hw
  | cons piece pieces ih =>
    rw [flatten_cons, ← append_assoc] at h
    have hcall := append_eq piece parser mid.incomplete mid.buffered
    have hforget := forget_parseMessageNoted (parser.msgbuf ++ piece) (p₀, [])
    have htake : parser.msgbuf.take parser.msgsize = parser.msgbuf := by
      rw [← mid.buffered, take_length]
    have hchunks : appendMessageChunks piece parser seen =
        (parseMessageNoted (parser.msgbuf ++ piece) (p₀, [])).2.2 := by
      rw [appendMessageChunks, mid.incomplete, if_neg Bool.false_ne_true, htake, hres]
    rw [mid.resumes piece, ← hforget] at hcall
    rcases hp : parseMessageNoted (parser.msgbuf ++ piece) (p₀, []) with ⟨_ | _ | _, q', seen'⟩
    · rw [hp] at hcall hchunks hforget
      simp only [appendPiecesChunks, hcall, forget, settled, hchunks]
      refine ih _ (mid.next piece _ hforget.symm) seen' ?_ h
      intro more
      have hrestart := parseMessageNoted_resumable.restart more
        ((hres piece).trans hp)
      rw [hrestart, append_assoc]
      exact hres (piece ++ more)
    · rw [parseMessageNoted_resumable.settle pieces.flatten hp (by decide)] at h
      cases h
    · rw [parseMessageNoted_resumable.settle pieces.flatten hp (by decide)] at h
      cases h
      rw [hp] at hcall hchunks
      simp only [appendPiecesChunks, hcall, forget, settled, hchunks]

/-! ## One call of the cursor -/

theorem toULong_ne_zero {n : ℤ} (h : longMin ≤ n ∧ n ≤ longMax) (hn : n ≠ 0) : toULong n ≠ 0 := by
  have hmax : longMax = 9223372036854775807 := rfl
  have hmin : longMin = -9223372036854775808 := rfl
  unfold toULong
  omega

def cursorAt (body : Bytes) (pos : ℕ) : HttpChunkCursor :=
  { body := some body, pos := pos, chunked := true, ended := false }

section NextCalls

variable {body line rest : Bytes} {pos : ℕ} {size : ℤ}

theorem line_nul (rest : Bytes) (h0 : 0 ∈ line) :
    ∃ tail, line ++ CR :: rest = strdup line ++ 0 :: tail := by
  obtain ⟨tail, htail⟩ := eq_strdup_append h0
  refine ⟨tail ++ CR :: rest, ?_⟩
  nth_rewrite 1 [htail]
  simp

theorem line_split (line rest : Bytes) : ∃ c tail, line ++ CR :: rest = strdup line ++ c :: tail ∧
    tolower c ≠ 120 ∧ 16 ≤ digitVal c := by
  by_cases h0 : 0 ∈ line
  · obtain ⟨tail, htail⟩ := line_nul rest h0
    exact ⟨0, tail, htail, by decide, by decide⟩
  · have hline : strdup line = line := strdup_eq fun e he h => h0 (h ▸ he)
    exact ⟨CR, rest, by rw [hline], by decide, by decide⟩

theorem strdup_length_le (s : Bytes) : (strdup s).length ≤ s.length :=
  (takeWhile_sublist _).length_le

theorem strtol_line (rest : Bytes) (hn : strtol 16 (strdup line) = some size) :
    strtol 16 (line ++ CR :: rest) = some size ∧
      strtolEnd 16 (line ++ CR :: rest) ≤ (strdup line).length ∧
      strtolRead 16 (line ++ CR :: rest) ≤ line.length + 1 := by
  obtain ⟨c, tail, hsplit, hx, hd⟩ := line_split line rest
  have hle := strdup_length_le line
  have hend := strtolEnd_le 16 (strdup line)
  have hread := strtolRead_append_le tail hn hx hd
  rw [hsplit]
  refine ⟨strtol_append tail hn hx hd, ?_, by omega⟩
  rw [strtolEnd_append tail hn hx hd]
  exact hend

variable (hdrop : body.drop pos = line ++ CR :: rest) (hpos : pos ≤ body.length)
variable (hn : strtol 16 (strdup line) = some size)

include hdrop hpos in
theorem line_length_le : pos + line.length + 1 + rest.length = body.length := by
  have hlen := congrArg List.length hdrop
  simp only [length_drop, length_append, length_cons] at hlen
  omega

include hdrop hpos hn in
theorem next_zero (h0 : size = 0) : ∃ read cursor,
    (cursorAt body pos).next = .finished read cursor ∧ read ≤ body.length := by
  obtain ⟨hval, -, hread⟩ := strtol_line rest hn
  have hlen := line_length_le hdrop hpos
  have hin : ¬body.length < pos := by omega
  have hsize : toULong size = 0 := by rw [h0]; rfl
  refine ⟨pos + strtolRead 16 (line ++ CR :: rest), { cursorAt body pos with ended := true },
    ?_, by omega⟩
  simp only [HttpChunkCursor.next, cursorAt, Option.getD_some, Bool.false_eq_true, ↓reduceIte,
    Bool.not_true, hin, hdrop, hval, hsize]

include hdrop hpos hn in
theorem next_chunk (h0 : size ≠ 0) (hcr : CR ∉ line) (hclean : 0 ∉ line) : ∃ read,
    (cursorAt body pos).next = .chunk read (pos + line.length + 2) (toULong size)
      (cursorAt body (pos + (toULong size + line.length + 4))) ∧ read ≤ body.length := by
  obtain ⟨hval, hend, hread⟩ := strtol_line rest hn
  have hlen := line_length_le hdrop hpos
  have hin : ¬body.length < pos := by omega
  have hsize := toULong_ne_zero (strtol_range hn) h0
  have hle := strdup_length_le line
  generalize hstop : strtolEnd 16 (line ++ CR :: rest) = stop at hend
  have hfrom : body.drop (pos + stop) = line.drop stop ++ CR :: rest := by
    rw [← drop_drop, hdrop, drop_append_of_le_length (by omega)]
  have hfound : strchr (body.drop (pos + stop)) CR = some (line.length - stop) := by
    rw [hfrom, strchr_found rest (fun h => hclean (mem_of_mem_drop h))
      (fun h => hcr (mem_of_mem_drop h)) (by decide), length_drop]
  refine ⟨max (pos + strtolRead 16 (line ++ CR :: rest)) (pos + stop + (line.length - stop) + 1),
    ?_, by omega⟩
  simp only [HttpChunkCursor.next, cursorAt, Option.getD_some, Bool.false_eq_true, ↓reduceIte,
    Bool.not_true, hin, hdrop, hval, hsize, hstop, hfound]
  congr 1
  · omega
  · congr 1
    omega

include hdrop hpos hn in
theorem next_fault (h0 : size ≠ 0) (hcr : CR ∉ line) (hnul : 0 ∈ line) :
    (cursorAt body pos).next = .fault := by
  obtain ⟨hval, hend, -⟩ := strtol_line rest hn
  have hlen := line_length_le hdrop hpos
  have hin : ¬body.length < pos := by omega
  have hsize := toULong_ne_zero (strtol_range hn) h0
  generalize hstop : strtolEnd 16 (line ++ CR :: rest) = stop at hend
  obtain ⟨tail, htail⟩ := line_nul rest hnul
  have hfrom : body.drop (pos + stop) = (strdup line).drop stop ++ 0 :: tail := by
    rw [← drop_drop, hdrop, htail, drop_append_of_le_length hend]
  have hnone : strchr (body.drop (pos + stop)) CR = none := by
    rw [hfrom]
    refine strchr_none _ (fun h => zero_notMem_strdup line (mem_of_mem_drop h)) fun h => hcr ?_
    exact (takeWhile_sublist _).mem (mem_of_mem_drop h)
  simp only [HttpChunkCursor.next, cursorAt, Option.getD_some, Bool.false_eq_true, ↓reduceIte,
    Bool.not_true, hin, hdrop, hval, hsize, hstop, hnone]

end NextCalls

/-! ## The cursor along the chunks -/

theorem chunkStep_trailer {msg : Bytes} {p p' : ParseState} {v : Verdict}
    (hs : p.chunkState ≠ .chunkData) (h : chunkStep msg p = (v, p')) :
    p'.chunkState ≠ .chunkData := by
  have hparser : chunkParser p.chunkState = parseTrailerPart := by
    cases hc : p.chunkState with
    | chunkData => exact absurd hc hs
    | trailerPart | chunkComplete => rfl
  rw [chunkStep_eq, hparser, parseTrailerPart] at h
  split at h
  · cases h
    exact hs
  · cases h
    exact hs
  · cases h
    simp only
    split
    · decide
    · exact hs

theorem parseChunkNoted_trailer {msg : Bytes} {s s' : ParseState × List Chunk} {v : Verdict}
    (hs : s.1.chunkState ≠ .chunkData) (h : parseChunkNoted msg s = (v, s')) : s'.2 = s.2 := by
  have keep : ∀ msg (u u' : ParseState × List Chunk) v,
      recording chunkStep chunkNote msg u = (v, u') →
      u.1.chunkState ≠ .chunkData ∧ u.2 = s.2 → u'.1.chunkState ≠ .chunkData ∧ u'.2 = s.2 := by
    rintro msg ⟨p, seen⟩ ⟨p', seen'⟩ v h ⟨hp, hseen⟩
    obtain ⟨hstep, rfl⟩ := recording_iff.mp h
    refine ⟨chunkStep_trailer hp hstep, ?_⟩
    rw [chunkNote_trailer hp, ite_self, append_nil]
    exact hseen
  exact (loop_preserves chunkStep_advances.recording keep h ⟨hs, rfl⟩).2

/-- The cursor at the chunk line of `p`, in a body from `start` on, yields the payloads of
    `chunks` if and only if none of their lines holds a NUL. -/
structure YieldsUnlessNul (msg : Bytes) (start : ℕ) (p : ParseState) (chunks : List Chunk) :
    Prop where
  room : chunks.length + p.chunkOffset ≤ msg.length
  yields_iff : Yields (msg.drop start) (cursorAt (msg.drop start) (p.chunkOffset - start))
    (chunks.map Chunk.payload) ↔ ∀ c ∈ chunks, 0 ∉ c.line

theorem scanLine_split {limit : ℕ} {ptr line : Bytes}
    (h : scanLine limit (fun _ => false) ptr = .line line) :
    CR ∉ line ∧ ∃ rest, ptr = line ++ CR :: LF :: rest := by
  obtain ⟨rest, hs⟩ := scanLine_line_iff.mp h
  obtain ⟨mid, c, rfl, rfl, hc, -, hmid⟩ := (scanUntil_done_iff (Nat.zero_le _)).mp hs
  have hc : c = CR := by simpa using hc
  refine ⟨fun hcr => ?_, rest, by rw [hc]⟩
  have := (hmid CR hcr).1
  simp at this

section ChunkLines

variable {msg line : Bytes} {start : ℕ} {p : ParseState} {size : ℤ}
variable (hl : scanLine chunkLineMax (fun _ => false) (msg.drop p.chunkOffset) = .line line)
variable (hn : strtol 16 (strdup line) = some size) (hstart : start ≤ p.chunkOffset)

include hl hstart in
theorem cursor_line : ∃ rest, (msg.drop start).drop (p.chunkOffset - start) = line ++ CR :: rest ∧
    p.chunkOffset - start ≤ (msg.drop start).length ∧ CR ∉ line := by
  obtain ⟨hcr, rest, hrest⟩ := scanLine_split hl
  have hlen := scanLine_length hl
  rw [length_drop] at hlen
  refine ⟨LF :: rest, ?_, ?_, hcr⟩
  · rw [drop_drop, Nat.add_sub_cancel' hstart, hrest]
  · rw [length_drop]
    omega

include hl hn hstart in
theorem YieldsUnlessNul.last (h0 : size = 0) : YieldsUnlessNul msg start p [] where
  room := by
    have hlen := scanLine_length hl
    simp only [length_drop, length_nil] at hlen ⊢
    omega
  yields_iff := by
    obtain ⟨rest, hdrop, hpos, -⟩ := cursor_line hl hstart
    exact iff_of_true (next_zero hdrop hpos hn h0) (by simp)

include hl hn hstart in
theorem YieldsUnlessNul.cons {p' : ParseState} {chunks : List Chunk} (h0 : size ≠ 0)
    (hlen : toULong size + line.length + 4 ≤ (msg.drop p.chunkOffset).length)
    (hp' : p'.chunkOffset = p.chunkOffset + (toULong size + line.length + 4))
    (h : YieldsUnlessNul msg start p' chunks) :
    YieldsUnlessNul msg start p
      (⟨line, ((msg.drop p.chunkOffset).drop (line.length + 2)).take (toULong size)⟩ :: chunks) where
  room := by
    have hroom := h.room
    rw [length_cons]
    omega
  yields_iff := by
    obtain ⟨rest, hdrop, hpos, hcr⟩ := cursor_line hl hstart
    rw [forall_mem_cons, ← h.yields_iff]
    by_cases hnul : 0 ∈ line
    · have hfault := next_fault hdrop hpos hn h0 hcr hnul
      refine iff_of_false ?_ fun hc => hc.1 hnul
      rintro ⟨_, _, _, _, hnext, -⟩
      rw [hfault] at hnext
      cases hnext
    · obtain ⟨read, hnext, hread⟩ := next_chunk hdrop hpos hn h0 hcr hnul
      have hpos' : p'.chunkOffset - start =
          p.chunkOffset - start + (toULong size + line.length + 4) := by omega
      rw [hpos', map_cons]
      constructor
      · rintro ⟨_, _, _, _, hnext', -, -, -, htail⟩
        rw [hnext] at hnext'
        cases hnext'
        exact ⟨hnul, htail⟩
      · rintro ⟨-, htail⟩
        refine ⟨_, _, _, _, hnext, hread, ?_, ?_, htail⟩
        · rw [length_drop] at hlen ⊢
          omega
        · rw [drop_drop, drop_drop]
          congr 2
          omega

end ChunkLines

theorem parseChunkNoted_yields (msg : Bytes) (start : ℕ) (s : ParseState × List Chunk) :
    ∀ s', parseChunkNoted msg s = (.done, s') → s.1.chunkState = .chunkData →
      start ≤ s.1.chunkOffset →
      ∃ chunks, s'.2 = s.2 ++ chunks ∧ YieldsUnlessNul msg start s.1 chunks := by
  refine loop_induct (motive := fun s r => ∀ s', r = (.done, s') → s.1.chunkState = .chunkData →
    start ≤ s.1.chunkOffset →
    ∃ chunks, s'.2 = s.2 ++ chunks ∧ YieldsUnlessNul msg start s.1 chunks)
    chunkStep_advances.recording ?_ ?_ s
  · rintro ⟨p, seen⟩ ⟨p', seen'⟩ v h hh u ⟨⟩ hs
    have hh := hh rfl
    obtain ⟨hstep, -⟩ := recording_done_iff.mp h
    obtain ⟨line, size, -, -, ⟨-, rfl⟩ | ⟨-, -, rfl⟩⟩ := chunkStep_data hs hstep
    · cases hh
    · rw [show p.chunkState = .chunkData from hs] at hh
      cases hh
  · rintro ⟨p, seen⟩ ⟨p', seen'⟩ r h _ hr ih s' rfl hs hstart
    obtain ⟨hstep, rfl⟩ := recording_done_iff.mp h
    obtain ⟨line, size, hl, hn, ⟨h0, rfl⟩ | ⟨h0, hlen, rfl⟩⟩ := chunkStep_data hs hstep
    · -- the last chunk line: only trailer lines follow
      have hseen := parseChunkNoted_trailer (by simp) hr
      refine ⟨[], ?_, .last hl hn hstart h0⟩
      rw [hseen, chunkNote_data hs hl hn, if_pos h0]
    · obtain ⟨chunks, hchunks, hyields⟩ := ih s' rfl hs (Nat.le_add_right_of_le hstart)
      refine ⟨_, ?_, .cons hl hn hstart h0 hlen rfl hyields⟩
      rw [hchunks, chunkNote_data hs hl hn, if_neg h0]
      simp

theorem decodeLoop_yields {body : Bytes} {fuel : ℕ} {cursor : HttpChunkCursor}
    {payloads : List Bytes} (result : Bytes) (h : Yields body cursor payloads)
    (hfuel : payloads.length < fuel) :
    decodeLoop body fuel cursor result = some (result ++ payloads.flatten) := by
  induction payloads generalizing fuel cursor result with
  | nil =>
    obtain _ | fuel := fuel
    · cases hfuel
    · obtain ⟨read, cursor', hnext, -⟩ := h
      simp [decodeLoop, hnext]
  | cons payload payloads ih =>
    obtain _ | fuel := fuel
    · cases hfuel
    · obtain ⟨read, first, size, cursor', hnext, -, hrange, rfl, htail⟩ := h
      simp only [decodeLoop, hnext, if_pos hrange]
      rw [ih _ htail (by simpa using hfuel), flatten_cons, append_assoc]

/-! ## Whole messages -/

def bodiless (code : Option Bytes) : Bool :=
  match code with
  | some code => firstByte code == 49 || code == bytes "204" || code == bytes "304"
  | none => false

structure LengthByCode (p : ParseState) : Prop where
  start : p.headerState = .startLine → p.code = none
  transferLength : p.transferLength = if bodiless p.code then 0 else sizeMax

theorem matchStartLine_code (a b c : Bytes) (p : ParseState) :
    (matchStartLine a b c p).code = if p.isResp then some b else p.code := by
  unfold matchStartLine matchStatusLine matchRequestLine
  split_ifs <;> rfl

theorem LengthByCode.startLine {p : ParseState} (h : LengthByCode p) (p1 p2 p3 : Bytes)
    (offset : ℕ) (hs : p.headerState = .startLine) : LengthByCode
      { matchStartLine p1 p2 p3 p with headerOffset := offset, headerState := .headerName } where
  start := by simp
  transferLength := by
    have hlength := h.transferLength
    rw [h.start hs] at hlength
    change (matchStartLine p1 p2 p3 p).transferLength =
      if bodiless (matchStartLine p1 p2 p3 p).code then 0 else sizeMax
    rw [matchStartLine_code, matchStartLine]
    cases p.isResp with
    | false =>
      refine (matchRequestLine_transferLength p1 p2 p3 p).trans ?_
      exact h.transferLength
    | true =>
      refine (matchStatusLine_transferLength p1 p2 p3 p).trans ?_
      rw [hlength]
      rfl

theorem LengthByCode.addHeader {p : ParseState} (h : LengthByCode p) (name value : Bytes) :
    LengthByCode (httpParserAddHeader name value p) := by
  obtain ⟨_, _, _, _, _, _, length, hframe⟩ :=
    checkMessageHeader_frame name value (addMessageHeader name value p)
  unfold httpParserAddHeader
  rw [hframe]
  exact ⟨h.start, h.transferLength⟩

theorem headerStep_lengthByCode (msg : Bytes) (p p' : ParseState) (v : Verdict)
    (h : headerStep msg p = (v, p')) (hp : LengthByCode p) : LengthByCode p' :=
  headerStep_keeps (P := LengthByCode)
    (fun _ _ _ _ hp hstate => ⟨fun hs => hp.start (hstate hs), hp.transferLength⟩)
    (fun p1 p2 p3 _ offset hp hs => hp.startLine p1 p2 p3 offset hs)
    (fun name value _ hp => hp.addHeader name value) msg p p' v h hp

theorem enterBody_chunked {p : ParseState} (hc : p.chunked = true) :
    enterBody p = { p with chunkOffset := p.headerOffset, chunkState := .chunkData } :=
  if_pos hc

theorem bodyStepNoted_length {msg : Bytes} {p q : ParseState} {seen chunks : List Chunk}
    (hlength : p.transferLength ≠ sizeMax) (h : bodyStepNoted msg (p, seen) = (.done, q, chunks)) :
    q = p ∧ chunks = seen := by
  have hc : ¬(p.transferLength = sizeMax ∧ p.chunked = true ∧ p.chunkState ≠ .chunkComplete) :=
    fun hc => hlength hc.1
  simp only [bodyStepNoted, if_neg hc] at h
  obtain ⟨hstep, rfl⟩ := recording_done_iff.mp h
  refine ⟨?_, append_nil _⟩
  simp only [bodyStep, hlength, ne_eq, not_false_eq_true, ↓reduceIte] at hstep
  split_ifs at hstep
  · cases hstep
    rfl
  · cases hstep

theorem yields_empty (payloads : List Bytes) : ¬Yields [] (cursorAt [] 0) payloads := by
  have hnext : (cursorAt [] 0).next = .finished 1 { cursorAt [] 0 with ended := true } := by decide
  cases payloads with
  | nil =>
    rintro ⟨read, cursor, h, hread⟩
    rw [hnext] at h
    cases h
    cases hread
  | cons payload payloads =>
    rintro ⟨_, _, _, _, h, -⟩
    rw [hnext] at h
    cases h

theorem SameHeader.code {p q : ParseState} (h : SameHeader p q) : q.code = p.code := by
  rw [← h]

theorem parseMessageNoted_yields {msg : Bytes} {p q : ParseState} {chunks : List Chunk}
    (hp : headerComplete p = false) (hcode : LengthByCode p)
    (h : parseMessageNoted msg (p, []) = (.done, q, chunks)) (hchunked : q.chunked = true)
    (hend : endOffset q = msg.length) :
    headerComplete q = true ∧ chunks.length ≤ (msg.drop q.headerOffset).length ∧
      (Yields (msg.drop q.headerOffset) (cursorAt (msg.drop q.headerOffset) 0)
        (chunks.map Chunk.payload) ↔ bodiless q.code = false ∧ ∀ c ∈ chunks, 0 ∉ c.line) := by
  obtain ⟨⟨r, seen⟩, hheader, hbody⟩ :=
    andThen_inv (σ := ParseState × List Chunk) (s := (p, [])) hp h
  obtain ⟨hs, rfl⟩ := recording_done_iff.mp hheader
  change bodyStepNoted msg (enterBody r, []) = _ at hbody
  have hr : LengthByCode r := loop_preserves headerStep_advances headerStep_lengthByCode hs hcode
  have hcomplete := parseMessageHeader_complete hs
  have hforget := forget_bodyStepNoted msg (enterBody r, [])
  rw [hbody] at hforget
  have hsame : SameHeader (enterBody r) q := bodyStep_sameHeader hforget.symm
  have hrc : r.chunked = true := by
    rw [hsame.chunked] at hchunked
    unfold enterBody at hchunked
    split_ifs at hchunked <;> assumption
  rw [enterBody_chunked hrc] at hbody hsame
  have hlength := hr.transferLength
  rw [hsame.headerOffset, hsame.code]
  refine ⟨?_, ?_⟩
  · simpa [headerComplete, hsame.headerState] using hcomplete
  change chunks.length ≤ (msg.drop r.headerOffset).length ∧
    (Yields (msg.drop r.headerOffset) (cursorAt (msg.drop r.headerOffset) 0) _ ↔
      bodiless r.code = false ∧ _)
  cases hb : bodiless r.code with
  | true =>
    rw [hb, if_pos rfl] at hlength
    have hne : r.transferLength ≠ sizeMax := by
      rw [hlength]
      decide
    obtain ⟨rfl, rfl⟩ := bodyStepNoted_length (by exact hne) hbody
    have hempty : msg.drop r.headerOffset = [] := by
      rw [endOffset, if_pos (by exact hne)] at hend
      exact drop_eq_nil_of_le (by
        change r.headerOffset + r.transferLength = _ at hend
        omega)
    rw [hempty]
    exact ⟨Nat.zero_le _, iff_of_false (yields_empty _) (by simp)⟩
  | false =>
    rw [hb, if_neg Bool.false_ne_true] at hlength
    rw [bodyStepNoted, if_pos ⟨hlength, hrc, by simp⟩] at hbody
    obtain ⟨chunks', rfl, hyields⟩ :=
      parseChunkNoted_yields msg r.headerOffset _ _ hbody rfl le_rfl
    have hroom := hyields.room
    have hiff := hyields.yields_iff
    simp only [Nat.sub_self] at hroom hiff
    rw [length_drop]
    refine ⟨by omega, ?_⟩
    rw [hiff]
    simp

def CursorAgrees (msg : HttpParser) (payloads : List Bytes) : Prop :=
  ∃ body, httpParserGetBody msg = some body ∧ Yields body (HttpChunkCursor.make msg) payloads ∧
    decodeChunkedBody msg = some payloads.flatten

theorem cursorAgrees_iff {msg : HttpParser} {body : Bytes} {payloads : List Bytes}
    (hbody : httpParserGetBody msg = some body) (hchunked : msg.chunked = true)
    (hroom : payloads.length ≤ body.length) :
    CursorAgrees msg payloads ↔ Yields body (cursorAt body 0) payloads := by
  have hmake : HttpChunkCursor.make msg = cursorAt body 0 := by
    simp only [HttpChunkCursor.make, hbody, hchunked, cursorAt]
  unfold CursorAgrees
  rw [hbody, hmake]
  constructor
  · rintro ⟨body', hsome, hyields, -⟩
    cases hsome
    exact hyields
  · intro hyields
    refine ⟨body, rfl, hyields, ?_⟩
    simp only [decodeChunkedBody, hbody, hmake]
    rw [decodeLoop_yields [] hyields (Nat.lt_succ_of_le hroom), nil_append]

/-- The cursor gives back the payloads that the parser delimited, however the message was cut, exactly
    if the status is one with a body and no line of a chunk holds a NUL. -/
theorem chunkCursor_agrees_iff (isResp : Bool) (pieces : List Bytes)
    (hdone : ∃ call ∈ (appendPieces (httpParserInit isResp) pieces).1, call.1 = .done)
    (hchunked : (appendPieces (httpParserInit isResp) pieces).2.chunked = true) :
    CursorAgrees (appendPieces (httpParserInit isResp) pieces).2
        ((appendPiecesChunks (httpParserInit isResp) [] pieces).map Chunk.payload) ↔
      bodiless (appendPieces (httpParserInit isResp) pieces).2.code = false ∧
        ∀ c ∈ appendPiecesChunks (httpParserInit isResp) [] pieces, 0 ∉ c.line := by
  have mid := httpParserInit_midway isResp
  have hp : headerComplete (httpParserInit isResp).toParseState = false := rfl
  have hcut := appendPieces_agrees hp _ mid pieces
  change Agrees pieces.flatten 0
    (parseMessage pieces.flatten (httpParserInit isResp).toParseState)
    (appendPieces (httpParserInit isResp) pieces) at hcut
  have hverdict := (hcut.verdict .done (by decide)).mpr hdone
  obtain ⟨q, hq⟩ : ∃ q, parseMessage pieces.flatten (httpParserInit isResp).toParseState =
      (.done, q) := ⟨_, Prod.ext hverdict rfl⟩
  rw [hq] at hcut
  have hstate := hcut.state rfl
  have hsize := hcut.size rfl
  have hmessage := hcut.message rfl
  obtain ⟨hle, hexact⟩ := parseMessage_exact hp hq
  -- the message up to its end is parsed alike, with the same chunks
  have hforget := forget_parseMessageNoted (pieces.flatten.take (endOffset q))
    ((httpParserInit isResp).toParseState, [])
  rw [hexact _ le_rfl] at hforget
  obtain ⟨chunks, hnoted⟩ := exists_of_forget hforget
  have hwhole := parseMessageNoted_resumable.settle (pieces.flatten.drop (endOffset q)) hnoted
    (by decide)
  rw [take_append_drop] at hwhole
  rw [appendPiecesChunks_eq _ mid [] pieces (fun _ => rfl) hwhole]
  have hcode : LengthByCode (httpParserInit isResp).toParseState := ⟨fun _ => rfl, rfl⟩
  have hqc : q.chunked = true := by
    rw [hstate] at hchunked
    exact hchunked
  obtain ⟨hcomplete, hroom, hiff⟩ := parseMessageNoted_yields hp hcode hnoted hqc
    (by rw [length_take]; omega)
  have hbody : httpParserGetBody (appendPieces (httpParserInit isResp) pieces).2 =
      some ((pieces.flatten.take (endOffset q)).drop q.headerOffset) := by
    rw [httpParserGetBody, hmessage, hsize, hstate]
    exact if_pos (by simpa [headerComplete] using hcomplete)
  rw [cursorAgrees_iff hbody hchunked (by simpa using hroom), hiff, hstate]

def chunkedPieces : List Bytes :=
  [bytes "POST / HTTP/1.1\r\nTransfer-Encoding: chunked\r\n\r\n5;x=1\r\nhel",
    bytes "lo\r\n 0x2\r\n!?\r\n0\r\n\r\n"]

theorem chunkedPieces_agree : CursorAgrees (appendPieces (httpParserInit false) chunkedPieces).2
    [bytes "hello", bytes "!?"] := by
  have hpayloads : (appendPiecesChunks (httpParserInit false) [] chunkedPieces).map
      Chunk.payload = [bytes "hello", bytes "!?"] := by decide +kernel
  have h := chunkCursor_agrees_iff false chunkedPieces ⟨(.done, 19), by decide +kernel, rfl⟩
    (by decide +kernel)
  rw [hpayloads] at h
  exact h.mpr (by decide +kernel)

theorem not_cursorAgrees_of_fault {msg : HttpParser} {payloads : List Bytes}
    (h : (HttpChunkCursor.make msg).next = .fault) : ¬CursorAgrees msg payloads := by
  rintro ⟨body, -, hyields, -⟩
  cases payloads with
  | nil =>
    obtain ⟨_, _, hnext, -⟩ := hyields
    rw [h] at hnext
    cases hnext
  | cons payload payloads =>
    obtain ⟨_, _, _, _, hnext, -⟩ := hyields
    rw [h] at hnext
    cases hnext

def nulPieces : List Bytes :=
  [bytes "POST / HTTP/1.1\r\nTransfer-Encoding: chunked\r\n\r\n5\x00\r\nhello\r\n0\r\n\r\n"]

/-- The parser delimits the chunk, and `next` goes on from NULL. -/
theorem nulPieces_fault :
    (∃ call ∈ (appendPieces (httpParserInit false) nulPieces).1, call.1 = .done) ∧
    (appendPieces (httpParserInit false) nulPieces).2.chunked = true ∧
    (appendPiecesChunks (httpParserInit false) [] nulPieces).map Chunk.payload =
      [bytes "hello"] ∧
    (HttpChunkCursor.make (appendPieces (httpParserInit false) nulPieces).2).next = .fault ∧
    ¬CursorAgrees (appendPieces (httpParserInit false) nulPieces).2 [bytes "hello"] := by
  have hnext : (HttpChunkCursor.make (appendPieces (httpParserInit false) nulPieces).2).next =
      .fault := by decide +kernel
  exact ⟨⟨(.done, 63), by decide +kernel, rfl⟩, by decide +kernel, by decide +kernel, hnext,
    not_cursorAgrees_of_fault hnext⟩

end MyWorkflow.Http
