import MyWorkflow.HttpParserCuts
import MyWorkflow.PollerRead

set_option autoImplicit false

namespace MyWorkflow.Http
open List CString Incremental PollerRead

inductive AppendErrno where
  | EMSGSIZE
  | EBADMSG
  | other (errno : ℕ)
deriving DecidableEq, Repr

structure HttpResponse where
  parser : HttpParser
  curSize : ℕ
  sizeLimit : ℕ

def messageAppend (buf : Bytes) (msg : HttpResponse) : Ret AppendErrno × ℕ × HttpResponse :=
  match httpParserAppendMessage buf msg.parser with
  | (.bad, n, parser) => (.error .EBADMSG, n, { msg with parser := parser })
  | (v, n, parser) =>
    let msg := { msg with parser := parser, curSize := msg.curSize + n }
    if msg.sizeLimit < msg.curSize then (.error .EMSGSIZE, n, msg)
    else if v = .done then (.done, n, msg)
    else (.again, n, msg)

def isContinue (p : ParseState) : Bool := p.code.map strdup == some (bytes "100")

def responseAppend (buf : Bytes) (msg : HttpResponse) : Ret AppendErrno × ℕ × HttpResponse :=
  match messageAppend buf msg with
  | (.done, n, msg) =>
    if isContinue msg.parser.toParseState then (.again, n, { msg with parser := httpParserInit true })
    else (.done, n, msg)
  | r => r

/-- `create_message`: an error, or a new response with the size limit it gets. -/
def createMessage (limits : ℕ → Except AppendErrno ℕ) (k : ℕ) : Except AppendErrno HttpResponse :=
  match limits k with
  | .error e => .error e
  | .ok limit => .ok ⟨httpParserInit true, 0, limit⟩

def ParsedAlone (t : Bytes) (alone : HttpParser) : Prop :=
  httpParserAppendMessage t (httpParserInit true) = (.done, t.length, alone)

abbrev startState : ParseState := (httpParserInit true).toParseState

def Ends (t : Bytes) (q : ParseState) : Prop :=
  parseMessage t startState = (.done, q) ∧ endOffset q = t.length

theorem ParsedAlone.ends {t : Bytes} {alone : HttpParser} (h : ParsedAlone t alone) :
    ∃ q, Ends t q ∧ alone.toParseState = { q with complete := true } ∧
      alone.msgbuf.take alone.msgsize = t := by
  have mid := httpParserInit_midway true
  have hcall := append_eq t _ mid.incomplete mid.buffered
  change _ = settled _ t _ (parseMessage t startState) at hcall
  rw [h] at hcall
  rcases hparse : parseMessage t startState with ⟨_ | _ | _, q⟩
  · rw [hparse] at hcall
    cases hcall
  · rw [hparse] at hcall
    cases hcall
  · rw [hparse] at hcall
    have hle := (parseMessage_exact rfl hparse).1
    obtain ⟨-, hn, rfl⟩ : _ ∧ t.length = t.length - (t.length - endOffset q) ∧ alone = _ := by
      simpa only [settled, Prod.mk.injEq] using hcall
    have hend : endOffset q = t.length := by omega
    refine ⟨q, ⟨hparse, hend⟩, rfl, ?_⟩
    change t.take (endOffset q) = t
    rw [hend, take_length]

theorem Ends.before {a b : Bytes} {q : ParseState} (h : Ends (a ++ b) q) (hb : b ≠ []) :
    ∃ q', parseMessage a startState = (.again, q') := by
  have hpos := length_pos_iff.mpr hb
  rcases hparse : parseMessage a startState with ⟨_ | _ | _, q'⟩
  · exact ⟨q', rfl⟩
  · have hall := parseMessage_resumable.settle b hparse (by decide)
    rw [h.1] at hall
    cases hall
  · have hall := parseMessage_resumable.settle b hparse (by decide)
    have hle := (parseMessage_exact rfl hparse).1
    rw [h.1] at hall
    cases hall
    have hend := h.2
    rw [length_append] at hend
    omega

variable {msg : HttpResponse} {buf : Bytes} {q : ParseState}

def reached (q : ParseState) (buf : Bytes) (parser : HttpParser) : HttpParser :=
  ⟨q, parser.msgbuf ++ buf, (parser.msgbuf ++ buf).length,
    growBuffer (parser.msgsize + buf.length + 1) parser.bufsize⟩

theorem responseAppend_again (mid : Midway startState msg.parser)
    (h : parseMessage (msg.parser.msgbuf ++ buf) startState = (.again, q)) :
    responseAppend buf msg =
      (if msg.sizeLimit < msg.curSize + buf.length then .error .EMSGSIZE else .again, buf.length,
        ⟨reached q buf msg.parser, msg.curSize + buf.length, msg.sizeLimit⟩) := by
  have hcall := append_eq buf msg.parser mid.incomplete mid.buffered
  rw [mid.resumes buf, h] at hcall
  by_cases hsize : msg.sizeLimit < msg.curSize + buf.length
  · simp [responseAppend, messageAppend, hcall, settled, reached, hsize]
  · simp [responseAppend, messageAppend, hcall, settled, reached, hsize]

theorem responseAppend_bad (mid : Midway startState msg.parser)
    (h : parseMessage (msg.parser.msgbuf ++ buf) startState = (.bad, q)) :
    responseAppend buf msg =
      (.error .EBADMSG, buf.length, { msg with parser := reached q buf msg.parser }) := by
  have hcall := append_eq buf msg.parser mid.incomplete mid.buffered
  rw [mid.resumes buf, h] at hcall
  simp [responseAppend, messageAppend, hcall, settled, reached]

def finished (q : ParseState) (buf : Bytes) (parser : HttpParser) : HttpParser :=
  ⟨{ q with complete := true }, parser.msgbuf ++ buf, endOffset q,
    growBuffer (parser.msgsize + buf.length + 1) parser.bufsize⟩

theorem responseAppend_done (mid : Midway startState msg.parser)
    (h : parseMessage (msg.parser.msgbuf ++ buf) startState = (.done, q)) {n : ℕ}
    (hn : msg.parser.msgbuf.length + n = endOffset q) :
    responseAppend buf msg =
      if msg.sizeLimit < msg.curSize + n then
        (.error .EMSGSIZE, n, ⟨finished q buf msg.parser, msg.curSize + n, msg.sizeLimit⟩)
      else if isContinue q then (.again, n, ⟨httpParserInit true, msg.curSize + n, msg.sizeLimit⟩)
      else (.done, n, ⟨finished q buf msg.parser, msg.curSize + n, msg.sizeLimit⟩) := by
  have hcall := append_eq buf msg.parser mid.incomplete mid.buffered
  rw [mid.resumes buf, h] at hcall
  have hle := (parseMessage_exact rfl h).1
  have htaken : buf.length - ((msg.parser.msgbuf ++ buf).length - endOffset q) = n := by
    rw [length_append] at hle ⊢
    omega
  rw [settled, htaken] at hcall
  by_cases hsize : msg.sizeLimit < msg.curSize + n
  · simp [responseAppend, messageAppend, hcall, finished, hsize]
  · have hcode : isContinue { q with complete := true } = isContinue q := rfl
    simp [responseAppend, messageAppend, hcall, finished, hsize, hcode]

theorem Midway.reached (mid : Midway startState msg.parser)
    (h : parseMessage (msg.parser.msgbuf ++ buf) startState = (.again, q)) :
    Midway startState (reached q buf msg.parser) := mid.next buf _ h

theorem response_progress (limits : ℕ → Except AppendErrno ℕ) :
    Progress (createMessage limits) responseAppend fun msg => Midway startState msg.parser where
  create := by
    intro k msg h
    unfold createMessage at h
    split at h
    · cases h
    · cases h
      exact httpParserInit_midway true
  takes := by
    intro buf msg ret n msg' mid hbuf h
    rcases hparse : parseMessage (msg.parser.msgbuf ++ buf) startState with ⟨_ | _ | _, q⟩
    · rw [responseAppend_again mid hparse] at h
      cases h
      exact .inr (length_pos_iff.mpr hbuf)
    · rw [responseAppend_bad mid hparse] at h
      cases h
      exact .inl ⟨_, rfl⟩
    · have hbefore := mid.before rfl hparse
      obtain ⟨k, hk⟩ := Nat.exists_eq_add_of_lt hbefore
      rw [responseAppend_done mid hparse (n := k + 1) (by omega)] at h
      split_ifs at h
      · cases h
        exact .inl ⟨_, rfl⟩
      · cases h
        exact .inr (Nat.succ_pos k)
      · cases h
        exact .inr (Nat.succ_pos k)
  again := by
    intro buf msg n msg' mid h
    rcases hparse : parseMessage (msg.parser.msgbuf ++ buf) startState with ⟨_ | _ | _, q⟩
    · rw [responseAppend_again mid hparse, Prod.mk.injEq, Prod.mk.injEq] at h
      obtain ⟨-, -, rfl⟩ := h
      exact mid.reached hparse
    · rw [responseAppend_bad mid hparse] at h
      cases h
    · have hbefore := mid.before rfl hparse
      rw [responseAppend_done mid hparse (Nat.add_sub_of_le hbefore.le)] at h
      split_ifs at h
      · cases h
      · cases h
        exact httpParserInit_midway true
      · cases h

/-- The response `t`, and those behind it: interim ones, and `r` at the end. -/
inductive Pending (r : Bytes) : Bytes → List Bytes → Prop where
  | final : Pending r r []
  | interim {t u : Bytes} {ts : List Bytes} {q : ParseState} (ends : Ends t q)
      (code : isContinue q = true) (rest : Pending r u ts) : Pending r t (u :: ts)

theorem Pending.ne_nil {r t : Bytes} {ts : List Bytes} {q : ParseState} (hr : Ends r q)
    (h : Pending r t ts) : t ≠ [] := by
  have hempty : ∀ q, ¬Ends [] q := by
    intro q hq
    have hwait := (httpParserInit_midway true).waiting
    change (parseMessage [] startState).1 = _ at hwait
    rw [hq.1] at hwait
    cases hwait
  rintro rfl
  cases h with
  | final => exact hempty _ hr
  | interim ends _ _ => exact hempty _ ends

variable {limits : ℕ → Except AppendErrno ℕ} {r b : Bytes} {ts : List Bytes} {total : ℕ}
  {node : ReadNode HttpResponse}

/-- The message of the node has read the beginning of a response; `b` is missing of it, `ts` are the
    responses behind it, and all end at `total`. -/
structure Reading (limits : ℕ → Except AppendErrno ℕ) (r : Bytes) (total : ℕ)
    (node : ReadNode HttpResponse) (msg : HttpResponse) (b : Bytes) (ts : List Bytes) : Prop where
  message : current (createMessage limits) node = .ok msg
  midway : Midway startState msg.parser
  pending : Pending r (msg.parser.msgbuf ++ b) ts
  unread : b ≠ []
  size : msg.curSize = node.consumed
  limit : total ≤ msg.sizeLimit
  total : node.consumed + (b ++ ts.flatten).length = total
  quiet : node.delivered = []

/-- The first message that was reported is the one that `alone` is for, and `total` bytes were
    consumed then. -/
def Reported (alone : HttpParser) (total : ℕ) (node : ReadNode HttpResponse) : Prop :=
  ∃ msg rest, node.delivered = (total, msg) :: rest ∧
    msg.parser.toParseState = alone.toParseState ∧
    httpParserGetBody msg.parser = httpParserGetBody alone

theorem Reported.mono {alone : HttpParser} {node' : ReadNode HttpResponse}
    (h : Reported alone total node) (hlog : node.delivered <+: node'.delivered) :
    Reported alone total node' := by
  obtain ⟨msg, rest, hfirst, hsame⟩ := h
  obtain ⟨more, hmore⟩ := hlog
  refine ⟨msg, rest ++ more, ?_, hsame⟩
  rw [← hmore, hfirst]
  rfl

theorem appendMessage_again {node : ReadNode HttpResponse} {msg msg' : HttpResponse} {n : ℕ}
    (hmsg : current (createMessage limits) node = .ok msg)
    (h : responseAppend buf msg = (.again, n, msg')) :
    appendMessage (createMessage limits) responseAppend buf node =
      (.again, n, ⟨some msg', node.consumed + n, node.delivered⟩) := by
  simp only [appendMessage, hmsg, h]

theorem appendMessage_done {node : ReadNode HttpResponse} {msg msg' : HttpResponse} {n : ℕ}
    (hmsg : current (createMessage limits) node = .ok msg)
    (h : responseAppend buf msg = (.done, n, msg')) :
    appendMessage (createMessage limits) responseAppend buf node =
      (.done, n, ⟨none, node.consumed + n, node.delivered ++ [(node.consumed + n, msg')]⟩) := by
  simp only [appendMessage, hmsg, h]

theorem Reading.ends {q : ParseState} (hr : Ends r q)
    (h : Reading limits r total node msg b ts) :
    ∃ q', Ends (msg.parser.msgbuf ++ b) q' := by
  have hpending := h.pending
  generalize msg.parser.msgbuf ++ b = t at hpending ⊢
  cases hpending with
  | final => exact ⟨q, hr⟩
  | interim ends _ _ => exact ⟨_, ends⟩

theorem Reading.appendPart {b' : Bytes} {q : ParseState} (hr : Ends r q)
    (h : Reading limits r total node msg (buf ++ b') ts) (hb' : b' ≠ []) :
    ∃ msg' node', appendMessage (createMessage limits) responseAppend buf node =
        (.again, buf.length, node') ∧ Reading limits r total node' msg' b' ts := by
  obtain ⟨q₁, hends⟩ := h.ends hr
  rw [← append_assoc] at hends
  obtain ⟨q', hparse⟩ := hends.before hb'
  have htotal := h.total
  rw [append_assoc, length_append] at htotal
  have hfits : ¬msg.sizeLimit < msg.curSize + buf.length := by
    have := h.limit
    have := h.size
    omega
  have hcall := responseAppend_again h.midway hparse
  rw [if_neg hfits] at hcall
  refine ⟨_, _, appendMessage_again h.message hcall, rfl, h.midway.reached hparse, ?_, hb', ?_,
    h.limit, ?_, h.quiet⟩
  · change Pending r (msg.parser.msgbuf ++ buf ++ b') ts
    rw [append_assoc]
    exact h.pending
  · change msg.curSize + buf.length = node.consumed + buf.length
    rw [h.size]
  · change node.consumed + buf.length + _ = total
    omega

theorem Reading.appendInterim {u d : Bytes} {q : ParseState} (hr : Ends r q)
    (h : Reading limits r total node msg b (u :: ts)) :
    ∃ msg' node', appendMessage (createMessage limits) responseAppend (b ++ d) node =
        (.again, b.length, node') ∧ Reading limits r total node' msg' u ts := by
  have hpending := h.pending
  generalize htext : msg.parser.msgbuf ++ b = t at hpending
  cases hpending with
  | interim ends code rest =>
    rename_i q₁
    subst htext
    have hparse := parseMessage_resumable.settle d ends.1 (by decide)
    rw [append_assoc] at hparse
    have htotal := h.total
    rw [length_append] at htotal
    have hfits : ¬msg.sizeLimit < msg.curSize + b.length := by
      have := h.limit
      have := h.size
      omega
    have hn : msg.parser.msgbuf.length + b.length = endOffset q₁ := by
      rw [ends.2, length_append]
    have hcall := responseAppend_done h.midway hparse hn
    rw [if_neg hfits, if_pos code] at hcall
    refine ⟨_, _, appendMessage_again h.message hcall, rfl, httpParserInit_midway true, rest,
      rest.ne_nil hr, ?_, h.limit, ?_, h.quiet⟩
    · change msg.curSize + b.length = node.consumed + b.length
      rw [h.size]
    · change node.consumed + b.length + _ = total
      rw [flatten_cons] at htotal
      omega

theorem Reading.appendFinal {d : Bytes} {alone : HttpParser} (halone : ParsedAlone r alone)
    (hcode : isContinue alone.toParseState = false) (h : Reading limits r total node msg b []) :
    ∃ node', appendMessage (createMessage limits) responseAppend (b ++ d) node =
        (.done, b.length, node') ∧ Reported alone total node' ∧ node'.message = none := by
  obtain ⟨q, hends, hstate, hbody⟩ := halone.ends
  have hpending := h.pending
  generalize htext : msg.parser.msgbuf ++ b = t at hpending
  cases hpending
  have hparse := parseMessage_resumable.settle d hends.1 (by decide)
  rw [← htext, append_assoc] at hparse
  have htotal := h.total
  rw [flatten_nil, append_nil] at htotal
  have hfits : ¬msg.sizeLimit < msg.curSize + b.length := by
    have := h.limit
    have := h.size
    omega
  have hn : msg.parser.msgbuf.length + b.length = endOffset q := by
    rw [hends.2, ← htext, length_append]
  have hcode' : isContinue q = false := by
    rw [hstate] at hcode
    exact hcode
  have hcall := responseAppend_done h.midway hparse hn
  rw [if_neg hfits, hcode', if_neg (by decide)] at hcall
  refine ⟨_, appendMessage_done h.message hcall, ⟨⟨finished q (b ++ d) msg.parser,
    msg.curSize + b.length, msg.sizeLimit⟩, [], ?_, hstate.symm, ?_⟩, rfl⟩
  · change node.delivered ++ [(node.consumed + b.length, _)] = _
    rw [h.quiet, htotal]
    rfl
  · refine httpParserGetBody_congr hstate.symm ?_
    rw [hbody]
    change (msg.parser.msgbuf ++ (b ++ d)).take (endOffset q) = r
    rw [← append_assoc, htext, hends.2, take_left]

theorem Reading.append {more trailing : Bytes} {alone : HttpParser} (halone : ParsedAlone r alone)
    (hcode : isContinue alone.toParseState = false) (h : Reading limits r total node msg b ts)
    (hbuf : buf ≠ []) (hstream : buf ++ more = b ++ ts.flatten ++ trailing) :
    ∃ n node', 0 < n ∧ n ≤ buf.length ∧
      (appendMessage (createMessage limits) responseAppend buf node = (.again, n, node') ∧
          (∃ msg' b' ts', Reading limits r total node' msg' b' ts' ∧
            buf.drop n ++ more = b' ++ ts'.flatten ++ trailing) ∨
        appendMessage (createMessage limits) responseAppend buf node = (.done, n, node') ∧
          Reported alone total node' ∧ node'.message = none) := by
  obtain ⟨q, hr, -⟩ := halone.ends
  have hpos := length_pos_iff.mpr hbuf
  have hpos' := length_pos_iff.mpr h.unread
  rw [append_assoc] at hstream
  rcases append_eq_append_iff.mp hstream with ⟨b', rfl, hmore⟩ | ⟨d, rfl, hmore⟩
  · by_cases hb' : b' = []
    · -- the buffer ends where the response ends
      subst hb'
      rw [append_nil] at h
      rw [nil_append] at hmore
      have hnil := append_nil buf
      cases ts with
      | nil =>
        obtain ⟨node', hcall, hreported⟩ := h.appendFinal (d := []) halone hcode
        rw [hnil] at hcall
        exact ⟨_, node', hpos, le_rfl, .inr ⟨hcall, hreported⟩⟩
      | cons u ts =>
        obtain ⟨msg', node', hcall, hreading⟩ := h.appendInterim (d := []) hr
        rw [hnil] at hcall
        refine ⟨_, node', hpos, le_rfl, .inl ⟨hcall, msg', u, ts, hreading, ?_⟩⟩
        rw [drop_length, nil_append, hmore]
        rfl
    · obtain ⟨msg', node', hcall, hreading⟩ := h.appendPart hr hb'
      refine ⟨_, node', hpos, le_rfl, .inl ⟨hcall, msg', b', ts, hreading, ?_⟩⟩
      rw [drop_length, nil_append, hmore, append_assoc]
  · have hle : b.length ≤ (b ++ d).length := by
      rw [length_append]
      omega
    cases ts with
    | nil =>
      obtain ⟨node', hcall, hreported⟩ := h.appendFinal (d := d) halone hcode
      exact ⟨_, node', hpos', hle, .inr ⟨hcall, hreported⟩⟩
    | cons u ts =>
      obtain ⟨msg', node', hcall, hreading⟩ := h.appendInterim (d := d) hr
      refine ⟨_, node', hpos', hle, .inl ⟨hcall, msg', u, ts, hreading, ?_⟩⟩
      rw [drop_left, ← hmore]
      rfl

abbrev Waiting (node : ReadNode HttpResponse) : Prop :=
  PollerRead.Fed (fun msg => Midway startState msg.parser) node

theorem Reading.drain {more trailing : Bytes} {alone : HttpParser} {rounds : ℕ}
    (halone : ParsedAlone r alone) (hcode : isContinue alone.toParseState = false)
    (h : Reading limits r total node msg b ts) (hbuf : buf ≠ []) (hrounds : buf.length ≤ rounds)
    (hstream : buf ++ more = b ++ ts.flatten ++ trailing) :
    ∃ result node', drain (createMessage limits) responseAppend rounds buf node =
        some (result, node') ∧
      (result = .ok () ∧ (∃ msg' b' ts', Reading limits r total node' msg' b' ts' ∧
          more = b' ++ ts'.flatten ++ trailing) ∨
        Reported alone total node' ∧ (result = .ok () → Waiting node')) := by
  induction rounds generalizing buf node msg b ts with
  | zero =>
    have hpos := length_pos_iff.mpr hbuf
    omega
  | succ rounds ih =>
    obtain ⟨n, node₁, hn, hle, hcall⟩ := h.append halone hcode hbuf hstream
    by_cases hlt : n < buf.length
    · have hrest : buf.drop n ≠ [] := by
        rw [ne_eq, drop_eq_nil_iff]
        omega
      have hrounds' : (buf.drop n).length ≤ rounds := by
        rw [length_drop]
        omega
      obtain ⟨hcall, msg', b', ts', hreading, hmore⟩ | ⟨hcall, hreported, hnone⟩ := hcall
      · obtain ⟨result, node', hdrain, hresult⟩ := ih hreading hrest hrounds' hmore
        refine ⟨result, node', ?_, hresult⟩
        simp only [PollerRead.drain, hcall]
        rw [if_pos hlt]
        exact hdrain
      · -- what is behind the last response goes to other messages
        have hwaiting : Waiting node₁ := by
          intro msg hmsg
          rw [hnone] at hmsg
          cases hmsg
        obtain ⟨result, node', hdrain, hfed⟩ :=
          hwaiting.drain (response_progress limits) hrest hrounds'
        refine ⟨result, node', ?_, .inr ⟨hreported.mono (drain_delivered hdrain), hfed⟩⟩
        simp only [PollerRead.drain, hcall]
        rw [if_pos hlt]
        exact hdrain
    · have hall : buf.drop n = [] := by
        rw [drop_eq_nil_iff]
        omega
      obtain ⟨hcall, msg', b', ts', hreading, hmore⟩ | ⟨hcall, hreported, hnone⟩ := hcall
      · refine ⟨.ok (), node₁, ?_, .inl ⟨rfl, msg', b', ts', hreading, ?_⟩⟩
        · simp only [PollerRead.drain, hcall]
          rw [if_neg hlt]
        · rwa [hall, nil_append] at hmore
      · refine ⟨.ok (), node₁, ?_, .inr ⟨hreported, fun _ msg hmsg => ?_⟩⟩
        · simp only [PollerRead.drain, hcall]
          rw [if_neg hlt]
        · rw [hnone] at hmsg
          cases hmsg

theorem Reading.handleRead {trailing : Bytes} {alone : HttpParser}
    {reads : List (ReadResult AppendErrno)} (halone : ParsedAlone r alone)
    (hcode : isContinue alone.toParseState = false) (h : Reading limits r total node msg b ts)
    (hopen : Open reads) (hstream : received reads = b ++ ts.flatten ++ trailing) :
    ∃ result node', handleRead (createMessage limits) responseAppend reads node =
      some (result, node') ∧ Reported alone total node' := by
  induction reads generalizing node msg b ts with
  | nil =>
    have hempty := congrArg List.length hstream
    have hpos := length_pos_iff.mpr h.unread
    rw [length_append, length_append] at hempty
    change 0 = _ at hempty
    omega
  | cons read reads ih =>
    cases read with
    | eagain => exact ih h hopen hstream
    | error e => exact hopen.elim
    | data buf =>
      obtain ⟨hbuf, hopen'⟩ := hopen
      obtain ⟨result, node₁, hdrain, hresult⟩ := h.drain halone hcode hbuf le_rfl hstream
      rw [PollerRead.handleRead, if_neg hbuf, hdrain]
      obtain ⟨rfl, msg', b', ts', hreading, hmore⟩ | ⟨hreported, hfed⟩ := hresult
      · exact ih hreading hopen' hmore
      · cases result with
        | error e => exact ⟨_, node₁, rfl, hreported⟩
        | ok u =>
          obtain ⟨result', node', hrest⟩ := (hfed rfl).handleRead (response_progress limits)
          exact ⟨result', node', hrest, hreported.mono (handleRead_delivered hrest)⟩

theorem pending_of_interim (r : Bytes) {interim : List Bytes}
    (h : ∀ t ∈ interim, ∃ alone, ParsedAlone t alone ∧ isContinue alone.toParseState = true) :
    ∃ t ts, Pending r t ts ∧ t ++ ts.flatten = interim.flatten ++ r := by
  induction interim with
  | nil => exact ⟨r, [], .final, by simp⟩
  | cons t interim ih =>
    obtain ⟨⟨alone, halone, hcode⟩, hrest⟩ := forall_mem_cons.mp h
    obtain ⟨u, ts, hpending, hflat⟩ := ih hrest
    obtain ⟨q', hends, hstate, -⟩ := halone.ends
    rw [hstate] at hcode
    refine ⟨t, u :: ts, .interim hends hcode hpending, ?_⟩
    rw [flatten_cons, hflat, flatten_cons, append_assoc]

/-- However the stream is cut, the first message that is reported is the last response, and the
    bytes up to its end were consumed. -/
theorem interim_responses_transparent {limits : ℕ → Except AppendErrno ℕ} {limit : ℕ}
    {interim : List Bytes} {r trailing : Bytes} {alone : HttpParser}
    {reads : List (ReadResult AppendErrno)} (hlimit : limits 0 = .ok limit)
    (hinterim : ∀ t ∈ interim, ∃ p, ParsedAlone t p ∧ isContinue p.toParseState = true)
    (halone : ParsedAlone r alone) (hcode : isContinue alone.toParseState = false)
    (hsize : (interim.flatten ++ r).length ≤ limit) (hopen : Open reads)
    (hstream : received reads = interim.flatten ++ r ++ trailing) :
    ∃ result node msg rest,
      handleRead (createMessage limits) responseAppend reads .start = some (result, node) ∧
      node.delivered = ((interim.flatten ++ r).length, msg) :: rest ∧
      msg.parser.code = alone.code ∧ msg.parser.phrase = alone.phrase ∧
      msg.parser.headerList = alone.headerList ∧
      httpParserGetBody msg.parser = httpParserGetBody alone := by
  obtain ⟨q, hr, -⟩ := halone.ends
  obtain ⟨t, ts, hpending, hflat⟩ := pending_of_interim r hinterim
  have hreading : Reading limits r (interim.flatten ++ r).length .start
      ⟨httpParserInit true, 0, limit⟩ t ts := by
    refine ⟨?_, httpParserInit_midway true, hpending, hpending.ne_nil hr, rfl, hsize, ?_, rfl⟩
    · change createMessage limits 0 = _
      rw [createMessage, hlimit]
    · change 0 + _ = _
      rw [hflat, Nat.zero_add]
  rw [← hflat] at hstream
  obtain ⟨result, node, hrun, msg, rest, hfirst, hstate, hbody⟩ :=
    hreading.handleRead halone hcode hopen hstream
  have hfields : ∀ f : ParseState → Option Bytes,
      f msg.parser.toParseState = f alone.toParseState := fun f => congrArg f hstate
  exact ⟨result, node, msg, rest, hrun, hfirst, hfields ParseState.code, hfields ParseState.phrase,
    congrArg ParseState.headerList hstate, hbody⟩

def continueText : Bytes := bytes "HTTP/1.1 100 Continue\r\n\r\n"

def okText : Bytes := bytes "HTTP/1.1 200 OK\r\nContent-Length: 2\r\n\r\nok"

def interimReads : List (ReadResult AppendErrno) :=
  [.data (continueText ++ continueText.take 7), .eagain,
    .data (continueText.drop 7 ++ okText ++ bytes "H")]

def allow100 (_ : ℕ) : Except AppendErrno ℕ := .ok 100

def parsedAlone (t : Bytes) : Verdict × ℕ × HttpParser :=
  httpParserAppendMessage t (httpParserInit true)

theorem parsedAlone_spec {t : Bytes} (hdone : (parsedAlone t).1 = .done)
    (hall : (parsedAlone t).2.1 = t.length) : ParsedAlone t (parsedAlone t).2.2 :=
  Prod.ext hdone (Prod.ext hall rfl)

theorem interimReads_received :
    received interimReads = [continueText, continueText].flatten ++ okText ++ bytes "H" := by
  decide +kernel

theorem interimReads_reported :
    ∃ result node msg rest,
      handleRead (createMessage allow100) responseAppend interimReads .start =
        some (result, node) ∧
      node.delivered = (([continueText, continueText].flatten ++ okText).length, msg) :: rest ∧
      msg.parser.code = some (bytes "200") ∧ httpParserGetBody msg.parser = some (bytes "ok") := by
  have hcontinue : ParsedAlone continueText (parsedAlone continueText).2.2 :=
    parsedAlone_spec (by decide +kernel) (by decide +kernel)
  have hok : ParsedAlone okText (parsedAlone okText).2.2 :=
    parsedAlone_spec (by decide +kernel) (by decide +kernel)
  have hinterim : ∀ t ∈ [continueText, continueText],
      ∃ p, ParsedAlone t p ∧ isContinue p.toParseState = true := by
    intro t ht
    obtain rfl : t = continueText := by simpa using ht
    exact ⟨_, hcontinue, by decide +kernel⟩
  have hopen : Open interimReads := by
    refine ⟨?_, ?_, trivial⟩
    · decide
    · decide
  have hlimit : allow100 0 = .ok 100 := rfl
  obtain ⟨result, node, msg, rest, hrun, hfirst, hcode, -, -, hbody⟩ :=
    interim_responses_transparent hlimit hinterim hok (by decide +kernel) (by decide +kernel) hopen
      interimReads_received
  exact ⟨result, node, msg, rest, hrun, hfirst, hcode.trans (by decide +kernel),
    hbody.trans (by decide +kernel)⟩

end MyWorkflow.Http
