import Mathlib.Data.List.Perm.Basic
import MyWorkflow.HttpHeaderStore
import MyWorkflow.HttpParserCuts

set_option autoImplicit false

namespace MyWorkflow.Http
open List CString Incremental Runs

def flags : List (Bytes × (ParseState → Bool)) :=
  [(bytes "Content-Length", ParseState.hasContentLength),
    (bytes "Connection", ParseState.hasConnection),
    (bytes "Keep-Alive", ParseState.hasKeepAlive)]

def Has (name : Bytes) (lines : List HeaderLine) : Prop :=
  ∃ line ∈ lines, lower line.name = lower name

instance (name : Bytes) (lines : List HeaderLine) : Decidable (Has name lines) :=
  inferInstanceAs (Decidable (∃ line ∈ lines, _))

def FlagsAgree (p : ParseState) : Prop := ∀ f ∈ flags, (f.2 p = true ↔ Has f.1 p.headerList)

structure HeaderParser where
  parser : HttpParser
  cursors : ℕ → Option ℕ

def HeaderParser.init (isResp : Bool) : HeaderParser := ⟨httpParserInit isResp, fun _ => none⟩

inductive ParserOp where
  | append (buf : Bytes)
  | add (name value : Bytes)
  | set (name value : Bytes)
  | cursor (op : CursorOp)
deriving DecidableEq, Repr

def HeaderParser.withState (s : HeaderParser) (p : ParseState) : HeaderParser :=
  { s with parser := { s.parser with toParseState := p } }

/-- The calls on a parser and its cursors; `none` is the use of a cursor without a place. -/
def HeaderParser.step (s : HeaderParser) : ParserOp → Option HeaderParser
  | .append buf => some { s with parser := (httpParserAppendMessage buf s.parser).2.2 }
  | .add name value => some (s.withState (httpParserAddHeader name value s.parser.toParseState))
  | .set name value => some (s.withState (httpParserSetHeader name value s.parser.toParseState))
  | .cursor op => (cursorStep HeaderLine.same s.parser.headerList s.cursors op).map fun r =>
      { s.withState { s.parser.toParseState with headerList := r.1 } with cursors := r.2 }

def HeaderParser.erases (s : HeaderParser) (c : ℕ) : Option ℕ :=
  match s.cursors c with
  | some (k + 1) => some k
  | _ => none

/-- An erase does not take the last line of a name that has a flag. -/
def KeepsLast (s : HeaderParser) : ParserOp → Prop
  | .cursor (.erase c) => ∀ k ∈ s.erases c, ∀ line ∈ s.parser.headerList[k]?, ∀ f ∈ flags,
      lower line.name = lower f.1 → Has f.1 (s.parser.headerList.eraseIdx k)
  | _ => True

instance (s : HeaderParser) (op : ParserOp) : Decidable (KeepsLast s op) := by
  match op with
  | .cursor (.erase c) => exact inferInstanceAs (Decidable (∀ k ∈ s.erases c, _))
  | .append _ => exact inferInstanceAs (Decidable True)
  | .add _ _ => exact inferInstanceAs (Decidable True)
  | .set _ _ => exact inferInstanceAs (Decidable True)
  | .cursor (.rewind _) => exact inferInstanceAs (Decidable True)
  | .cursor (.next _) => exact inferInstanceAs (Decidable True)
  | .cursor (.find _ _) => exact inferInstanceAs (Decidable True)

/-! ## Adding and setting -/

theorem literal_iff {name lit : Bytes} (h0 : 0 ∉ lit) (hl : name.length = lit.length) :
    strncaseeq lit.length name lit = true ↔ lower name = lower lit := by
  have h := strncaseeq_iff [] (.inr h0) hl
  rwa [append_nil] at h

theorem checkMessageHeader_flag {f : Bytes × (ParseState → Bool)} (hf : f ∈ flags)
    (name value : Bytes) (p : ParseState) :
    f.2 (checkMessageHeader name value p) = true ↔ f.2 p = true ∨ lower name = lower f.1 := by
  have hlength : name.length = 14 → (strncaseeq 14 name (bytes "Content-Length") = true ↔
      lower name = lower (bytes "Content-Length")) :=
    literal_iff (show 0 ∉ bytes "Content-Length" by decide)
  have hconn : name.length = 10 → (strncaseeq 10 name (bytes "Connection") = true ↔
      lower name = lower (bytes "Connection")) :=
    literal_iff (show 0 ∉ bytes "Connection" by decide)
  have halive : name.length = 10 → (strncaseeq 10 name (bytes "Keep-Alive") = true ↔
      lower name = lower (bytes "Keep-Alive")) :=
    literal_iff (show 0 ∉ bytes "Keep-Alive" by decide)
  have hdiff : lower (bytes "Connection") ≠ lower (bytes "Keep-Alive") := by decide
  have h14 : lower name = lower (bytes "Content-Length") → name.length = 14 := lower_length
  have h10 : lower name = lower (bytes "Connection") → name.length = 10 := lower_length
  have h10' : lower name = lower (bytes "Keep-Alive") → name.length = 10 := lower_length
  simp only [flags, mem_cons, not_mem_nil, or_false] at hf
  obtain rfl | rfl | rfl := hf
  all_goals
    unfold checkMessageHeader
    split
    all_goals first | (split_ifs <;> simp_all) | simp_all

theorem has_cons (name : Bytes) (line : HeaderLine) (lines : List HeaderLine) :
    Has name (line :: lines) ↔ lower line.name = lower name ∨ Has name lines := by
  simp [Has]

theorem has_append (name : Bytes) (lines : List HeaderLine) (line : HeaderLine) :
    Has name (lines ++ [line]) ↔ Has name lines ∨ lower line.name = lower name := by
  simp [Has, or_and_right, exists_or]

theorem has_setLines (name value lit : Bytes) (lines : List HeaderLine) (h0 : 0 ∉ lit) :
    Has lit (setLines name value lines) ↔ Has lit lines ∨ lower name = lower lit := by
  induction lines with
  | nil => simp [Has, setLines, setInList]
  | cons line lines ih =>
    rw [setLines_cons]
    by_cases hs : line.same name = true
    · have hiff : lower line.name = lower lit ↔ lower name = lower lit := by
        constructor
        · intro h
          rw [← (line.same_iff (.inl (zero_notMem_of_lower h h0))).mp hs, h]
        · intro h
          rw [(line.same_iff (.inr (zero_notMem_of_lower h h0))).mp hs, h]
      have hstore : lower (line.store name value).name = lower lit ↔ lower name = lower lit := by
        rw [line.store_name]
        split_ifs
        · rfl
        · exact hiff
      rw [if_pos hs, has_cons, has_cons, hstore, hiff]
      tauto
    · rw [if_neg hs, has_cons, has_cons, ih, or_assoc]

theorem flags_notMem {f : Bytes × (ParseState → Bool)} (hf : f ∈ flags) : 0 ∉ f.1 := by
  simp only [flags, mem_cons, not_mem_nil, or_false] at hf
  obtain rfl | rfl | rfl := hf <;> decide

def SameHeaders (p q : ParseState) : Prop :=
  q.headerList = p.headerList ∧ ∀ f ∈ flags, f.2 q = f.2 p

theorem sameHeaders_of {p q : ParseState} (hl : q.headerList = p.headerList)
    (hlength : q.hasContentLength = p.hasContentLength) (hconn : q.hasConnection = p.hasConnection)
    (halive : q.hasKeepAlive = p.hasKeepAlive) : SameHeaders p q := by
  refine ⟨hl, fun f hf => ?_⟩
  simp only [flags, mem_cons, not_mem_nil, or_false] at hf
  obtain rfl | rfl | rfl := hf
  · exact hlength
  · exact hconn
  · exact halive

theorem flagsAgree_congr {p q : ParseState} (h : SameHeaders p q) : FlagsAgree q ↔ FlagsAgree p := by
  unfold FlagsAgree
  rw [h.1]
  exact forall₂_congr fun f hf => by rw [h.2 f hf]

theorem flag_withLines {f : Bytes × (ParseState → Bool)} (hf : f ∈ flags) (p : ParseState)
    (lines : List HeaderLine) : f.2 { p with headerList := lines } = f.2 p := by
  simp only [flags, mem_cons, not_mem_nil, or_false] at hf
  obtain rfl | rfl | rfl := hf <;> rfl

theorem flagsAgree_check {p : ParseState} {lines : List HeaderLine} {name : Bytes}
    (h : FlagsAgree p) (value : Bytes)
    (hl : ∀ lit, 0 ∉ lit → (Has lit lines ↔ Has lit p.headerList ∨ lower name = lower lit)) :
    FlagsAgree (checkMessageHeader name value { p with headerList := lines }) := by
  intro f hf
  rw [checkMessageHeader_flag hf, checkMessageHeader_list, flag_withLines hf, h f hf,
    hl f.1 (flags_notMem hf)]

theorem flagsAgree_add {p : ParseState} (h : FlagsAgree p) (name value : Bytes) :
    FlagsAgree (httpParserAddHeader name value p) := by
  apply flagsAgree_check h value
  intro lit _
  rw [has_append, HeaderLine.make_name]

theorem flagsAgree_set {p : ParseState} (h : FlagsAgree p) (name value : Bytes) :
    FlagsAgree (httpParserSetHeader name value p) := by
  rw [httpParserSetHeader, setMessageHeader_eq]
  apply flagsAgree_check h value
  intro lit h0
  exact has_setLines name value lit p.headerList h0

/-! ## Parsing -/

theorem SameHeader.headers {p q : ParseState} (h : SameHeader p q) : SameHeaders p q := by
  rw [← h]
  exact sameHeaders_of rfl rfl rfl rfl

theorem matchStartLine_headers (p1 p2 p3 : Bytes) (p : ParseState) (offset : ℕ)
    (state : HeaderState) : SameHeaders p { matchStartLine p1 p2 p3 p with
      headerOffset := offset, headerState := state } := by
  unfold matchStartLine matchStatusLine matchRequestLine
  split_ifs <;> exact sameHeaders_of rfl rfl rfl rfl

theorem enterBody_headers (p : ParseState) : SameHeaders p (enterBody p) := by
  unfold enterBody
  split_ifs <;> exact sameHeaders_of rfl rfl rfl rfl

section Append

variable {P : ParseState → Prop}

theorem append_keeps (same : ∀ p q, SameHeaders p q → P p → P q)
    (line : ∀ name value p, P p → P (httpParserAddHeader name value p)) (buf : Bytes)
    {parser : HttpParser} (hb : parser.complete = false → parser.msgbuf.length = parser.msgsize)
    (h : P parser.toParseState) : P (httpParserAppendMessage buf parser).2.2.toParseState := by
  cases hc : parser.complete with
  | true =>
    rw [httpParserAppendMessage, if_pos hc]
    exact h
  | false =>
    rw [append_eq buf parser hc (hb hc)]
    rcases hm : parseMessage (parser.msgbuf ++ buf) parser.toParseState with ⟨v, q⟩
    have hq : P q := by
      refine parseMessage_keeps (headerStep_keeps ?_ ?_ line) ?_ ?_ hm h
      · intro p offset state name hp _
        exact same p _ (sameHeaders_of rfl rfl rfl rfl) hp
      · intro p1 p2 p3 p offset hp _
        exact same p _ (matchStartLine_headers p1 p2 p3 p offset _) hp
      · exact fun p hp => same p _ (enterBody_headers p) hp
      · exact fun p r hr hp => same p r hr.headers hp
    cases v with
    | again | bad => exact hq
    | done => exact same q _ (sameHeaders_of rfl rfl rfl rfl) hq

theorem append_buffered (buf : Bytes) {parser : HttpParser}
    (hb : parser.complete = false → parser.msgbuf.length = parser.msgsize) :
    (httpParserAppendMessage buf parser).2.2.complete = false →
      (httpParserAppendMessage buf parser).2.2.msgbuf.length =
        (httpParserAppendMessage buf parser).2.2.msgsize := by
  cases hc : parser.complete with
  | true =>
    rw [httpParserAppendMessage, if_pos hc]
    exact hb
  | false =>
    rw [append_eq buf parser hc (hb hc)]
    rcases parseMessage (parser.msgbuf ++ buf) parser.toParseState with ⟨_ | _ | _, q⟩
    · exact fun _ => rfl
    · exact fun _ => rfl
    · exact (by rintro ⟨⟩)

end Append

structure Handled (s : HeaderParser) : Prop where
  buffered : s.parser.complete = false → s.parser.msgbuf.length = s.parser.msgsize
  range : InRange s.parser.headerList s.cursors

theorem Handled.append {s : HeaderParser} (hs : Handled s) (buf : Bytes) :
    Handled { s with parser := (httpParserAppendMessage buf s.parser).2.2 } where
  buffered := append_buffered buf hs.buffered
  range := by
    refine hs.range.longer ?_
    refine append_keeps (P := fun p => s.parser.headerList.length ≤ p.headerList.length)
      ?_ ?_ buf hs.buffered le_rfl
    · intro p q h hp
      rwa [h.1]
    · intro name value p hp
      rw [httpParserAddHeader, checkMessageHeader_list, addMessageHeader, length_append]
      omega

theorem Handled.withState {s : HeaderParser} (hs : Handled s) {p : ParseState}
    (hc : p.complete = s.parser.complete)
    (hl : s.parser.headerList.length ≤ p.headerList.length) : Handled (s.withState p) where
  buffered := fun h => hs.buffered (hc ▸ h)
  range := hs.range.longer hl

theorem checkMessageHeader_complete (name value : Bytes) (p : ParseState) :
    (checkMessageHeader name value p).complete = p.complete := by
  unfold checkMessageHeader
  split
  all_goals first | (split_ifs <;> rfl) | rfl

theorem Handled.step {s s' : HeaderParser} {op : ParserOp} (hs : Handled s)
    (h : s.step op = some s') : Handled s' := by
  cases op with
  | append buf =>
    cases h
    exact hs.append buf
  | add name value =>
    cases h
    refine hs.withState (httpParserAddHeader_complete name value _) ?_
    rw [httpParserAddHeader, checkMessageHeader_list, addMessageHeader, length_append]
    omega
  | set name value =>
    cases h
    rw [httpParserSetHeader, setMessageHeader_eq]
    refine hs.withState (checkMessageHeader_complete ..) ?_
    rw [checkMessageHeader_list]
    exact setLines_length name value _
  | cursor op =>
    obtain ⟨⟨lines, cursors⟩, hstep, rfl⟩ := Option.map_eq_some_iff.mp h
    exact ⟨hs.buffered, (cursorStep_lines hstep hs.range).1⟩

theorem has_eraseIdx {lines : List HeaderLine} {k : ℕ} (hk : k < lines.length) (name : Bytes) :
    Has name lines ↔ lower lines[k].name = lower name ∨ Has name (lines.eraseIdx k) := by
  rw [← has_cons]
  have hperm := getElem_cons_eraseIdx_perm hk
  simp only [Has, hperm.mem_iff]

theorem flagsAgree_erase_iff {p : ParseState} {k : ℕ} (h : FlagsAgree p)
    (hk : k < p.headerList.length) :
    FlagsAgree { p with headerList := p.headerList.eraseIdx k } ↔
      ∀ f ∈ flags, lower p.headerList[k].name = lower f.1 → Has f.1 (p.headerList.eraseIdx k) := by
  refine forall₂_congr fun f hf => ?_
  rw [flag_withLines hf, h f hf, has_eraseIdx hk f.1]
  constructor
  · intro hiff hname
    exact hiff.mp (.inl hname)
  · intro hlast
    exact ⟨fun hor => hor.elim hlast id, .inr⟩

theorem flagsAgree_step_iff {s s' : HeaderParser} {op : ParserOp} (hs : Handled s)
    (hf : FlagsAgree s.parser.toParseState) (h : s.step op = some s') :
    FlagsAgree s'.parser.toParseState ↔ KeepsLast s op := by
  cases op with
  | append buf =>
    cases h
    refine iff_of_true ?_ trivial
    exact append_keeps (fun p q hpq => (flagsAgree_congr hpq).mpr)
      (fun name value p hp => flagsAgree_add hp name value) buf hs.buffered hf
  | add name value =>
    cases h
    exact iff_of_true (flagsAgree_add hf name value) trivial
  | set name value =>
    cases h
    exact iff_of_true (flagsAgree_set hf name value) trivial
  | cursor op =>
    obtain ⟨⟨lines, cursors⟩, hstep, rfl⟩ := Option.map_eq_some_iff.mp h
    obtain ⟨-, hlines⟩ := cursorStep_lines hstep hs.range
    cases op with
    | rewind c =>
      obtain rfl | ⟨_, _, hop, _⟩ := hlines
      · exact iff_of_true hf trivial
      · cases hop
    | next c =>
      obtain rfl | ⟨_, _, hop, _⟩ := hlines
      · exact iff_of_true hf trivial
      · cases hop
    | find c name =>
      obtain rfl | ⟨_, _, hop, _⟩ := hlines
      · exact iff_of_true hf trivial
      · cases hop
    | erase c =>
      obtain ⟨k, hk, heq⟩ := Option.map_eq_some_iff.mp hstep
      have hle := hs.range c k hk
      cases k with
      | zero =>
        cases heq
        refine iff_of_true hf ?_
        intro k hmem
        simp [HeaderParser.erases, hk] at hmem
      | succ k =>
        cases heq
        have herases : s.erases c = some k := by simp [HeaderParser.erases, hk]
        have hlt : k < s.parser.headerList.length := hle
        change FlagsAgree { s.parser.toParseState with
          headerList := s.parser.headerList.eraseIdx k } ↔ _
        rw [flagsAgree_erase_iff hf hlt]
        simp [KeepsLast, herases, List.getElem?_eq_getElem hlt]

theorem handled_init (isResp : Bool) : Handled (.init isResp) := ⟨fun _ => rfl, (by rintro _ _ ⟨⟩)⟩

theorem flagsAgree_init (isResp : Bool) :
    FlagsAgree (HeaderParser.init isResp).parser.toParseState := by
  intro f hf
  simp only [flags, mem_cons, not_mem_nil, or_false] at hf
  obtain rfl | rfl | rfl := hf <;> simp [HeaderParser.init, httpParserInit, Has]

/-- The flags agree with the list as long as erases leave a line of each name that has a flag, and
    no longer. -/
theorem flags_agree_iff {isResp : Bool} {s : HeaderParser}
    (hs : Reaches HeaderParser.step KeepsLast (.init isResp) s) :
    FlagsAgree s.parser.toParseState ∧ ∀ op s', s.step op = some s' →
      (FlagsAgree s'.parser.toParseState ↔ KeepsLast s op) := by
  have inv : Handled s ∧ FlagsAgree s.parser.toParseState := by
    refine hs.invariant (P := fun s => Handled s ∧ FlagsAgree s.parser.toParseState)
      ⟨handled_init isResp, flagsAgree_init isResp⟩ ?_
    rintro t op t' ⟨ht, hf⟩ ha h
    exact ⟨ht.step h, (flagsAgree_step_iff ht hf h).mpr ha⟩
  exact ⟨inv.2, fun op s' h => flagsAgree_step_iff inv.1 inv.2 h⟩

def eraseOneRun : List ParserOp :=
  [.add (bytes "Content-Length") (bytes "5"), .add (bytes "content-length") (bytes "5"),
    .cursor (.rewind 0), .cursor (.find 0 (bytes "CONTENT-LENGTH")), .cursor (.erase 0)]

theorem eraseOneRun_kept :
    (guardedRun HeaderParser.step KeepsLast (.init true) eraseOneRun).isSome = true := by
  decide +kernel

theorem eraseOneRun_flags : ∃ s, guardedRun HeaderParser.step KeepsLast (.init true) eraseOneRun =
    some s ∧ FlagsAgree s.parser.toParseState := by
  have hrun := (Option.some_get eraseOneRun_kept).symm
  exact ⟨_, hrun, (flags_agree_iff (reaches_of_guardedRun eraseOneRun .start hrun)).1⟩

def eraseLastRun : List ParserOp :=
  [.add (bytes "Content-Length") (bytes "5"), .cursor (.rewind 0),
    .cursor (.find 0 (bytes "Content-Length")), .cursor (.erase 0)]

theorem not_flagsAgree_of_empty {p : ParseState} (hl : p.headerList.length = 0)
    (hflag : p.hasContentLength = true) : ¬ FlagsAgree p := by
  intro h
  obtain ⟨line, hline, -⟩ := (h (bytes "Content-Length", ParseState.hasContentLength)
    (mem_cons_self ..)).mp hflag
  rw [length_eq_zero_iff.mp hl] at hline
  exact not_mem_nil hline

theorem eraseLastRun_stale :
    (run HeaderParser.step (.init true) eraseLastRun).map (fun s =>
      (s.parser.headerList.length, s.parser.hasContentLength)) = some (0, true) := by
  decide +kernel

theorem eraseLast_flags_disagree : ∃ s,
    run HeaderParser.step (.init true) eraseLastRun = some s ∧ s.parser.headerList.length = 0 ∧
      s.parser.hasContentLength = true ∧ ¬ FlagsAgree s.parser.toParseState := by
  obtain ⟨s, hrun, heq⟩ := Option.map_eq_some_iff.mp eraseLastRun_stale
  obtain ⟨hl, hflag⟩ := Prod.mk.inj heq
  exact ⟨s, hrun, hl, hflag, not_flagsAgree_of_empty hl hflag⟩

end MyWorkflow.Http
