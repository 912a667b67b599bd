import Mathlib.Logic.Function.Basic
import MyWorkflow.HttpParser
import MyWorkflow.Runs

set_option autoImplicit false

/-!
# The header list in memory

Three levels: the buffers as they are written with `memcpy`, the lines of the parser, which have
the right layout by their type, and a list of (name, value) pairs, which is what the store is for.
-/
namespace MyWorkflow.Http
open Function List CString Runs

/-! ## Cursors -/

inductive CursorOp where
  | rewind (c : ℕ)
  | next (c : ℕ)
  | find (c : ℕ) (name : Bytes)
  | erase (c : ℕ)
deriving DecidableEq, Repr

section Cursors

variable {α : Type}

/-- The loop of `http_header_cursor_find` from position `k` on: where it stops, and if it found
    a line. -/
def findFrom (same : α → Bool) : ℕ → List α → ℕ × Bool
  | k, [] => (k, false)
  | k, line :: lines => if same line then (k + 1, true) else findFrom same (k + 1) lines

def unlinked (k j : ℕ) : Option ℕ := if j = k then none else if k < j then some (j - 1) else some j

/-- `cursor->next` is the list head for 0 and the `k`-th line for `k`; a cursor without a place was
    never set up or stands on a freed line. -/
def cursorStep (same : Bytes → α → Bool) (lines : List α) (cursors : ℕ → Option ℕ) :
    CursorOp → Option (List α × (ℕ → Option ℕ))
  | .rewind c => some (lines, update cursors c (some 0))
  | .next c => (cursors c).map fun k =>
      (lines, update cursors c (some (if k < lines.length then k + 1 else k)))
  | .find c name => (cursors c).map fun k =>
      (lines, update cursors c (some (findFrom (same name) k (lines.drop k)).1))
  | .erase c => (cursors c).map fun
      | 0 => (lines, cursors)
      | k + 1 => (lines.eraseIdx k,
          update (fun d => (cursors d).bind (unlinked (k + 1))) c (some k))

end Cursors

/-! ## Buffers -/

structure RawLine where
  buf : Bytes
  nameLen : ℕ
  valueLen : ℕ
deriving DecidableEq, Repr

def RawLine.same (name : Bytes) (line : RawLine) : Bool :=
  line.nameLen == name.length && strncaseeq name.length line.buf name

def RawLine.pair (line : RawLine) : Bytes × Bytes :=
  (line.buf.take line.nameLen, (line.buf.drop (line.nameLen + 2)).take line.valueLen)

def writeName (mem name : Bytes) : Option Bytes := do
  let buf ← memcpy mem 0 name
  let buf ← memcpy buf name.length [COLON]
  memcpy buf (name.length + 1) [SP]

def writeValue (buf : Bytes) (nameLen : ℕ) (value : Bytes) : Option Bytes := do
  let buf ← memcpy buf (nameLen + 2) value
  let buf ← memcpy buf (nameLen + 2 + value.length) [CR]
  memcpy buf (nameLen + 2 + value.length + 1) [LF]

/-- `__add_message_header`; `mem` is what `malloc` returned, the list node apart. -/
def addRaw (mem name value : Bytes) : Option RawLine := do
  let buf ← writeName mem name
  let buf ← writeValue buf name.length value
  return ⟨buf, name.length, value.length⟩

def storeRaw (mem name value : Bytes) (line : RawLine) : Option RawLine := do
  let buf ← if line.valueLen < value.length then writeName mem name else some line.buf
  let buf ← writeValue buf name.length value
  return ⟨buf, line.nameLen, value.length⟩

def setRaw (mem name value : Bytes) : List RawLine → Option (List RawLine)
  | [] => (addRaw mem name value).map ([·])
  | line :: lines =>
    if line.same name then (storeRaw mem name value line).map (· :: lines)
    else (setRaw mem name value lines).map (line :: ·)

def HeaderLine.raw (line : HeaderLine) : RawLine := ⟨line.buf, line.nameLen, line.valueLen⟩

def HeaderLine.pair (line : HeaderLine) : Bytes × Bytes := (line.name, line.value)

def HeaderLine.same (name : Bytes) (line : HeaderLine) : Bool :=
  line.nameLen == name.length && strncaseeq name.length line.buf name

theorem HeaderLine.raw_pair (line : HeaderLine) : line.raw.pair = line.pair := rfl

theorem HeaderLine.raw_same (name : Bytes) (line : HeaderLine) :
    line.raw.same name = line.same name := rfl

theorem HeaderLine.same_iff {name : Bytes} (line : HeaderLine) (h0 : 0 ∉ line.name ∨ 0 ∉ name) :
    line.same name = true ↔ lower line.name = lower name := by
  obtain ⟨slack, hbuf, hlen, -⟩ := line.buf_eq
  have hrest : line.buf = line.name ++ ([COLON, SP] ++ line.value ++ [CR, LF] ++ slack) := by
    simpa using hbuf
  by_cases hl : line.nameLen = name.length
  · rw [HeaderLine.same, hrest, hl, beq_self_eq_true, Bool.true_and]
    exact strncaseeq_iff _ h0 (hlen.trans hl)
  · have hne : lower line.name ≠ lower name := by
      intro heq
      have := lower_length heq
      omega
    simp [HeaderLine.same, hl, hne]

theorem exists_two_cons {l : Bytes} (h : 2 ≤ l.length) : ∃ x y t, l = x :: y :: t := by
  rcases l with _ | ⟨x, _ | ⟨y, t⟩⟩
  · cases h
  · cases Nat.le_of_succ_le_succ h
  · exact ⟨x, y, t, rfl⟩

theorem writeName_eq {mem name : Bytes} {room : ℕ} (hm : mem.length = name.length + 2 + room) :
    ∃ slack, slack.length = room ∧ writeName mem name = some (name ++ [COLON, SP] ++ slack) := by
  obtain ⟨a, b, rfl, ha⟩ : ∃ a b, mem = a ++ b ∧ a.length = name.length :=
    ⟨mem.take name.length, mem.drop name.length, by simp, by simp [hm]; omega⟩
  rw [length_append] at hm
  obtain ⟨x, y, slack, rfl⟩ := exists_two_cons (l := b) (by omega)
  refine ⟨slack, by simp only [length_cons] at hm; omega, ?_⟩
  have h1 : memcpy (a ++ x :: y :: slack) 0 name = some (name ++ x :: y :: slack) := by
    simpa using memcpy_append [] (x :: y :: slack) ha
  have h2 : memcpy (name ++ x :: y :: slack) name.length [COLON] =
      some (name ++ COLON :: y :: slack) := by
    exact memcpy_byte name (y :: slack) x COLON
  have h3 : memcpy (name ++ COLON :: y :: slack) (name.length + 1) [SP] =
      some (name ++ COLON :: SP :: slack) := by
    simpa using memcpy_byte (name ++ [COLON]) slack y SP
  simp [writeName, h1, h2, h3]

theorem writeValue_eq {front mem value : Bytes} {nameLen : ℕ} (hn : front.length = nameLen + 2)
    (hm : value.length + 2 ≤ mem.length) :
    writeValue (front ++ mem) nameLen value =
      some (front ++ value ++ [CR, LF] ++ mem.drop (value.length + 2)) := by
  obtain ⟨a, b, rfl, ha⟩ : ∃ a b, mem = a ++ b ∧ a.length = value.length :=
    ⟨mem.take value.length, mem.drop value.length, by simp, by simp; omega⟩
  rw [length_append] at hm
  obtain ⟨x, y, slack, rfl⟩ := exists_two_cons (l := b) (by omega)
  have hdrop : (a ++ x :: y :: slack).drop (value.length + 2) = slack := by
    rw [← ha, drop_append]
    simp
  have h1 : memcpy (front ++ (a ++ x :: y :: slack)) (nameLen + 2) value =
      some (front ++ value ++ x :: y :: slack) := by
    simpa [hn] using memcpy_append front (x :: y :: slack) ha
  have h2 : memcpy (front ++ value ++ x :: y :: slack) (nameLen + 2 + value.length) [CR] =
      some (front ++ value ++ CR :: y :: slack) := by
    simpa [hn] using memcpy_byte (front ++ value) (y :: slack) x CR
  have h3 : memcpy (front ++ value ++ CR :: y :: slack) (nameLen + 2 + value.length + 1) [LF] =
      some (front ++ value ++ CR :: LF :: slack) := by
    simpa [hn, Nat.add_assoc] using memcpy_byte (front ++ value ++ [CR]) slack y LF
  simp only [writeValue, Option.bind_eq_bind, h1, Option.bind_some, h2, h3, hdrop]
  simp

theorem addRaw_eq {mem name value : Bytes} (hm : mem.length = name.length + value.length + 4) :
    addRaw mem name value = some (HeaderLine.make name value).raw := by
  have hroom : mem.length = name.length + 2 + (value.length + 2) := by omega
  obtain ⟨slack, hslack, hname⟩ := writeName_eq hroom
  have hdrop : slack.drop (value.length + 2) = [] := by
    rw [← hslack, drop_length]
  have hvalue : writeValue (name ++ [COLON, SP] ++ slack) name.length value =
      some (name ++ [COLON, SP] ++ value ++ [CR, LF] ++ slack.drop (value.length + 2)) :=
    writeValue_eq (by simp) (by omega)
  rw [hdrop, append_nil] at hvalue
  simp only [addRaw, Option.bind_eq_bind, hname, Option.bind_some, hvalue]
  rfl

theorem storeRaw_eq {mem name value : Bytes} {line : HeaderLine} (hn : line.nameLen = name.length)
    (hm : mem.length = name.length + value.length + 4) :
    storeRaw mem name value line.raw = some (line.store name value).raw := by
  by_cases hv : line.valueLen < value.length
  · have hadd := addRaw_eq hm
    have hstore : storeRaw mem name value line.raw = addRaw mem name value := by
      simp only [storeRaw, addRaw, HeaderLine.raw, if_pos hv, hn]
    rw [hstore, hadd, HeaderLine.store, if_pos hv]
  · obtain ⟨slack, hbuf, hname, hvalue⟩ := line.buf_eq
    have hfront : line.buf.take (line.nameLen + 2) = line.name ++ [COLON, SP] := by
      rw [hbuf, ← hname]
      simp [take_append, take_of_length_le]
    have hlen : (line.buf.take (line.nameLen + 2)).length = name.length + 2 := by
      rw [hfront, length_append, hname, hn]
      rfl
    have hroom : value.length + 2 ≤ (line.buf.drop (line.nameLen + 2)).length := by
      rw [length_drop, hbuf]
      simp only [length_append, length_cons, length_nil]
      omega
    have hwrite := writeValue_eq hlen hroom
    rw [take_append_drop, drop_drop] at hwrite
    have hadd : line.nameLen + 2 + (value.length + 2) = line.nameLen + 2 + value.length + 2 := by
      omega
    rw [hadd] at hwrite
    simp only [storeRaw, HeaderLine.raw, if_neg hv, Option.bind_eq_bind, Option.bind_some, hwrite,
      HeaderLine.store]
    rfl

def setLines (name value : Bytes) (lines : List HeaderLine) : List HeaderLine :=
  (setInList name value lines).getD (lines ++ [HeaderLine.make name value])

theorem setMessageHeader_eq (name value : Bytes) (p : ParseState) :
    setMessageHeader name value p = { p with headerList := setLines name value p.headerList } := by
  unfold setMessageHeader setLines
  cases setInList name value p.headerList with
  | none | some => rfl

theorem setLines_cons (name value : Bytes) (line : HeaderLine) (lines : List HeaderLine) :
    setLines name value (line :: lines) =
      if line.same name then line.store name value :: lines
      else line :: setLines name value lines := by
  have hset : setInList name value (line :: lines) =
      if line.same name then some (line.store name value :: lines)
      else (setInList name value lines).map (line :: ·) := rfl
  unfold setLines
  rw [hset]
  split_ifs
  · rfl
  · cases setInList name value lines with
    | none | some => rfl

theorem setRaw_eq {mem name value : Bytes} (lines : List HeaderLine)
    (hm : mem.length = name.length + value.length + 4) :
    setRaw mem name value (lines.map HeaderLine.raw) =
      some ((setLines name value lines).map HeaderLine.raw) := by
  induction lines with
  | nil => simp [setRaw, setLines, setInList, addRaw_eq hm]
  | cons line lines ih =>
    rw [map_cons, setRaw, HeaderLine.raw_same, setLines_cons]
    by_cases hs : line.same name = true
    · have hn : line.nameLen = name.length := by
        simp only [HeaderLine.same, Bool.and_eq_true, beq_iff_eq] at hs
        exact hs.1
      rw [if_pos hs, if_pos hs, storeRaw_eq hn hm]
      rfl
    · rw [if_neg hs, if_neg hs, ih]
      rfl

/-- The first pair of that name gets the value and keeps its name up to case; if there is none,
    a new pair is appended. -/
inductive SetsFirst (name value : Bytes) : List (Bytes × Bytes) → List (Bytes × Bytes) → Prop where
  | append {pairs : List (Bytes × Bytes)} (none : ∀ pair ∈ pairs, lower pair.1 ≠ lower name) :
      SetsFirst name value pairs (pairs ++ [(name, value)])
  | replace {pre post : List (Bytes × Bytes)} {old v name' : Bytes}
      (first : ∀ pair ∈ pre, lower pair.1 ≠ lower name) (hit : lower old = lower name)
      (kept : lower name' = lower old) :
      SetsFirst name value (pre ++ (old, v) :: post) (pre ++ (name', value) :: post)

theorem SetsFirst.cons {name value : Bytes} {pair : Bytes × Bytes}
    {pairs pairs' : List (Bytes × Bytes)} (hp : lower pair.1 ≠ lower name)
    (h : SetsFirst name value pairs pairs') :
    SetsFirst name value (pair :: pairs) (pair :: pairs') := by
  cases h with
  | append hnone =>
    rw [← cons_append]
    exact .append (forall_mem_cons.mpr ⟨hp, hnone⟩)
  | replace hfirst hit kept =>
    rw [← cons_append, ← cons_append]
    exact .replace (forall_mem_cons.mpr ⟨hp, hfirst⟩) hit kept

theorem HeaderLine.store_value (line : HeaderLine) (name value : Bytes) :
    (line.store name value).value = value := by
  unfold HeaderLine.store
  split_ifs
  · exact HeaderLine.make_value name value
  · obtain ⟨slack, hbuf, hname, -⟩ := line.buf_eq
    have hlen : (line.buf.take (line.nameLen + 2)).length = line.nameLen + 2 := by
      rw [length_take, hbuf]
      simp only [length_append, length_cons, length_nil]
      omega
    simp only [HeaderLine.value, append_assoc]
    rw [drop_append_of_le_length (by omega), drop_of_length_le (by omega),
      nil_append, take_left]

theorem HeaderLine.store_name (line : HeaderLine) (name value : Bytes) :
    (line.store name value).name = if line.valueLen < value.length then name else line.name := by
  unfold HeaderLine.store
  split_ifs
  · exact HeaderLine.make_name name value
  · have hle : line.nameLen ≤ (line.buf.take (line.nameLen + 2)).length := by
      obtain ⟨slack, hbuf, hname, -⟩ := line.buf_eq
      rw [length_take, hbuf]
      simp only [length_append, length_cons, length_nil]
      omega
    simp only [HeaderLine.name, append_assoc]
    rw [take_append_of_le_length hle, take_take]
    congr 1
    omega

theorem setLines_pairs {name : Bytes} (value : Bytes) (lines : List HeaderLine) (h0 : 0 ∉ name) :
    SetsFirst name value (lines.map HeaderLine.pair)
      ((setLines name value lines).map HeaderLine.pair) := by
  induction lines with
  | nil =>
    have happ : SetsFirst name value [] ([] ++ [(name, value)]) := .append (by simp)
    simpa [setLines, setInList, HeaderLine.pair] using happ
  | cons line lines ih =>
    rw [setLines_cons]
    by_cases hs : line.same name = true
    · rw [if_pos hs]
      have hit := (line.same_iff (.inr h0)).mp hs
      have kept : lower (line.store name value).name = lower line.name := by
        rw [line.store_name]
        split_ifs
        · exact hit.symm
        · rfl
      have hrep : SetsFirst name value ([] ++ (line.name, line.value) :: lines.map HeaderLine.pair)
          ([] ++ ((line.store name value).name, value) :: lines.map HeaderLine.pair) :=
        .replace (by simp) hit kept
      simpa [HeaderLine.pair, line.store_value] using hrep
    · have hne : lower line.pair.1 ≠ lower name := fun h => hs ((line.same_iff (.inr h0)).mpr h)
      rw [if_neg hs]
      exact ih.cons hne

/-! ## The store and its cursors -/

structure HeaderStore where
  lines : List RawLine
  cursors : ℕ → Option ℕ

def HeaderStore.init : HeaderStore := ⟨[], fun _ => none⟩

def HeaderStore.pairs (s : HeaderStore) : List (Bytes × Bytes) := s.lines.map RawLine.pair

inductive StoreOp where
  | add (mem name value : Bytes)
  | set (mem name value : Bytes)
  | cursor (op : CursorOp)
deriving DecidableEq, Repr

/-- `none` is a copy over the end of an allocation or the use of a cursor without a place. -/
def HeaderStore.step (s : HeaderStore) : StoreOp → Option HeaderStore
  | .add mem name value =>
    (addRaw mem name value).map fun line => { s with lines := s.lines ++ [line] }
  | .set mem name value =>
    (setRaw mem name value s.lines).map fun lines => { s with lines := lines }
  | .cursor op => (cursorStep RawLine.same s.lines s.cursors op).map fun r => ⟨r.1, r.2⟩

/-- The calls: `malloc` returns as much as it was asked for, names have no NUL, and a cursor has
    a place. -/
def Callable (s : HeaderStore) : StoreOp → Prop
  | .add mem name value => mem.length = name.length + value.length + 4 ∧ 0 ∉ name
  | .set mem name value => mem.length = name.length + value.length + 4 ∧ 0 ∉ name
  | .cursor (.rewind _) => True
  | .cursor (.next c) => s.cursors c ≠ none
  | .cursor (.find c name) => s.cursors c ≠ none ∧ 0 ∉ name
  | .cursor (.erase c) => s.cursors c ≠ none

instance (s : HeaderStore) (op : StoreOp) : Decidable (Callable s op) := by
  match op with
  | .add _ _ _ => exact inferInstanceAs (Decidable (_ ∧ _))
  | .set _ _ _ => exact inferInstanceAs (Decidable (_ ∧ _))
  | .cursor (.rewind _) => exact inferInstanceAs (Decidable True)
  | .cursor (.next _) => exact inferInstanceAs (Decidable (_ ≠ _))
  | .cursor (.find _ _) => exact inferInstanceAs (Decidable (_ ∧ _))
  | .cursor (.erase _) => exact inferInstanceAs (Decidable (_ ≠ _))

def eraseLoop (c : ℕ) (name : Bytes) : ℕ → HeaderStore → Option HeaderStore
  | 0, _ => none
  | fuel + 1, s => do
    let k ← s.cursors c
    let s' ← s.step (.cursor (.find c name))
    if (findFrom (RawLine.same name) k (s.lines.drop k)).2 then
      let s'' ← s'.step (.cursor (.erase c))
      eraseLoop c name fuel s''
    else return s'

section Positions

variable {α : Type} {same : α → Bool}

theorem findFrom_eq (same : α → Bool) (k : ℕ) (lines : List α) :
    (∃ pre hit post, lines = pre ++ hit :: post ∧ (∀ line ∈ pre, same line = false) ∧
      same hit = true ∧ findFrom same k lines = (k + pre.length + 1, true)) ∨
    ((∀ line ∈ lines, same line = false) ∧ findFrom same k lines = (k + lines.length, false)) := by
  induction lines generalizing k with
  | nil => exact .inr ⟨by simp, rfl⟩
  | cons line lines ih =>
    by_cases hs : same line = true
    · exact .inl ⟨[], line, lines, rfl, by simp, hs, by simp [findFrom, hs]⟩
    · rw [Bool.not_eq_true] at hs
      have hnext : findFrom same k (line :: lines) = findFrom same (k + 1) lines := by
        simp [findFrom, hs]
      rw [hnext]
      obtain ⟨pre, hit, post, rfl, hpre, hhit, hfind⟩ | ⟨hnone, hfind⟩ := ih (k + 1)
      · refine .inl ⟨line :: pre, hit, post, rfl, forall_mem_cons.mpr ⟨hs, hpre⟩, hhit, ?_⟩
        rw [hfind, length_cons, Nat.add_right_comm k 1, Nat.add_assoc k]
      · refine .inr ⟨forall_mem_cons.mpr ⟨hs, hnone⟩, ?_⟩
        rw [hfind, length_cons, Nat.add_right_comm k 1, Nat.add_assoc k]

theorem findFrom_le (same : α → Bool) (k : ℕ) (lines : List α) :
    (findFrom same k lines).1 ≤ k + lines.length := by
  obtain ⟨pre, hit, post, rfl, -, -, hfind⟩ | ⟨-, hfind⟩ := findFrom_eq same k lines
  · rw [hfind]
    simp only [length_append, length_cons]
    omega
  · rw [hfind]

def InRange (lines : List α) (cursors : ℕ → Option ℕ) : Prop :=
  ∀ c k, cursors c = some k → k ≤ lines.length

theorem InRange.update {lines : List α} {cursors : ℕ → Option ℕ} (h : InRange lines cursors)
    (c k : ℕ) (hk : k ≤ lines.length) : InRange lines (update cursors c (some k)) := by
  intro d j hd
  by_cases hdc : d = c
  · subst hdc
    rw [update_self] at hd
    cases hd
    exact hk
  · rw [update_of_ne hdc] at hd
    exact h d j hd

theorem cursorStep_lines {same : Bytes → α → Bool} {lines lines' : List α}
    {cursors cursors' : ℕ → Option ℕ} {op : CursorOp}
    (h : cursorStep same lines cursors op = some (lines', cursors')) (hr : InRange lines cursors) :
    InRange lines' cursors' ∧ (lines' = lines ∨ ∃ c k, op = .erase c ∧
      cursors c = some (k + 1) ∧ k < lines.length ∧ lines' = lines.eraseIdx k) := by
  cases op with
  | rewind c =>
    cases h
    exact ⟨hr.update c 0 (Nat.zero_le _), .inl rfl⟩
  | next c =>
    obtain ⟨k, hk, heq⟩ := Option.map_eq_some_iff.mp h
    cases heq
    refine ⟨hr.update c _ ?_, .inl rfl⟩
    have := hr c k hk
    split_ifs <;> omega
  | find c name =>
    obtain ⟨k, hk, heq⟩ := Option.map_eq_some_iff.mp h
    cases heq
    refine ⟨hr.update c _ ?_, .inl rfl⟩
    have hle := findFrom_le (same name) k (lines.drop k)
    have hk := hr c k hk
    rw [length_drop] at hle
    omega
  | erase c =>
    obtain ⟨k, hk, heq⟩ := Option.map_eq_some_iff.mp h
    have hle := hr c k hk
    cases k with
    | zero =>
      cases heq
      exact ⟨hr, .inl rfl⟩
    | succ k =>
      cases heq
      have hlen : (lines.eraseIdx k).length = lines.length - 1 :=
        length_eraseIdx_of_lt (by omega)
      refine ⟨InRange.update ?_ c k (by omega), .inr ⟨c, k, rfl, hk, by omega, rfl⟩⟩
      intro d j hd
      obtain ⟨i, hi, hij⟩ := Option.bind_eq_some_iff.mp hd
      have hi := hr d i hi
      unfold unlinked at hij
      split_ifs at hij
      · cases hij
        omega
      · cases hij
        omega

end Positions

structure StoreInv (s : HeaderStore) : Prop where
  lines : ∃ lines : List HeaderLine, s.lines = lines.map HeaderLine.raw
  range : InRange s.lines s.cursors

theorem pairs_map (lines : List HeaderLine) (cursors : ℕ → Option ℕ) :
    (HeaderStore.mk (lines.map HeaderLine.raw) cursors).pairs = lines.map HeaderLine.pair := by
  simp only [HeaderStore.pairs, map_map]
  exact map_congr_left fun line _ => line.raw_pair

theorem setLines_length (name value : Bytes) (lines : List HeaderLine) :
    lines.length ≤ (setLines name value lines).length := by
  induction lines with
  | nil => exact Nat.zero_le _
  | cons line lines ih =>
    rw [setLines_cons]
    split_ifs
    · exact le_rfl
    · simpa using ih

theorem InRange.longer {α β : Type} {lines : List α} {lines' : List β} {cursors : ℕ → Option ℕ}
    (h : InRange lines cursors) (hl : lines.length ≤ lines'.length) : InRange lines' cursors :=
  fun c k hk => (h c k hk).trans hl

theorem StoreInv.add {s : HeaderStore} (inv : StoreInv s) {mem name value : Bytes}
    (hm : mem.length = name.length + value.length + 4) :
    ∃ s', s.step (.add mem name value) = some s' ∧ StoreInv s' ∧
      s'.pairs = s.pairs ++ [(name, value)] := by
  obtain ⟨⟨lines, hlines⟩, hrange⟩ := inv
  obtain ⟨_, cursors⟩ := s
  subst hlines
  have hmap : lines.map HeaderLine.raw ++ [(HeaderLine.make name value).raw] =
      (lines ++ [HeaderLine.make name value]).map HeaderLine.raw := by simp
  refine ⟨_, by rw [HeaderStore.step, addRaw_eq hm]; rfl, ⟨⟨_, hmap⟩, ?_⟩, ?_⟩
  · exact hrange.longer (by simp)
  · change (HeaderStore.mk (lines.map HeaderLine.raw ++ _) cursors).pairs = _
    rw [hmap, pairs_map, pairs_map, map_append]
    simp [HeaderLine.pair]

theorem StoreInv.set {s : HeaderStore} (inv : StoreInv s) {mem name value : Bytes}
    (hm : mem.length = name.length + value.length + 4) (h0 : 0 ∉ name) :
    ∃ s', s.step (.set mem name value) = some s' ∧ StoreInv s' ∧
      SetsFirst name value s.pairs s'.pairs := by
  obtain ⟨⟨lines, hlines⟩, hrange⟩ := inv
  obtain ⟨_, cursors⟩ := s
  subst hlines
  refine ⟨_, by rw [HeaderStore.step, setRaw_eq lines hm]; rfl, ⟨⟨_, rfl⟩, ?_⟩, ?_⟩
  · have hlen := setLines_length name value lines
    exact hrange.longer (by simpa using hlen)
  · rw [pairs_map, pairs_map]
    exact setLines_pairs value lines h0

theorem map_eraseIdx {α β : Type} (f : α → β) (l : List α) (k : ℕ) :
    (l.map f).eraseIdx k = (l.eraseIdx k).map f := by
  induction l generalizing k with
  | nil => rfl
  | cons a l ih =>
    cases k with
    | zero => rfl
    | succ k => simp [ih]

theorem StoreInv.cursor {s : HeaderStore} (inv : StoreInv s) {op : CursorOp}
    (ho : Callable s (.cursor op)) :
    ∃ s', s.step (.cursor op) = some s' ∧ StoreInv s' ∧
      (s'.pairs = s.pairs ∨ ∃ c k, op = .erase c ∧ s.cursors c = some (k + 1) ∧
        k < s.pairs.length ∧ s'.pairs = s.pairs.eraseIdx k) := by
  obtain ⟨⟨lines', cursors'⟩, hstep⟩ : ∃ r, cursorStep RawLine.same s.lines s.cursors op = some r := by
    cases op with
    | rewind c => exact ⟨_, rfl⟩
    | next c =>
      obtain ⟨k, hk⟩ := Option.ne_none_iff_exists'.mp ho
      exact ⟨_, by rw [cursorStep, hk]; rfl⟩
    | find c name =>
      obtain ⟨k, hk⟩ := Option.ne_none_iff_exists'.mp ho.1
      exact ⟨_, by rw [cursorStep, hk]; rfl⟩
    | erase c =>
      obtain ⟨k, hk⟩ := Option.ne_none_iff_exists'.mp ho
      exact ⟨_, by rw [cursorStep, hk]; rfl⟩
  obtain ⟨⟨lines, hlines⟩, hrange⟩ := inv
  obtain ⟨hrange', hkind⟩ := cursorStep_lines hstep hrange
  refine ⟨⟨lines', cursors'⟩, by rw [HeaderStore.step, hstep]; rfl, ?_⟩
  obtain rfl | ⟨c, k, rfl, hk, hlt, rfl⟩ := hkind
  · exact ⟨⟨⟨lines, hlines⟩, hrange'⟩, .inl rfl⟩
  · refine ⟨⟨⟨lines.eraseIdx k, ?_⟩, hrange'⟩, .inr ⟨c, k, rfl, hk, ?_, ?_⟩⟩
    · change s.lines.eraseIdx k = _
      rw [hlines, map_eraseIdx]
    · simpa [HeaderStore.pairs] using hlt
    · exact (map_eraseIdx _ _ _).symm

theorem StoreInv.step {s s' : HeaderStore} {op : StoreOp} (inv : StoreInv s)
    (ho : Callable s op) (h : s.step op = some s') : StoreInv s' := by
  cases op with
  | add mem name value =>
    obtain ⟨t, ht, inv', -⟩ := inv.add ho.1
    cases ht.symm.trans h
    exact inv'
  | set mem name value =>
    obtain ⟨t, ht, inv', -⟩ := inv.set ho.1 ho.2
    cases ht.symm.trans h
    exact inv'
  | cursor op =>
    obtain ⟨t, ht, inv', -⟩ := inv.cursor ho
    cases ht.symm.trans h
    exact inv'

theorem storeInv_reaches {s : HeaderStore} (hs : Reaches HeaderStore.step Callable .init s) :
    StoreInv s :=
  hs.invariant ⟨⟨[], rfl⟩, (by rintro _ _ ⟨⟩)⟩ fun _ _ _ inv ho h => inv.step ho h

/-! ## Erasing a name -/

section EraseLoop

variable {s : HeaderStore} {c k : ℕ} {name : Bytes}

theorem step_find (hc : s.cursors c = some k) : s.step (.cursor (.find c name)) =
    some ⟨s.lines, update s.cursors c
      (some (findFrom (RawLine.same name) k (s.lines.drop k)).1)⟩ := by
  rw [HeaderStore.step, cursorStep, hc]
  rfl

theorem step_erase (hc : s.cursors c = some (k + 1)) : s.step (.cursor (.erase c)) =
    some ⟨s.lines.eraseIdx k,
      update (fun d => (s.cursors d).bind (unlinked (k + 1))) c (some k)⟩ := by
  rw [HeaderStore.step, cursorStep, hc]
  rfl

theorem eraseLoop_lines (name : Bytes) (fuel : ℕ) (hc : s.cursors c = some k) (hk : k ≤ s.lines.length)
    (hf : s.lines.length - k < fuel) : ∃ s', eraseLoop c name fuel s = some s' ∧
      s'.lines = s.lines.take k ++ (s.lines.drop k).filter (fun line => !line.same name) := by
  induction fuel generalizing s k with
  | zero => omega
  | succ fuel ih =>
    obtain ⟨pre, hit, post, hsplit, hpre, hhit, hfind⟩ | ⟨hnone, hfind⟩ :=
      findFrom_eq (RawLine.same name) k (s.lines.drop k)
    · have hlines : s.lines = s.lines.take k ++ pre ++ hit :: post := by
        rw [append_assoc, ← hsplit, take_append_drop]
      have htake : (s.lines.take k ++ pre).length = k + pre.length := by
        rw [length_append, length_take, Nat.min_eq_left hk]
      have herase : s.lines.eraseIdx (k + pre.length) = s.lines.take k ++ pre ++ post := by
        conv_lhs => rw [hlines, ← htake]
        rw [eraseIdx_append_of_length_le le_rfl, Nat.sub_self]
        rfl
      let s₁ : HeaderStore :=
        ⟨s.lines, update s.cursors c (some (k + pre.length + 1))⟩
      let s₂ : HeaderStore := ⟨s.lines.take k ++ pre ++ post,
        update (fun d => (s₁.cursors d).bind (unlinked (k + pre.length + 1))) c
          (some (k + pre.length))⟩
      have h₁ : s.step (.cursor (.find c name)) = some s₁ := by
        rw [step_find hc, hfind]
      have hc₁ : s₁.cursors c = some (k + pre.length + 1) := update_self ..
      have h₂ : s₁.step (.cursor (.erase c)) = some s₂ := by
        rw [step_erase hc₁, herase]
      have hc₂ : s₂.cursors c = some (k + pre.length) := by simp [s₂]
      have hlen₂ : s₂.lines.length = k + pre.length + post.length := by
        rw [length_append, htake]
      have hlen := congrArg List.length hlines
      rw [length_append, htake, length_cons] at hlen
      obtain ⟨s', hloop, hrest⟩ := ih hc₂ (by omega) (by omega)
      refine ⟨s', ?_, ?_⟩
      · simp only [eraseLoop, hc, h₁, hfind, Option.bind_eq_bind, Option.bind_some, if_true, h₂]
        exact hloop
      · have hkept : pre.filter (fun line => !line.same name) = pre := by
          rw [filter_eq_self]
          intro line hline
          rw [hpre line hline]
          rfl
        have hfilter : (s.lines.drop k).filter (fun line => !line.same name) =
            pre ++ post.filter (fun line => !line.same name) := by
          rw [hsplit, filter_append, hkept, filter_cons_of_neg (by simp [hhit])]
        rw [hrest, hfilter, ← htake, take_left, drop_left, append_assoc]
    · let s₁ : HeaderStore :=
        ⟨s.lines, update s.cursors c (some (k + (s.lines.drop k).length))⟩
      refine ⟨s₁, ?_, ?_⟩
      · simp only [eraseLoop, hc, step_find hc, hfind, Option.bind_eq_bind, Option.bind_some]
        rfl
      · have hall : (s.lines.drop k).filter (fun line => !line.same name) = s.lines.drop k := by
          rw [filter_eq_self]
          intro line hline
          rw [hnone line hline]
          rfl
        rw [hall, take_append_drop]

end EraseLoop

theorem StoreInv.eraseAll {s : HeaderStore} (inv : StoreInv s) (c : ℕ) {name : Bytes}
    (h0 : 0 ∉ name) : ∃ s₀ s', s.step (.cursor (.rewind c)) = some s₀ ∧
      eraseLoop c name (s.lines.length + 1) s₀ = some s' ∧
      s'.pairs = s.pairs.filter (fun pair => lower pair.1 ≠ lower name) := by
  obtain ⟨⟨lines, hlines⟩, -⟩ := inv
  let s₀ : HeaderStore := ⟨s.lines, update s.cursors c (some 0)⟩
  have hc : s₀.cursors c = some 0 := update_self ..
  obtain ⟨s', hloop, hrest⟩ := eraseLoop_lines name (s.lines.length + 1) hc
    (Nat.zero_le _) (Nat.lt_succ_self _)
  refine ⟨s₀, s', rfl, hloop, ?_⟩
  change s'.lines = s.lines.take 0 ++ (s.lines.drop 0).filter _ at hrest
  rw [take_zero, nil_append, drop_zero, hlines] at hrest
  simp only [HeaderStore.pairs, hrest, hlines, filter_map, map_map]
  congr 1
  apply filter_congr
  intro line _
  change (!line.same name) = decide (lower line.name ≠ lower name)
  have hiff := line.same_iff (.inr h0)
  by_cases hname : lower line.name = lower name
  · simp [hname, hiff.mpr hname]
  · have hsame : line.same name = false := by
      rw [← Bool.not_eq_true, hiff]
      exact hname
    simp [hname, hsame]

structure Stored (line : RawLine) : Prop where
  room : line.nameLen + line.valueLen + 4 ≤ line.buf.length
  text : line.buf.take (line.nameLen + line.valueLen + 4) =
    line.pair.1 ++ [COLON, SP] ++ line.pair.2 ++ [CR, LF]
  name : line.pair.1.length = line.nameLen
  value : line.pair.2.length = line.valueLen

theorem HeaderLine.stored (line : HeaderLine) : Stored line.raw := by
  obtain ⟨slack, hbuf, hname, hvalue⟩ := line.buf_eq
  have hlen : (line.name ++ [COLON, SP] ++ line.value ++ [CR, LF]).length =
      line.nameLen + line.valueLen + 4 := by
    simp only [length_append, length_cons, length_nil]
    omega
  refine ⟨?_, ?_, hname, hvalue⟩
  · change line.nameLen + line.valueLen + 4 ≤ line.buf.length
    rw [hbuf, length_append, hlen]
    omega
  · change line.buf.take (line.nameLen + line.valueLen + 4) = line.name ++ _ ++ line.value ++ _
    conv_lhs => rw [hbuf, ← hlen]
    exact take_left

/-- After any calls every buffer holds its pair, and a further call does to the pairs what it
    should. -/
theorem header_store_refines {s : HeaderStore} (hs : Reaches HeaderStore.step Callable .init s) :
    (∀ line ∈ s.lines, Stored line) ∧
    (∀ mem name value, Callable s (.add mem name value) →
      ∃ s', s.step (.add mem name value) = some s' ∧ s'.pairs = s.pairs ++ [(name, value)]) ∧
    (∀ mem name value, Callable s (.set mem name value) →
      ∃ s', s.step (.set mem name value) = some s' ∧ SetsFirst name value s.pairs s'.pairs) ∧
    (∀ op, Callable s (.cursor op) → ∃ s', s.step (.cursor op) = some s' ∧
      (s'.pairs = s.pairs ∨ ∃ c k, op = .erase c ∧ s.cursors c = some (k + 1) ∧
        k < s.pairs.length ∧ s'.pairs = s.pairs.eraseIdx k)) ∧
    (∀ c name, 0 ∉ name → ∃ s₀ s', s.step (.cursor (.rewind c)) = some s₀ ∧
      eraseLoop c name (s.lines.length + 1) s₀ = some s' ∧
      s'.pairs = s.pairs.filter (fun pair => lower pair.1 ≠ lower name)) := by
  have inv := storeInv_reaches hs
  refine ⟨?_, ?_, ?_, ?_, fun c _ h0 => inv.eraseAll c h0⟩
  · intro line hline
    obtain ⟨lines, hlines⟩ := inv.lines
    rw [hlines] at hline
    obtain ⟨line, -, rfl⟩ := mem_map.mp hline
    exact line.stored
  · intro mem name value ho
    obtain ⟨s', hstep, -, hpairs⟩ := inv.add ho.1
    exact ⟨s', hstep, hpairs⟩
  · intro mem name value ho
    obtain ⟨s', hstep, -, hpairs⟩ := inv.set ho.1 ho.2
    exact ⟨s', hstep, hpairs⟩
  · intro op ho
    obtain ⟨s', hstep, -, hpairs⟩ := inv.cursor ho
    exact ⟨s', hstep, hpairs⟩

def shrinkRun : List StoreOp :=
  [.add (List.replicate 12 0) (bytes "Host") (bytes "abcd"),
    .add (List.replicate 6 0) (bytes "A") (bytes "1"),
    .set (List.replicate 9 0) (bytes "HOST") (bytes "x"),
    .set (List.replicate 11 0) (bytes "hOst") (bytes "xyz"),
    .cursor (.rewind 0), .cursor (.find 0 (bytes "host"))]

theorem shrinkRun_callable : (guardedRun HeaderStore.step Callable .init shrinkRun).isSome = true := by
  decide +kernel

theorem shrinkRun_pairs : ((guardedRun HeaderStore.step Callable .init shrinkRun).get
    shrinkRun_callable).pairs = [(bytes "hOst", bytes "xyz"), (bytes "A", bytes "1")] := by
  decide +kernel

theorem shrinkRun_erased : ∃ s s₀ s' : HeaderStore,
    s.pairs = [(bytes "hOst", bytes "xyz"), (bytes "A", bytes "1")] ∧
      s.step (.cursor (.rewind 1)) = some s₀ ∧
      eraseLoop 1 (bytes "HOST") (s.lines.length + 1) s₀ = some s' ∧
      s'.pairs = s.pairs.filter (fun pair => lower pair.1 ≠ lower (bytes "HOST")) := by
  have hrun := (Option.some_get shrinkRun_callable).symm
  obtain ⟨s₀, s', h₀, hloop, hpairs⟩ := (header_store_refines
    (reaches_of_guardedRun shrinkRun .start hrun)).2.2.2.2 1 (bytes "HOST") (by decide)
  exact ⟨_, s₀, s', shrinkRun_pairs, h₀, hloop, hpairs⟩

end MyWorkflow.Http
