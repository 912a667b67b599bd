import Mathlib.Data.List.Basic
import MyWorkflow.CString
import MyWorkflow.Runs

set_option autoImplicit false

/-!
# Sending a message with short writes

`send_message` tries `send_message_sync` and hands the rest of the vectors over to the poller,
where `__poller_handle_write` goes on. A state stands between two system calls: `table` is the
array of vectors that is advanced in place and `pos`, `cnt` the part of it still to be sent. The
bytes `writev` has taken are collected in `sent`.
-/
namespace MyWorkflow.Comm.Write
open List CString Runs

def iovMax : ℕ := 1024
def encodeIovMax : ℕ := 2048

structure Iovec where
  iovBase : ℕ
  iovLen : ℕ
deriving DecidableEq, Repr

/-- `for (i = 0; i < cnt; i++)` of `send_message_sync`: the final `i` and the vectors. -/
def advanceIndexed : ℕ → List Iovec → ℕ × List Iovec
  | _, [] => (0, [])
  | n, v :: vectors =>
    if n ≥ v.iovLen then
      let (i, vectors') := advanceIndexed (n - v.iovLen) vectors
      (i + 1, v :: vectors')
    else (0, ⟨v.iovBase + n, v.iovLen - n⟩ :: vectors)

/-- The `do` loop of `__poller_handle_write`: how far `iov` moved and the vectors. -/
def advancePointer : ℕ → List Iovec → ℕ × List Iovec
  | _, [] => (0, [])
  | nleft, v :: iov =>
    if nleft ≥ v.iovLen then
      let (i, iov') := advancePointer (nleft - v.iovLen) iov
      (i + 1, ⟨v.iovBase + v.iovLen, 0⟩ :: iov')
    else (0, ⟨v.iovBase + nleft, v.iovLen - nleft⟩ :: iov)

inductive Phase where
  | sync
  | handing
  | armed
  | writing
  | progress
  | removing
  | sent
  | failed
  | finished
  | error
  | removed
deriving DecidableEq, Repr

inductive Result where
  | wrote (n : ℕ)
  | again
  | error
deriving DecidableEq, Repr

inductive Op where
  | writev (result : Result)
  | arm (ok : Bool)
  | ready
  | partialWritten (ok : Bool)
  | remove (taken : Bool)
  | take
deriving DecidableEq, Repr

structure Send where
  phase : Phase
  table : List Iovec
  pos : ℕ
  cnt : ℕ
  count : ℕ
  sent : Bytes
deriving DecidableEq, Repr

def Send.remaining (s : Send) : List Iovec := (s.table.drop s.pos).take s.cnt

section Memory

variable (mem : ℕ → UInt8)

def Iovec.bytes (v : Iovec) : Bytes := (List.range v.iovLen).map (fun k => mem (v.iovBase + k))

def content (vectors : List Iovec) : Bytes := vectors.flatMap (Iovec.bytes mem)

def Send.offered (s : Send) : Bytes := content mem (s.remaining.take iovMax)

def Send.advance (loop : ℕ → List Iovec → ℕ × List Iovec) (n : ℕ) (s : Send) : Send :=
  { s with
    table := s.table.take s.pos ++ (loop n s.remaining).2 ++ s.table.drop (s.pos + s.cnt)
    pos := s.pos + (loop n s.remaining).1
    cnt := s.cnt - (loop n s.remaining).1
    sent := s.sent ++ (s.offered mem).take n }

def Send.syncWrote (n : ℕ) (s : Send) : Send :=
  let s := s.advance mem advanceIndexed n
  { s with phase := if s.cnt = 0 then .sent else .sync }

def Send.pollerWrote (n : ℕ) (s : Send) : Send :=
  let s := s.advance mem advancePointer n
  { s with
    count := (s.count + n) % 2 ^ 64
    phase := if s.cnt = 0 then .removing else .writing }

/-- `send_message_async(end - cnt, cnt, entry)`; `iovcnt` of the poller is an unsigned short. -/
def Send.handOver (s : Send) : Send :=
  { s with
    phase := .armed
    table := (s.table.drop (s.table.length - s.cnt)).take s.cnt
    pos := 0
    cnt := s.cnt % 2 ^ 16 }

def Send.step (s : Send) (op : Op) : Option Send :=
  match op, s.phase with
  | .writev (.wrote n), .sync => if n ≤ (s.offered mem).length then some (s.syncWrote mem n) else none
  | .writev .again, .sync => some { s with phase := .handing }
  | .writev .error, .sync => some { s with phase := .failed }
  | .arm true, .handing => some s.handOver
  | .arm false, .handing => some { s with phase := .failed }
  | .ready, .armed => some { s with phase := if s.cnt = 0 then .removing else .writing, count := 0 }
  | .take, .armed => some { s with phase := .removed }
  | .writev (.wrote n), .writing =>
    if n ≤ (s.offered mem).length then some (s.pollerWrote mem n) else none
  | .writev .again, .writing => some { s with phase := if s.count = 0 then .armed else .progress }
  | .writev .error, .writing => some { s with phase := .removing }
  | .partialWritten ok, .progress => some { s with phase := if ok then .armed else .removing }
  | .remove taken, .removing =>
    some { s with phase := if taken then .removed else if s.cnt = 0 then .finished else .error }
  | _, _ => none

end Memory

def sendMessageSync (vectors : List Iovec) : Send where
  phase := if vectors.length = 0 then .sent else .sync
  table := vectors
  pos := 0
  cnt := vectors.length
  count := 0
  sent := []

/-- `send_message`, up to its first system call; `none` where it returns -1 before. -/
def sendMessage (vectors : List Iovec) : Option Send :=
  if vectors.length > encodeIovMax then none else some (sendMessageSync vectors)

section Memory

variable (mem : ℕ → UInt8)

@[simp] theorem Iovec.bytes_length (v : Iovec) : (v.bytes mem).length = v.iovLen := by
  simp [Iovec.bytes]

theorem Iovec.bytes_drop (v : Iovec) (n : ℕ) :
    Iovec.bytes mem ⟨v.iovBase + n, v.iovLen - n⟩ = (v.bytes mem).drop n := by
  apply ext_getElem
  · simp [Iovec.bytes]
  · intro k h1 h2
    simp [Iovec.bytes, Nat.add_assoc]

theorem content_cons (v : Iovec) (vectors : List Iovec) :
    content mem (v :: vectors) = v.bytes mem ++ content mem vectors := rfl

theorem content_append (a b : List Iovec) : content mem (a ++ b) = content mem a ++ content mem b :=
  flatMap_append

structure Advances (n : ℕ) (vectors : List Iovec) (r : ℕ × List Iovec) : Prop where
  length : r.2.length = vectors.length
  within : r.1 ≤ vectors.length
  rest : content mem (r.2.drop r.1) = (content mem vectors).drop n

variable {mem}

theorem Advances.skip {n : ℕ} {v w : Iovec} {vectors : List Iovec} {r : ℕ × List Iovec}
    (hv : v.iovLen ≤ n) (h : Advances mem (n - v.iovLen) vectors r) :
    Advances mem n (v :: vectors) (r.1 + 1, w :: r.2) where
  length := by simp [h.length]
  within := by simpa using h.within
  rest := by
    have hskip : (v.bytes mem).drop n = [] := drop_of_length_le (by simpa using hv)
    rw [drop_succ_cons, h.rest, content_cons, drop_append, Iovec.bytes_length, hskip,
      nil_append]

theorem Advances.stop {n : ℕ} {v : Iovec} {vectors : List Iovec} (hv : n < v.iovLen) :
    Advances mem n (v :: vectors) (0, ⟨v.iovBase + n, v.iovLen - n⟩ :: vectors) where
  length := rfl
  within := Nat.zero_le _
  rest := by
    rw [drop_zero, content_cons, content_cons, Iovec.bytes_drop,
      drop_append_of_le_length (by simpa using hv.le)]

theorem Advances.nil : Advances mem 0 [] (0, []) := ⟨rfl, le_rfl, rfl⟩

theorem advanceIndexed_advances {n : ℕ} (vectors : List Iovec)
    (hn : n ≤ (content mem vectors).length) :
    Advances mem n vectors (advanceIndexed n vectors) := by
  induction vectors generalizing n with
  | nil =>
    obtain rfl : n = 0 := by simpa [content] using hn
    exact .nil
  | cons v vectors ih =>
    rw [content_cons, length_append, Iovec.bytes_length] at hn
    rw [advanceIndexed]
    split_ifs with hv
    · exact .skip hv (ih (by omega))
    · exact .stop (by omega)

theorem advancePointer_advances {n : ℕ} (vectors : List Iovec)
    (hn : n ≤ (content mem vectors).length) :
    Advances mem n vectors (advancePointer n vectors) := by
  induction vectors generalizing n with
  | nil =>
    obtain rfl : n = 0 := by simpa [content] using hn
    exact .nil
  | cons v vectors ih =>
    rw [content_cons, length_append, Iovec.bytes_length] at hn
    rw [advancePointer]
    split_ifs with hv
    · exact .skip hv (ih (by omega))
    · exact .stop (by omega)

structure Conserved (mem : ℕ → UInt8) (vectors : List Iovec) (s : Send) : Prop where
  split : s.sent ++ content mem s.remaining = content mem vectors
  place : s.pos + s.cnt = s.table.length
  fewer : s.cnt ≤ vectors.length

variable {vectors : List Iovec} {s s' : Send}

theorem Conserved.remaining_length (h : Conserved mem vectors s) : s.remaining.length = s.cnt := by
  have hp := h.place
  simp only [Send.remaining, length_take, length_drop]
  omega

theorem Send.offered_append (mem : ℕ → UInt8) (s : Send) :
    content mem s.remaining = s.offered mem ++ content mem (s.remaining.drop iovMax) := by
  rw [Send.offered, ← content_append, take_append_drop]

theorem Conserved.advance (h : Conserved mem vectors s) {loop : ℕ → List Iovec → ℕ × List Iovec}
    (hloop : ∀ {n : ℕ} (vectors : List Iovec), n ≤ (content mem vectors).length →
      Advances mem n vectors (loop n vectors)) {n : ℕ} (hn : n ≤ (s.offered mem).length) :
    Conserved mem vectors (s.advance mem loop n) := by
  have hall : n ≤ (content mem s.remaining).length := by
    rw [s.offered_append mem, length_append]
    omega
  have adv := hloop s.remaining hall
  have hp := h.place
  have hlen := adv.length
  have hwithin := adv.within
  rw [h.remaining_length] at hlen hwithin
  have hpre : (s.table.take s.pos).length = s.pos := by
    rw [length_take]
    omega
  -- behind the table there is nothing, so the new rest is what the loop left
  have htable : (s.advance mem loop n).table = s.table.take s.pos ++ (loop n s.remaining).2 := by
    simp only [Send.advance]
    rw [drop_of_length_le (by omega), append_nil]
  have hrest : (s.advance mem loop n).remaining =
      (loop n s.remaining).2.drop (loop n s.remaining).1 := by
    rw [Send.remaining, htable]
    simp only [Send.advance]
    rw [drop_append, hpre, drop_of_length_le (by omega), nil_append,
      Nat.add_sub_cancel_left, take_of_length_le (by rw [length_drop]; omega)]
  constructor
  · have hsplit := h.split
    have htake : (s.offered mem).take n = (content mem s.remaining).take n := by
      rw [s.offered_append mem, take_append_of_le_length hn]
    rw [hrest, adv.rest]
    simp only [Send.advance]
    rw [htake, append_assoc, take_append_drop, hsplit]
  · rw [htable, length_append, hpre, hlen]
    simp only [Send.advance]
    omega
  · have hf := h.fewer
    simp only [Send.advance]
    omega

theorem Conserved.withPhase (h : Conserved mem vectors s) (phase : Phase) (count : ℕ) :
    Conserved mem vectors { s with phase := phase, count := count } :=
  { h with }

theorem Conserved.handOver (h : Conserved mem vectors s) (hv : vectors.length ≤ encodeIovMax) :
    Conserved mem vectors s.handOver := by
  have hp := h.place
  have hf := h.fewer
  have hmax : encodeIovMax = 2048 := rfl
  have hcnt : s.cnt % 2 ^ 16 = s.cnt := Nat.mod_eq_of_lt (by omega)
  have htable : s.handOver.table = s.remaining := by
    simp only [Send.handOver, Send.remaining]
    rw [show s.table.length - s.cnt = s.pos by omega]
  have hlen := h.remaining_length
  have hrest : s.handOver.remaining = s.remaining := by
    rw [Send.remaining, htable]
    simp only [Send.handOver, hcnt, drop_zero]
    exact take_of_length_le hlen.le
  refine ⟨?_, ?_, ?_⟩
  · rw [hrest]
    exact h.split
  · rw [htable, hlen]
    simp only [Send.handOver, hcnt, Nat.zero_add]
  · simp only [Send.handOver, hcnt]
    exact hf

theorem sendMessageSync_conserved (mem : ℕ → UInt8) (vectors : List Iovec) :
    Conserved mem vectors (sendMessageSync vectors) := by
  refine ⟨?_, Nat.zero_add _, le_rfl⟩
  simp [Send.remaining, sendMessageSync]

def Complete (s : Send) : Prop := s.phase = .sent ∨ s.phase = .finished → s.cnt = 0

theorem Complete.of_ne (h1 : s.phase ≠ .sent) (h2 : s.phase ≠ .finished) : Complete s := by
  rintro (h | h)
  · exact absurd h h1
  · exact absurd h h2

theorem Complete.of_step {op : Op} (hs : s.step mem op = some s') : Complete s' := by
  unfold Send.step at hs
  split at hs
  · -- a short write in `send_message_sync`
    split_ifs at hs
    cases hs
    simp only [Complete, Send.syncWrote]
    split_ifs with hc
    · exact fun _ => hc
    · simp
  · cases hs
    exact .of_ne (by simp) (by simp)
  · cases hs
    exact .of_ne (by simp) (by simp)
  · cases hs
    exact .of_ne (by simp [Send.handOver]) (by simp [Send.handOver])
  · cases hs
    exact .of_ne (by simp) (by simp)
  · cases hs
    apply Complete.of_ne <;> simp only <;> split_ifs <;> simp
  · cases hs
    exact .of_ne (by simp) (by simp)
  · split_ifs at hs
    cases hs
    apply Complete.of_ne <;> simp only [Send.pollerWrote] <;> split_ifs <;> simp
  · cases hs
    apply Complete.of_ne <;> simp only <;> split_ifs <;> simp
  · cases hs
    exact .of_ne (by simp) (by simp)
  · cases hs
    apply Complete.of_ne <;> simp only <;> split_ifs <;> simp
  · -- the state `__poller_handle_write` reports
    cases hs
    simp only [Complete]
    split_ifs with h1 h2
    · simp
    · exact fun _ => h2
    · simp
  · cases hs

theorem Conserved.step (h : Conserved mem vectors s) {op : Op} (hs : s.step mem op = some s')
    (hv : ∀ ok, op = .arm ok → vectors.length ≤ encodeIovMax) : Conserved mem vectors s' := by
  unfold Send.step at hs
  split at hs
  case h_1 =>
    split_ifs at hs with hn
    cases hs
    exact (h.advance advanceIndexed_advances hn).withPhase _ _
  case h_4 =>
    cases hs
    exact h.handOver (hv true rfl)
  case h_8 =>
    split_ifs at hs with hn
    cases hs
    exact (h.advance advancePointer_advances hn).withPhase _ _
  case h_13 => cases hs
  all_goals
    cases hs
    exact h.withPhase _ _

theorem sendMessageSync_complete (vectors : List Iovec) : Complete (sendMessageSync vectors) := by
  simp only [Complete, sendMessageSync]
  split_ifs with h
  · exact fun _ => h
  · simp

theorem Reaches.conserved {allowed : Send → Op → Prop}
    (hv : ∀ s ok, allowed s (.arm ok) → vectors.length ≤ encodeIovMax)
    (h : Reaches (Send.step mem) allowed (sendMessageSync vectors) s) :
    Conserved mem vectors s ∧ Complete s := by
  refine h.invariant (P := fun s => Conserved mem vectors s ∧ Complete s)
    ⟨sendMessageSync_conserved mem vectors, sendMessageSync_complete vectors⟩ ?_
  rintro s op s' ⟨hc, _⟩ ha hs
  refine ⟨hc.step hs ?_, .of_step hs⟩
  rintro ok rfl
  exact hv s ok ha

/-- What `writev` has taken is the beginning of the message, and the remaining vectors hold the
    rest, of which nothing is left after a success. -/
structure InOrder (mem : ℕ → UInt8) (vectors : List Iovec) (s : Send) : Prop where
  first : s.sent <+: content mem vectors
  rest : content mem s.remaining = (content mem vectors).drop s.sent.length
  whole : s.phase = .sent ∨ s.phase = .finished → s.sent = content mem vectors

theorem Conserved.inOrder (h : Conserved mem vectors s) (hc : Complete s) :
    InOrder mem vectors s where
  first := ⟨_, h.split⟩
  rest := by rw [← h.split, drop_left]
  whole := by
    intro hd
    have hsplit := h.split
    rwa [Send.remaining, hc hd, take_zero, content, flatMap_nil, append_nil]
      at hsplit

variable (mem) (vectors) in
/-- In `send_message_sync` alone, and in all of `send_message` and its calls from the poller. -/
theorem short_writes_in_order :
    (∀ s, Reaches (Send.step mem) (fun _ op => ∀ ok, op ≠ .arm ok) (sendMessageSync vectors) s →
      InOrder mem vectors s) ∧
    (∀ s₀ s, sendMessage vectors = some s₀ → Reachable (Send.step mem) s₀ s →
      InOrder mem vectors s) := by
  constructor
  · intro s h
    obtain ⟨hc, hd⟩ := Reaches.conserved (fun _ ok ha => absurd rfl (ha ok)) h
    exact hc.inOrder hd
  · intro s₀ s hstart h
    simp only [sendMessage] at hstart
    split_ifs at hstart with hv
    cases hstart
    obtain ⟨hc, hd⟩ := Reaches.conserved (fun _ _ _ => Nat.le_of_not_lt hv) h
    exact hc.inOrder hd

end Memory

def handedOverRun : List Op :=
  [.writev (.wrote 1), .writev .again, .arm true, .ready, .writev (.wrote 2), .writev .again,
    .partialWritten true, .ready, .writev (.wrote 2), .remove false]

theorem handedOver_in_order :
    let vectors : List Iovec := [⟨0, 3⟩, ⟨3, 0⟩, ⟨3, 2⟩]
    ∃ s, run (Send.step UInt8.ofNat) (sendMessageSync vectors) handedOverRun = some s ∧
      s.phase = .finished ∧ InOrder UInt8.ofNat vectors s ∧ s.sent = [0, 1, 2, 3, 4] := by
  intro vectors
  have hrun : (run (Send.step UInt8.ofNat) (sendMessageSync vectors) handedOverRun).map
      (fun s => (s.phase, s.sent)) = some (.finished, [0, 1, 2, 3, 4]) := by decide +kernel
  obtain ⟨s, hs, he⟩ := Option.map_eq_some_iff.mp hrun
  obtain ⟨hphase, hsent⟩ := Prod.mk.inj he
  have h := (short_writes_in_order UInt8.ofNat vectors).2 (sendMessageSync vectors) s
    (by decide +kernel) (reachable_of_run handedOverRun .start hs)
  exact ⟨s, hs, hphase, h, hsent⟩

end MyWorkflow.Comm.Write
