import Mathlib.Logic.Function.Basic
import MyWorkflow.HttpMessage

set_option autoImplicit false

/-!
# The vector table of `HttpMessage::encode`

`encodeInto` is `encode` with its table of iovecs and the memory of `combine_from`: the table has
entries at every index, so that writes behind the limit show.
-/
namespace MyWorkflow.Http
open Function List CString

abbrev IovTable := ℕ → Option Bytes

def putAll : IovTable → ℕ → List Bytes → IovTable
  | t, _, [] => t
  | t, i, v :: vs => putAll (update t i (some v)) (i + 1) vs

def headerInto (max : ℕ) : ℕ → IovTable → List HeaderLine → ℕ × IovTable
  | i, t, [] => (i, t)
  | i, t, line :: lines =>
    if i = max then (i, t)
    else headerInto max (i + 1) (update t i (some line.text)) lines

def combineInto : Bytes → ℕ → List Bytes → Option Bytes
  | mem, _, [] => some mem
  | mem, off, block :: blocks => do
    let mem ← memcpy mem off block
    combineInto mem (off + block.length) blocks

def bodyInto (malloc : ℕ → Bytes) (max : ℕ) :
    ℕ → ℕ → IovTable → List Bytes → Option (ℕ × IovTable × List Bytes)
  | i, _, t, [] => some (i, t, [])
  | i, size, t, block :: blocks =>
    if i + 1 = max ∧ blocks ≠ [] then do
      let combined ← combineInto (malloc size) 0 (block :: blocks)
      return (i + 1, update t i (some combined), [combined])
    else do
      let (cnt, t, rest) ← bodyInto malloc max (i + 1) (size - block.length)
        (update t i (some block)) blocks
      return (cnt, t, block :: rest)

/-- `HttpMessage::encode` on a table. `none` is a copy over the end of the combined block. -/
def encodeInto (malloc : ℕ → Bytes) (max : ℕ) (p : ParseState) (blocks : List Bytes) (size : ℕ)
    (t : IovTable) : Option (Except EncodeError ℕ × IovTable × List Bytes) :=
  match startLine p with
  | none => some (.error .EBADMSG, t, blocks)
  | some fields =>
    let (i, t) := headerInto max 6 (putAll t 0 (encodeStartLine fields)) p.headerList
    if i + 1 ≥ max then some (.error .EOVERFLOW, t, blocks)
    else do
      let t := update t i (some [CR, LF])
      let (cnt, t, rest) ← bodyInto malloc max (i + 1) size t blocks
      return (.ok cnt, t, rest)

theorem putAll_append (t : IovTable) (i : ℕ) (vs ws : List Bytes) :
    putAll t i (vs ++ ws) = putAll (putAll t i vs) (i + vs.length) ws := by
  induction vs generalizing t i with
  | nil => rfl
  | cons v vs ih =>
    rw [cons_append, putAll, putAll, ih, length_cons, Nat.add_right_comm i 1,
      Nat.add_assoc i]

theorem putAll_frame (t : IovTable) {i j : ℕ} (vs : List Bytes) (h : j < i ∨ i + vs.length ≤ j) :
    putAll t i vs j = t j := by
  induction vs generalizing t i with
  | nil => rfl
  | cons v vs ih =>
    rw [length_cons] at h
    rw [putAll, ih _ (by omega), update_of_ne (by omega)]

def tableBytes (t : IovTable) (cnt : ℕ) : Bytes := (List.range cnt).flatMap fun i => (t i).getD []

theorem tableBytes_putAll (t : IovTable) (vs : List Bytes) :
    tableBytes (putAll t 0 vs) vs.length = vs.flatten := by
  -- from the right, since a further write goes behind the others
  induction vs using List.reverseRecOn with
  | nil => rfl
  | append_singleton vs v ih =>
    have hlast : putAll t 0 (vs ++ [v]) vs.length = some v := by
      rw [putAll_append, Nat.zero_add, putAll, putAll, update_self]
    have hfirst : ∀ i ∈ List.range vs.length, (putAll t 0 (vs ++ [v]) i).getD [] =
        (putAll t 0 vs i).getD [] := by
      intro i hi
      rw [mem_range] at hi
      rw [putAll_append, putAll_frame _ _ (.inl (by omega))]
    rw [flatten_append, ← ih, length_append, length_singleton, tableBytes,
      range_succ, flatMap_append, flatMap_congr hfirst]
    simp [tableBytes, hlast]

theorem headerInto_eq (max i : ℕ) (t : IovTable) (lines : List HeaderLine) :
    headerInto max i t lines =
      (i + (headerVectors max i lines).length, putAll t i (headerVectors max i lines)) := by
  induction lines generalizing i t with
  | nil => rfl
  | cons line lines ih =>
    by_cases hm : i = max
    · simp [headerInto, headerVectors, hm, putAll]
    · rw [headerInto, if_neg hm, ih, headerVectors, if_neg hm, putAll, length_cons,
        Nat.add_right_comm i 1, Nat.add_assoc i]

theorem combineInto_eq (front mem : Bytes) (blocks : List Bytes)
    (hm : mem.length = blocks.flatten.length) :
    combineInto (front ++ mem) front.length blocks = some (front ++ blocks.flatten) := by
  induction blocks generalizing front mem with
  | nil =>
    rw [flatten_nil, length_nil, length_eq_zero_iff] at hm
    rw [hm]
    rfl
  | cons block blocks ih =>
    rw [flatten_cons, length_append] at hm
    obtain ⟨a, b, rfl, ha⟩ : ∃ a b, mem = a ++ b ∧ a.length = block.length :=
      ⟨mem.take block.length, mem.drop block.length, by simp, by simp; omega⟩
    rw [length_append, ha, Nat.add_left_cancel_iff] at hm
    have hcopy := memcpy_append front b ha
    have hrest := ih (front ++ block) b hm
    rw [length_append] at hrest
    rw [combineInto, ← append_assoc, hcopy]
    simpa using hrest

theorem bodyInto_eq {malloc : ℕ → Bytes} (hmalloc : ∀ n, (malloc n).length = n) (max i : ℕ)
    (t : IovTable) (blocks : List Bytes) :
    let r := bodyVectors max i blocks.flatten.length blocks
    bodyInto malloc max i blocks.flatten.length t blocks =
      some (i + r.1.length, putAll t i r.1, r.2) := by
  induction blocks generalizing i t with
  | nil => rfl
  | cons block blocks ih =>
    have hrest : (block ++ blocks.flatten).length - block.length = blocks.flatten.length := by
      rw [length_append, Nat.add_sub_cancel_left]
    by_cases hc : i + 1 = max ∧ blocks ≠ []
    · have hcombine := combineInto_eq [] (malloc (block :: blocks).flatten.length)
        (block :: blocks) (hmalloc _)
      rw [nil_append, nil_append, length_nil] at hcombine
      simp only [bodyInto, bodyVectors, if_pos hc, hcombine, combineFrom, take_length,
        Option.bind_eq_bind, Option.bind_some]
      rfl
    · have ih := ih (i + 1) (update t i (some block))
      simp only [bodyInto, bodyVectors, if_neg hc, flatten_cons, hrest, ih,
        Option.bind_eq_bind, Option.bind_some, length_cons, putAll]
      rw [Nat.add_right_comm i 1, Nat.add_assoc i]
      rfl

def headVectors (max : ℕ) (fields : Bytes × Bytes × Bytes) (lines : List HeaderLine) : List Bytes :=
  encodeStartLine fields ++ headerVectors max 6 lines

section Encode

variable {max : ℕ} {msg : HttpMessage} {fields : Bytes × Bytes × Bytes}

theorem encode_overflow (hf : startLine msg.parser.toParseState = some fields)
    (h : max ≤ (headVectors max fields msg.parser.headerList).length + 1) :
    encode max msg = (.error .EOVERFLOW, msg) := by
  rw [encode, hf]
  exact if_pos h

theorem encode_fit (hf : startLine msg.parser.toParseState = some fields)
    (h : (headVectors max fields msg.parser.headerList).length + 1 < max) :
    let head := headVectors max fields msg.parser.headerList
    let body := bodyVectors max (head.length + 1) msg.outputBodySize msg.outputBody
    (encode max msg).1 = .ok (head ++ [[CR, LF]] ++ body.1) ∧
      (encode max msg).2.outputBody = body.2 := by
  intro head body
  have hneg : ¬ (encodeStartLine fields ++ headerVectors max 6 msg.parser.headerList).length + 1 ≥
      max := Nat.not_le.mpr h
  have hlen : (encodeStartLine fields ++ headerVectors max 6 msg.parser.headerList ++
      [[CR, LF]]).length = head.length + 1 := by
    rw [length_append, length_singleton]
    rfl
  have hbody : bodyVectors max (encodeStartLine fields ++
      headerVectors max 6 msg.parser.headerList ++ [[CR, LF]]).length msg.outputBodySize
        msg.outputBody = body := by rw [hlen]
  rw [encode, hf]
  simp only [if_neg hneg]
  rw [← hbody]
  exact ⟨rfl, rfl⟩

variable (max) in
theorem encodeInto_eq {malloc : ℕ → Bytes} (hmalloc : ∀ n, (malloc n).length = n)
    (hf : startLine msg.parser.toParseState = some fields) (t : IovTable) : ∃ written,
      encodeInto malloc max msg.parser.toParseState msg.outputBody msg.outputBodySize t =
        some ((encode max msg).1.map List.length, putAll t 0 written,
          (encode max msg).2.outputBody) ∧
      ∀ vectors, (encode max msg).1 = .ok vectors → written = vectors := by
  let head := headVectors max fields msg.parser.headerList
  have hheader : headerInto max 6 (putAll t 0 (encodeStartLine fields)) msg.parser.headerList =
      (head.length, putAll t 0 head) := by
    have hput := putAll_append t 0 (encodeStartLine fields)
      (headerVectors max 6 msg.parser.headerList)
    have hlen : head.length = 6 + (headerVectors max 6 msg.parser.headerList).length :=
      length_append
    rw [headerInto_eq, hlen]
    exact congrArg (Prod.mk _) hput.symm
  by_cases hmax : max ≤ head.length + 1
  · rw [encode_overflow hf hmax]
    refine ⟨head, ?_, (by simp)⟩
    simp only [encodeInto, hf, hheader]
    rw [if_pos hmax]
    rfl
  · obtain ⟨hvectors, hblocks⟩ := encode_fit hf (by simpa using hmax)
    have hcrlf : update (putAll t 0 head) head.length (some [CR, LF]) =
        putAll t 0 (head ++ [[CR, LF]]) := by
      rw [putAll_append, Nat.zero_add]
      rfl
    have hbody := bodyInto_eq hmalloc max (head.length + 1) (putAll t 0 (head ++ [[CR, LF]]))
      msg.outputBody
    rw [← msg.bodySize] at hbody
    rw [hvectors, hblocks]
    refine ⟨_, ?_, fun vectors hv => Except.ok.inj hv⟩
    have hlen : (head ++ [[CR, LF]]).length = head.length + 1 := by
      rw [length_append, length_singleton]
    have happ := putAll_append t 0 (head ++ [[CR, LF]])
      (bodyVectors max (head.length + 1) msg.outputBodySize msg.outputBody).1
    rw [hlen, Nat.zero_add] at happ
    simp only [encodeInto, hf, hheader]
    rw [if_neg hmax, hcrlf, hbody, Except.map, length_append, hlen]
    exact congrArg some (congrArg (Prod.mk _) (congrArg (Prod.mk · _) happ.symm))

end Encode

theorem headerVectors_length {max i : ℕ} (lines : List HeaderLine) (hi : i ≤ max) :
    i + (headerVectors max i lines).length = min (i + lines.length) max := by
  induction lines generalizing i with
  | nil => simp [headerVectors, hi]
  | cons line lines ih =>
    by_cases hm : i = max
    · simp [headerVectors, hm]
    · have ih := ih (i := i + 1) (by omega)
      simp only [headerVectors, if_neg hm, length_cons]
      omega

theorem bodyVectors_length {max i : ℕ} (size : ℕ) (blocks : List Bytes) (hi : i < max) :
    i + (bodyVectors max i size blocks).1.length ≤ max := by
  induction blocks generalizing i size with
  | nil => exact hi.le
  | cons block blocks ih =>
    by_cases hc : i + 1 = max ∧ blocks ≠ []
    · simp only [bodyVectors, if_pos hc, length_singleton]
      omega
    · simp only [bodyVectors, if_neg hc, length_cons]
      by_cases hb : blocks = []
      · subst hb
        simp only [bodyVectors, length_nil]
        omega
      · have hlt : i + 1 < max := by
          by_contra hle
          exact hc ⟨by omega, hb⟩
        have ih := ih (size - block.length) hlt
        omega

theorem headVectors_length {max : ℕ} (fields : Bytes × Bytes × Bytes) (lines : List HeaderLine)
    (hmax : 6 ≤ max) : (headVectors max fields lines).length + 1 < max ↔ lines.length + 7 < max := by
  have hlen := headerVectors_length lines hmax
  have happ : (headVectors max fields lines).length = 6 + (headerVectors max 6 lines).length :=
    length_append
  omega

theorem encode_outputBody (max : ℕ) (msg : HttpMessage) :
    (encode max msg).2.outputBody.flatten = msg.outputBody.flatten ∧
      (encode max msg).2.outputBodySize = msg.outputBodySize ∧
      (encode max msg).2.parser = msg.parser := by
  unfold encode
  split
  · exact ⟨rfl, rfl, rfl⟩
  · simp only
    split_ifs
    · exact ⟨rfl, rfl, rfl⟩
    · next fields _ _ =>
      have hbody := (bodyVectors_flatten max (encodeStartLine fields ++
        headerVectors max 6 msg.parser.headerList ++ [[CR, LF]]).length msg.outputBody).2
      rw [← msg.bodySize] at hbody
      exact ⟨hbody, rfl, rfl⟩

theorem encode_ok_length {max : ℕ} {msg : HttpMessage} {fields : Bytes × Bytes × Bytes}
    (hf : startLine msg.parser.toParseState = some fields)
    (h : (headVectors max fields msg.parser.headerList).length + 1 < max) :
    ∃ vectors, (encode max msg).1 = .ok vectors ∧ vectors.length ≤ max := by
  have hbody := bodyVectors_length msg.outputBodySize msg.outputBody h
  refine ⟨_, (encode_fit hf h).1, ?_⟩
  rw [length_append, length_append, length_singleton]
  exact hbody

theorem encodeInto_spec {malloc : ℕ → Bytes} (hmalloc : ∀ n, (malloc n).length = n) {max : ℕ}
    (hmax : 6 ≤ max) {msg : HttpMessage} {fields : Bytes × Bytes × Bytes}
    (hf : startLine msg.parser.toParseState = some fields) (t : IovTable) : ∃ ret t',
      encodeInto malloc max msg.parser.toParseState msg.outputBody msg.outputBodySize t =
        some (ret, t', (encode max msg).2.outputBody) ∧
      if max ≤ msg.parser.headerList.length + 7 then
        ret = .error .EOVERFLOW ∧ (encode max msg).2 = msg
      else ∃ cnt, ret = .ok cnt ∧ cnt ≤ max ∧ (∀ j, cnt ≤ j → t' j = t j) ∧
        tableBytes t' cnt = wire fields msg.parser.headerList msg.outputBody.flatten := by
  obtain ⟨written, hinto, hwritten⟩ := encodeInto_eq max hmalloc hf t
  have hfit := headVectors_length fields msg.parser.headerList hmax
  refine ⟨_, _, hinto, ?_⟩
  split_ifs with hle
  · rw [encode_overflow hf (by omega)]
    exact ⟨rfl, rfl⟩
  · obtain ⟨vectors, hvectors, hlen⟩ := encode_ok_length hf (hfit.mpr (by omega))
    obtain ⟨fields', hf', hbytes⟩ := encode_ok (Prod.ext hvectors rfl)
    cases hf.symm.trans hf'
    rw [hwritten vectors hvectors, hvectors]
    refine ⟨vectors.length, rfl, hlen, fun j hj => ?_, ?_⟩
    · exact putAll_frame t vectors (.inr (by omega))
    · rw [tableBytes_putAll, hbytes]

/-- In any table and any memory, `encode` fails exactly if the headers do not fit, and otherwise
    fills the first `cnt` entries with the message and touches no other. -/
theorem encode_respects_limit {malloc : ℕ → Bytes} (hmalloc : ∀ n, (malloc n).length = n)
    {max : ℕ} (hmax : 6 ≤ max) {msg : HttpMessage} {fields : Bytes × Bytes × Bytes}
    (hf : startLine msg.parser.toParseState = some fields) (t : IovTable) :
    ∃ ret t' blocks,
      encodeInto malloc max msg.parser.toParseState msg.outputBody msg.outputBodySize t =
        some (ret, t', blocks) ∧
      (if max ≤ msg.parser.headerList.length + 7 then
        ret = .error .EOVERFLOW ∧ blocks = msg.outputBody
      else ∃ cnt, ret = .ok cnt ∧ cnt ≤ max ∧ (∀ j, cnt ≤ j → t' j = t j) ∧
        tableBytes t' cnt = wire fields msg.parser.headerList msg.outputBody.flatten) ∧
      blocks.flatten = msg.outputBody.flatten ∧ msg.outputBodySize = blocks.flatten.length ∧
      ∀ malloc' : ℕ → Bytes, (∀ n, (malloc' n).length = n) → ∀ t₂, ∃ ret₂ t₂' blocks₂,
        encodeInto malloc' max msg.parser.toParseState blocks msg.outputBodySize t₂ =
          some (ret₂, t₂', blocks₂) ∧
        (ret = .error .EOVERFLOW → ret₂ = .error .EOVERFLOW) ∧
        ∀ cnt, ret = .ok cnt → ∃ cnt₂, ret₂ = .ok cnt₂ ∧ tableBytes t₂' cnt₂ = tableBytes t' cnt := by
  obtain ⟨hbytes, hsize, hparser⟩ := encode_outputBody max msg
  obtain ⟨ret, t', hinto, hspec⟩ := encodeInto_spec hmalloc hmax hf t
  refine ⟨ret, t', _, hinto, ?_, hbytes, ?_, ?_⟩
  · split_ifs at hspec ⊢ with hle
    · exact ⟨hspec.1, congrArg HttpMessage.outputBody hspec.2⟩
    · exact hspec
  · rw [hbytes, msg.bodySize]
  · intro malloc' hmalloc' t₂
    -- the second call is made on the message that the first one left
    have hf₂ : startLine (encode max msg).2.parser.toParseState = some fields := by
      rw [hparser, hf]
    obtain ⟨ret₂, t₂', hinto₂, hspec₂⟩ := encodeInto_spec hmalloc' hmax hf₂ t₂
    rw [hparser, hsize] at hinto₂
    rw [hparser, hbytes] at hspec₂
    refine ⟨ret₂, t₂', _, hinto₂, ?_, ?_⟩
    · intro hret
      split_ifs at hspec hspec₂ with hle
      · exact hspec₂.1
      · obtain ⟨cnt, hok, -⟩ := hspec
        cases hret.symm.trans hok
    · intro cnt hret
      split_ifs at hspec hspec₂ with hle
      · cases hret.symm.trans hspec.1
      · obtain ⟨cnt', hok, -, -, hwire⟩ := hspec
        obtain ⟨cnt₂, hok₂, -, -, hwire₂⟩ := hspec₂
        cases hret.symm.trans hok
        exact ⟨cnt₂, hok₂, hwire₂.trans hwire.symm⟩

def blocksRequest : HttpMessage where
  parser := { httpParserInit false with
    method := some (bytes "POST"), uri := some (bytes "/"), version := some (bytes "HTTP/1.1")
    headerList := [HeaderLine.make (bytes "Host") (bytes "a")] }
  outputBody := [bytes "ab", bytes "c", bytes "de"]
  outputBodySize := 5
  request := fun _ => ⟨rfl, rfl⟩
  response := by rintro ⟨⟩
  bodySize := rfl

theorem blocksRequest_combined : ∃ ret t' blocks,
    encodeInto (List.replicate · 0) 9 blocksRequest.parser.toParseState blocksRequest.outputBody 5
      (fun _ => none) = some (ret, t', blocks) ∧
    ∃ cnt, ret = .ok cnt ∧ cnt ≤ 9 ∧ (∀ j, cnt ≤ j → t' j = none) ∧
      tableBytes t' cnt = wire (bytes "POST", bytes "/", bytes "HTTP/1.1")
        blocksRequest.parser.headerList blocksRequest.outputBody.flatten := by
  have hfit : ¬ 9 ≤ blocksRequest.parser.headerList.length + 7 := by decide
  have hmalloc : ∀ n, (List.replicate n (0 : UInt8)).length = n := fun n => length_replicate
  have hfields : startLine blocksRequest.parser.toParseState =
      some (bytes "POST", bytes "/", bytes "HTTP/1.1") := rfl
  obtain ⟨ret, t', blocks, hinto, hspec, -⟩ :=
    encode_respects_limit hmalloc (show 6 ≤ 9 by decide) hfields fun _ => none
  rw [if_neg hfit] at hspec
  exact ⟨ret, t', blocks, hinto, hspec⟩

end MyWorkflow.Http
