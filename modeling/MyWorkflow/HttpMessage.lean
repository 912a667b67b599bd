import MyWorkflow.HttpParser

set_option autoImplicit false

/-!
# HTTP messages and their encoding

`HttpMessage` holds a parser for the start line and the headers and a list of output body
blocks. `encode` fills a table of at most `max` iovecs; here the table is a list of byte
strings and `i` its length.
-/
namespace MyWorkflow.Http
open List CString

/-- An `HttpRequest` when `parser.isResp` is false, otherwise an `HttpResponse`. -/
structure HttpMessage where
  parser : HttpParser
  outputBody : List Bytes
  outputBodySize : ℕ
  request : parser.isResp = false → parser.code = none ∧ parser.phrase = none
  response : parser.isResp = true → parser.method = none ∧ parser.uri = none
  bodySize : outputBodySize = outputBody.flatten.length

inductive EncodeError where
  | EBADMSG
  | EOVERFLOW
deriving DecidableEq, Repr

def appendOutputBody (buf : Bytes) (msg : HttpMessage) : HttpMessage :=
  { msg with
    outputBody := msg.outputBody ++ [buf]
    outputBodySize := msg.outputBodySize + buf.length
    bodySize := by simp [msg.bodySize] }

def startLine (p : ParseState) : Option (Bytes × Bytes × Bytes) :=
  match p.method with
  | some method => do return (method, ← p.uri, ← p.version)
  | none => do return (← p.version, ← p.code, ← p.phrase)

def HeaderLine.text (line : HeaderLine) : Bytes :=
  line.buf.take (line.nameLen + 2 + line.valueLen + 2)

def headerVectors (max : ℕ) : ℕ → List HeaderLine → List Bytes
  | _, [] => []
  | i, line :: lines => if i = max then [] else line.text :: headerVectors max (i + 1) lines

/-- `combine_from`: one block of `size` bytes for all blocks from `pos` on. -/
def combineFrom (blocks : List Bytes) (size : ℕ) : Bytes := blocks.flatten.take size

def bodyVectors (max : ℕ) : ℕ → ℕ → List Bytes → List Bytes × List Bytes
  | _, _, [] => ([], [])
  | i, size, block :: blocks =>
    if i + 1 = max ∧ blocks ≠ [] then
      let combined := combineFrom (block :: blocks) size
      ([combined], [combined])
    else
      let (vectors, rest) := bodyVectors max (i + 1) (size - block.length) blocks
      (block :: vectors, block :: rest)

theorem bodyVectors_flatten (max i : ℕ) (blocks : List Bytes) :
    (bodyVectors max i blocks.flatten.length blocks).1.flatten = blocks.flatten ∧
      (bodyVectors max i blocks.flatten.length blocks).2.flatten = blocks.flatten := by
  induction blocks generalizing i with
  | nil => exact ⟨rfl, rfl⟩
  | cons block blocks ih =>
    have hrest : (block ++ blocks.flatten).length - block.length = blocks.flatten.length := by
      rw [length_append, Nat.add_sub_cancel_left]
    by_cases hc : i + 1 = max ∧ blocks ≠ []
    · simp only [bodyVectors, if_pos hc, combineFrom, take_length, flatten_singleton,
        and_self]
    · simp only [bodyVectors, if_neg hc, flatten_cons, hrest]
      rw [(ih (i + 1)).1, (ih (i + 1)).2]
      exact ⟨rfl, rfl⟩

def encodeStartLine : Bytes × Bytes × Bytes → List Bytes
  | (a, b, c) => [strdup a, [SP], strdup b, [SP], strdup c, [CR, LF]]

/-- `HttpMessage::encode` and the message it leaves, whose body blocks may be combined. -/
def encode (max : ℕ) (msg : HttpMessage) : Except EncodeError (List Bytes) × HttpMessage :=
  match startLine msg.parser.toParseState with
  | none => (.error .EBADMSG, msg)
  | some fields =>
    let vectors := encodeStartLine fields ++ headerVectors max 6 msg.parser.headerList
    if vectors.length + 1 ≥ max then (.error .EOVERFLOW, msg)
    else
      let vectors := vectors ++ [[CR, LF]]
      let body := bodyVectors max vectors.length msg.outputBodySize msg.outputBody
      (.ok (vectors ++ body.1),
        { msg with
          outputBody := body.2
          bodySize := by
            have hbody := (bodyVectors_flatten max vectors.length msg.outputBody).2
            rw [← msg.bodySize] at hbody
            rw [hbody, msg.bodySize] })

theorem headerVectors_eq (max i : ℕ) (lines : List HeaderLine) (hi : i ≤ max)
    (h : i + (headerVectors max i lines).length < max) :
    headerVectors max i lines = lines.map HeaderLine.text := by
  induction lines generalizing i with
  | nil => rfl
  | cons line lines ih =>
    by_cases hm : i = max
    · omega
    · simp only [headerVectors, if_neg hm, length_cons, map_cons] at h ⊢
      rw [ih (i + 1) (by omega) (by omega)]

def wire (fields : Bytes × Bytes × Bytes) (lines : List HeaderLine) (body : Bytes) : Bytes :=
  strdup fields.1 ++ SP :: (strdup fields.2.1 ++ SP :: (strdup fields.2.2 ++
    CR :: LF :: ((lines.map HeaderLine.text).flatten ++ CR :: LF :: body)))

theorem encode_ok {max : ℕ} {msg msg' : HttpMessage} {vectors : List Bytes}
    (h : encode max msg = (.ok vectors, msg')) : ∃ fields,
      startLine msg.parser.toParseState = some fields ∧
        vectors.flatten = wire fields msg.parser.headerList msg.outputBody.flatten := by
  unfold encode at h
  split at h
  · cases h
  · next fields hf =>
    simp only at h
    split_ifs at h with hmax
    · cases h
    · have hv := congrArg Prod.fst h
      simp only [Except.ok.injEq] at hv
      have hlen : (encodeStartLine fields).length = 6 := rfl
      simp only [length_append, hlen] at hmax
      refine ⟨fields, hf, ?_⟩
      rw [← hv, msg.bodySize, headerVectors_eq max 6 _ (by omega) (by omega)]
      simp only [flatten_append, (bodyVectors_flatten max _ msg.outputBody).1]
      simp [wire, encodeStartLine]

end MyWorkflow.Http
