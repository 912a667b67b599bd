import MyWorkflow.CString
import MyWorkflow.Recognizer

set_option autoImplicit false

/-!
# The JSON parser

The functions of `json_parser.c` behind `json_value_parse`, on the bytes before the terminating
NUL. Allocation never fails here, so -1 does not occur. An `int` that would pass `INT_MAX`, or a
read behind the NUL, leaves what C defines.
-/
namespace MyWorkflow.Json
open CString Recognizer

def depthLimit : ℕ := 1024
def intMax : ℕ := 2 ^ 31 - 1
def numberMax : ℕ := 1000000

abbrev QUOTE : UInt8 := 34
abbrev BACKSLASH : UInt8 := 92
abbrev COMMA : UInt8 := 44

/-- `bad` and `deep` are the return values -2 and -3. -/
inductive JsonError where
  | bad
  | deep
  | undefined
deriving DecidableEq, Repr

/-- What `__evaluate_json_number` computes the `double` from: the text of the integer with its
    sign, the digits of the fraction, and the exponent. -/
structure JsonNumber where
  integer : Bytes
  fraction : Bytes
  exp : ℤ
deriving DecidableEq, Repr

/-- A string is what its buffer holds before the NUL that ends it; members and elements are in
    the order of their list. -/
inductive JsonValue where
  | string (buffer : Bytes)
  | number (value : JsonNumber)
  | object (size : ℕ) (members : List (Bytes × JsonValue))
  | array (size : ℕ) (elements : List JsonValue)
  | true
  | false
  | null

/-- The loop of `__json_string_length`; a count of `INT_MAX` cannot go up. -/
def stringLengthFrom : ℕ → Bytes → Except JsonError ℕ
  | _, [] => .error .bad
  | len, c :: cursor =>
    if c = QUOTE then .ok len
    else if c = BACKSLASH then
      match cursor with
      | [] => .error .bad
      | _ :: cursor => if len = intMax then .error .undefined else stringLengthFrom (len + 1) cursor
    else if c < 0x20 then .error .bad
    else if len = intMax then .error .undefined
    else stringLengthFrom (len + 1) cursor

def jsonStringLength (cursor : Bytes) : Except JsonError ℕ := stringLengthFrom 0 cursor

def hexVal (c : UInt8) : Option ℕ :=
  if 48 ≤ c && c ≤ 57 then some (c.toNat - 48)
  else if 65 ≤ c && c ≤ 70 then some (c.toNat - 65 + 10)
  else if 97 ≤ c && c ≤ 102 then some (c.toNat - 97 + 10)
  else none

def hex4From : ℕ → ℕ → Bytes → Option (ℕ × Bytes)
  | 0, code, cursor => some (code, cursor)
  | _ + 1, _, [] => none
  | i + 1, code, c :: cursor =>
    match hexVal c with
    | some hex => hex4From i ((code <<< 4) + hex) cursor
    | none => none

def parseJsonHex4 (cursor : Bytes) : Option (ℕ × Bytes) := hex4From 4 0 cursor

def utf8 (code : ℕ) : Bytes :=
  if code ≤ 0x7f then [UInt8.ofNat code]
  else if code ≤ 0x7ff then
    [UInt8.ofNat (0xc0 ||| (code >>> 6)), UInt8.ofNat (0x80 ||| (code &&& 0x3f))]
  else if code ≤ 0xffff then
    [UInt8.ofNat (0xe0 ||| (code >>> 12)), UInt8.ofNat (0x80 ||| ((code >>> 6) &&& 0x3f)),
      UInt8.ofNat (0x80 ||| (code &&& 0x3f))]
  else
    [UInt8.ofNat (0xf0 ||| (code >>> 18)), UInt8.ofNat (0x80 ||| ((code >>> 12) &&& 0x3f)),
      UInt8.ofNat (0x80 ||| ((code >>> 6) &&& 0x3f)), UInt8.ofNat (0x80 ||| (code &&& 0x3f))]

/-- `__parse_json_unicode`: the bytes written, and the text behind the escape. -/
def parseJsonUnicode (cursor : Bytes) : Option (Bytes × Bytes) :=
  match parseJsonHex4 cursor with
  | none => none
  | some (code, cursor) =>
    if 0xdc00 ≤ code ∧ code ≤ 0xdfff then none
    else if 0xd800 ≤ code ∧ code ≤ 0xdbff then
      match cursor with
      | 92 :: 117 :: cursor =>
        match parseJsonHex4 cursor with
        | none => none
        | some (next, cursor) =>
          if next < 0xdc00 ∨ 0xdfff < next then none
          else
            some (utf8 ((((code &&& 0x3ff) <<< 10) ||| (next &&& 0x3ff)) + 0x10000), cursor)
      | _ => none
    else some (utf8 code, cursor)

def escapes : List (UInt8 × UInt8) :=
  [(34, 34), (92, 92), (47, 47), (98, 8), (102, 12), (110, 10), (114, 13), (116, 9)]

/-- The loop of `__parse_json_string`; `str` is what has been written. A NUL before the closing
    quote would be passed by, and the next read is behind it. -/
def parseStringFrom : ℕ → Bytes → Bytes → Except JsonError Bytes × Bytes
  | 0, str, _ => (.error .bad, str)
  | _ + 1, str, [] => (.error .undefined, str ++ [0])
  | fuel + 1, str, c :: cursor =>
    if c = QUOTE then (.ok cursor, str)
    else if c = BACKSLASH then
      match cursor with
      | [] => (.error .bad, str)
      | e :: cursor =>
        match escapes.lookup e with
        | some byte => parseStringFrom fuel (str ++ [byte]) cursor
        | none =>
          if e = 117 then
            match parseJsonUnicode cursor with
            | some (written, cursor) => parseStringFrom fuel (str ++ written) cursor
            | none => (.error .bad, str)
          else (.error .bad, str)
    else parseStringFrom fuel (str ++ [c]) cursor

/-- `__parse_json_string`: the new cursor or an error, and the bytes written before the NUL. -/
def parseJsonString (cursor : Bytes) : Except JsonError Bytes × Bytes :=
  parseStringFrom (cursor.length + 1) [] cursor

/-- A string behind its opening quote: first its length, then room for it and `extra` bytes more as
    an `int` counts them, then its bytes. -/
def readString (extra : ℕ) : Reader UInt8 JsonError Bytes := fun cursor =>
  match jsonStringLength cursor with
  | .error e => .error e
  | .ok len =>
    if intMax < len + extra then .error .undefined
    else
      match parseJsonString cursor with
      | (.ok cursor, str) => .ok (str, cursor)
      | (.error e, _) => .error e

def skipUnsigned (cursor : Bytes) : Option Bytes :=
  match cursor with
  | [] => none
  | d :: cursor =>
    if !isdigit d then none
    else if d = 48 && isdigit (cursor.headD 0) then none
    else some (cursor.dropWhile isdigit)

def skipInteger (cursor : Bytes) : Option Bytes :=
  skipUnsigned (if cursor.head? = some 45 then cursor.tail else cursor)

def readFraction (cursor : Bytes) : Option (Bytes × Bytes) :=
  match cursor with
  | 46 :: cursor =>
    if isdigit (cursor.headD 0) then some (cursor.takeWhile isdigit, cursor.dropWhile isdigit)
    else none
  | _ => some ([], cursor)

def exponentFrom : ℕ → Bytes → ℕ × Bytes
  | exp, [] => (exp, [])
  | exp, c :: cursor =>
    if isdigit c && exp < 2000000 then exponentFrom (exp * 10 + (c.toNat - 48)) cursor
    else (exp, c :: cursor)

def readExponentDigits (cursor : Bytes) : Option (ℕ × Bytes) :=
  match cursor with
  | [] => none
  | d :: cursor =>
    if !isdigit d then none
    else
      let (exp, cursor) := exponentFrom (d.toNat - 48) cursor
      some (exp, cursor.dropWhile isdigit)

def readSigned (cursor : Bytes) : Option (ℤ × Bytes) :=
  if cursor.head? = some 45 then
    (readExponentDigits cursor.tail).map fun (exp, rest) => (-(exp : ℤ), rest)
  else
    (readExponentDigits (if cursor.head? = some 43 then cursor.tail else cursor)).map
      fun (exp, rest) => ((exp : ℤ), rest)

def readExponent (cursor : Bytes) : Option (ℤ × Bytes) :=
  if cursor.head? = some 69 ∨ cursor.head? = some 101 then readSigned cursor.tail
  else some (0, cursor)

def parseJsonNumber : Reader UInt8 JsonError JsonNumber := fun cursor =>
  match skipInteger cursor with
  | none => .error .bad
  | some c1 =>
    match readFraction c1 with
    | none => .error .bad
    | some (fraction, c2) =>
      match readExponent c2 with
      | none => .error .bad
      | some (exp, c3) =>
        if numberMax < cursor.length - c3.length then .error .bad
        else .ok (⟨cursor.take (cursor.length - c1.length), fraction, exp⟩, c3)

def parseJsonMember (value : Reader UInt8 JsonError JsonValue) :
    Reader UInt8 JsonError (Bytes × JsonValue) := fun cursor =>
  match cursor with
  | 34 :: cursor =>
    -- `offsetof(json_member_t, name) + ret + 1` is a `size_t`
    match readString 0 cursor with
    | .error e => .error e
    | .ok (name, cursor) =>
      match cursor.dropWhile isspace with
      | 58 :: cursor =>
        match value (cursor.dropWhile isspace) with
        | .error e => .error e
        | .ok (val, cursor) => .ok ((name, val), cursor)
      | _ => .error .bad
  | _ => .error .bad

/-- `__parse_json_members` and `__parse_json_elements`: nothing up to `close`, or the loop. -/
def parseJsonItems {α : Type} (item : Reader UInt8 JsonError α) (close : UInt8) :
    Reader UInt8 JsonError (ℕ × List α) := fun cursor =>
  let cursor := cursor.dropWhile isspace
  if cursor.head? = some close then .ok ((0, []), cursor.tail)
  else separated item isspace COMMA close .bad .undefined intMax (cursor.length + 1) 0 cursor

def parseJsonMembers (value : Reader UInt8 JsonError JsonValue) :
    Reader UInt8 JsonError (ℕ × List (Bytes × JsonValue)) :=
  parseJsonItems (parseJsonMember value) 125

def parseJsonElements (value : Reader UInt8 JsonError JsonValue) :
    Reader UInt8 JsonError (ℕ × List JsonValue) :=
  parseJsonItems value 93

def parseJsonScalar : Reader UInt8 JsonError JsonValue := fun cursor =>
  match cursor with
  | [] => .error .bad
  | c :: rest =>
    if c = QUOTE then
      -- `malloc(ret + 1)`
      match readString 1 rest with
      | .ok (str, rest) => .ok (.string str, rest)
      | .error e => .error e
    else if c = 45 || isdigit c then
      match parseJsonNumber cursor with
      | .ok (num, rest) => .ok (.number num, rest)
      | .error e => .error e
    else if c = 116 then
      if cursor.take 4 = bytes "true" then .ok (.true, cursor.drop 4) else .error .bad
    else if c = 102 then
      if cursor.take 5 = bytes "false" then .ok (.false, cursor.drop 5) else .error .bad
    else if c = 110 then
      if cursor.take 4 = bytes "null" then .ok (.null, cursor.drop 4) else .error .bad
    else .error .bad

/-- `__parse_json_value` at a depth that leaves room for `room` containers inside each other;
    `JSON_DEPTH_LIMIT` is reached where there is none. -/
def parseJsonValue : ℕ → Reader UInt8 JsonError JsonValue
  | 0, cursor =>
    if cursor.head? = some 123 ∨ cursor.head? = some 91 then .error .deep
    else parseJsonScalar cursor
  | room + 1, cursor =>
    if cursor.head? = some 123 then
      match parseJsonMembers (parseJsonValue room) cursor.tail with
      | .ok ((size, members), rest) => .ok (.object size members, rest)
      | .error e => .error e
    else if cursor.head? = some 91 then
      match parseJsonElements (parseJsonValue room) cursor.tail with
      | .ok ((size, elements), rest) => .ok (.array size elements, rest)
      | .error e => .error e
    else parseJsonScalar cursor

/-- `json_value_parse`: a value, or NULL, or behaviour that C leaves undefined. -/
inductive ParseResult where
  | value (val : JsonValue)
  | null
  | undefined

def jsonValueParse (text : Bytes) : ParseResult :=
  match parseJsonValue depthLimit (text.dropWhile isspace) with
  | .ok (val, cursor) =>
    match cursor.dropWhile isspace with
    | [] => .value val
    | _ :: _ => .null
  | .error .undefined => .undefined
  | .error _ => .null

end MyWorkflow.Json
