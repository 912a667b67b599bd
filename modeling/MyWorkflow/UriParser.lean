import MyWorkflow.UrlCodec

set_option autoImplicit false

/-!
# Parsing a URI

`URIParser::parse`. A text is the list of its bytes before the NUL, and the loops go over the text
that is left together with its index. An `int` that does not hold an index has no result: `i` only
goes up, so it is tested where a loop has ended. Allocation never fails.
-/
namespace MyWorkflow.Uri
open CString StringUtil

inductive Part where
  | scheme
  | userinfo
  | host
  | port
  | query
  | fragment
  | path
deriving DecidableEq, Repr

def parts : List Part := [.scheme, .userinfo, .host, .port, .query, .fragment, .path]

def validChar : Part → UInt8 → Bool
  | .scheme, c => isalnum c || (bytes "+-.").contains c
  | .userinfo, c => isalnum c || (bytes "!$%&'()*+,-.:;=_~").contains c
  | .host, c => isalnum c || (bytes "!$%&'()*+,-.:;=_~[]").contains c
  | .port, c => isdigit c
  | _, _ => true

/-- `authority_map`; 0 is `URI_SCHEME`, and `none` is `URI_PART_ELEMENTS`. -/
def authorityMap (c : UInt8) : Option Part :=
  if c = 0 then none
  else if c = 35 then some .fragment
  else if c = 47 then some .path
  else if c = 58 then some .host
  else if c = 63 then some .query
  else if c = 64 then some .userinfo
  else some .scheme

structure Scan where
  start : Part → ℕ := fun _ => 0
  stop : Part → ℕ := fun _ => 0
  preState : Option Part := some .scheme
  inIpv6 : Bool := false
  skipPath : Bool := false

namespace Scan

def setStart (p : Part) (i : ℕ) (st : Scan) : Scan :=
  { st with start := Function.update st.start p i }

def setStop (p : Part) (i : ℕ) (st : Scan) : Scan :=
  { st with stop := Function.update st.stop p i }

def setPre (p : Option Part) (st : Scan) : Scan := { st with preState := p }

/-- `end_idx[pre_state] = i`, which is not asked for with `URI_PART_ELEMENTS`. -/
def close (i : ℕ) (st : Scan) : Scan :=
  match st.preState with
  | some p => st.setStop p i
  | none => st

end Scan

/-- `for (i = 0; str[i]; i++)`: `end_idx[URI_SCHEME]`, `i` and the text left. -/
def schemeLoop : Bytes → ℕ → ℕ × ℕ × Bytes
  | [], i => (0, i, [])
  | c :: s, i => if c = 58 then (i, i + 1, s) else schemeLoop s (i + 1)

def Scan.atUserinfo (next : Option UInt8) (i : ℕ) (st : Scan) : Scan :=
  let st := if next = some 91 then { st with inIpv6 := true } else st
  ((st.setStop .userinfo i).setStart .host (i + 1)).setPre (some .host)

def Scan.atHost (prev : UInt8) (i : ℕ) (st : Scan) : Scan :=
  let st := if prev = 93 then { st with inIpv6 := false } else st
  if !st.inIpv6 then ((st.setStop .host i).setStart .port (i + 1)).setPre (some .port) else st

def Scan.atQuery (i : ℕ) (st : Scan) : Scan :=
  { ((st.close i).setStart .query (i + 1)).setPre (some .query) with skipPath := true }

def turn (prev c : UInt8) (next : Option UInt8) (i : ℕ) (st : Scan) : Scan :=
  match authorityMap c with
  | some .userinfo => st.atUserinfo next i
  | some .host => st.atHost prev i
  | some .query => st.atQuery i
  | _ => st

def authorityLoop : UInt8 → Bytes → ℕ → Scan → Bytes × ℕ × Scan
  | _, [], i, st => ([], i, { st with skipPath := true })
  | prev, c :: s, i, st =>
    match authorityMap c with
    | none => (c :: s, i, { st with skipPath := true })
    | some .fragment =>
      let st := (st.close i).setStart .fragment (i + 1)
      let st := (st.setStop .fragment (i + (c :: s).length)).setPre none
      (c :: s, i, { st with skipPath := true })
    | some .path =>
      if st.skipPath then authorityLoop c s (i + 1) st else (c :: s, i, st.setStart .path i)
    | _ => authorityLoop c s (i + 1) (turn prev c s.head? i st)

/-- `while (str[i + 1])`: ends at a `#` or at the last byte. -/
def skipQuery : UInt8 → Bytes → ℕ → UInt8 × Bytes × ℕ
  | c, [], i => (c, [], i)
  | _, d :: s, i => if d = 35 then (d, s, i + 1) else skipQuery d s (i + 1)

def toFragment (i : ℕ) (st : Scan) : Scan :=
  ((st.close i).setStart .fragment (i + 1)).setPre (some .fragment)

def toQuery (i : ℕ) (st : Scan) : Scan :=
  ((st.setStop .path i).setStart .query (i + 1)).setPre (some .query)

def pathLoop : Bytes → ℕ → Scan → Bytes × ℕ × Scan
  | [], i, st => ([], i, st)
  | c :: s, i, st =>
    if c = 63 then
      let st := toQuery i st
      match skipQuery c s i with
      | (d, s, i) => if d = 35 then (d :: s, i, toFragment i st) else (s, i + 1, st)
    else if c = 35 then (c :: s, i, toFragment i st)
    else pathLoop s (i + 1) st

def scanAuthority (colon i : ℕ) (s : Bytes) : Bytes × ℕ × Scan :=
  let st : Scan := {}
  let st := st.setStop .scheme colon
  match s with
  | 47 :: 47 :: s =>
    let i := i + 2
    let st := st.setPre (some .host)
    let st := if s.head? = some 91 then { st with inIpv6 := true } else st.setStart .userinfo i
    authorityLoop 47 s i (st.setStart .host i)
  | s => (s, i, (st.setPre (some .path)).setStart .path i)

def scan (colon i : ℕ) (s : Bytes) : ℕ × Scan :=
  let (s, i, st) := scanAuthority colon i s
  let st := st.close i
  if st.skipPath then (i, st)
  else
    let (s, i, st) := pathLoop s i (st.setPre (some .path))
    (i, st.close (i + s.length))

def INT_MAX : ℕ := 2147483647

def Scan.fits (i : ℕ) (st : Scan) : Bool :=
  i ≤ INT_MAX && parts.all fun p => st.start p ≤ INT_MAX && st.stop p ≤ INT_MAX

def slice (str : Bytes) (start stop : ℕ) : Bytes := (str.take stop).drop start

def Scan.valid (str : Bytes) (st : Scan) : Bool :=
  [Part.scheme, .userinfo, .host, .port].all fun p =>
    (slice str (st.start p) (st.stop p)).all (validChar p)

def Scan.component (str : Bytes) (st : Scan) (p : Part) : Option Bytes :=
  if st.start p < st.stop p then
    let text := slice str (st.start p) (st.stop p)
    if p = .host ∧ text.head? = some 91 ∧ text.getLast? = some 93 then some text.tail.dropLast
    else some text
  else none

inductive UriState where
  | init
  | success
  | invalid
  | error
deriving DecidableEq, Repr

structure ParsedURI where
  scheme : Option Bytes := none
  userinfo : Option Bytes := none
  host : Option Bytes := none
  port : Option Bytes := none
  path : Option Bytes := none
  query : Option Bytes := none
  fragment : Option Bytes := none
  state : UriState := .init
  error : ℤ := 0
deriving DecidableEq, Repr

def Scan.store (str : Bytes) (st : Scan) (uri : ParsedURI) : ParsedURI :=
  { uri with
    scheme := st.component str .scheme
    userinfo := st.component str .userinfo
    host := st.component str .host
    port := st.component str .port
    query := st.component str .query
    fragment := st.component str .fragment
    path := st.component str .path
    state := .success }

def parse (str : Bytes) (uri : ParsedURI) : Option (ℤ × ParsedURI) :=
  let uri := { uri with state := .invalid }
  let (colon, i, s) := schemeLoop str 0
  if INT_MAX < i then none
  else if colon = 0 then some (-1, uri)
  else
    let (i, st) := scan colon i s
    if !st.fits i then none
    else if !st.valid str then some (-1, uri)
    else some (0, st.store str uri)

example : parse (bytes "http://u:p@[::1]:80/a?b#c") {} = some (0,
    { scheme := some (bytes "http"), userinfo := some (bytes "u:p"), host := some (bytes "::1"),
      port := some (bytes "80"), path := some (bytes "/a"), query := some (bytes "b"),
      fragment := some (bytes "c"), state := .success }) := by decide +kernel

example : parse (bytes "http://h?a:b") {} = some (-1, { state := .invalid }) := by decide +kernel

end MyWorkflow.Uri
