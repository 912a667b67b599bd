import MyWorkflow.CString

set_option autoImplicit false

/-!
# URL encoding

The decoder works in place on the bytes of the string and the NUL behind them: `data` reads ahead
of `dest`. The log keeps which byte was read or written when.
-/
namespace MyWorkflow.StringUtil
open List CString

abbrev PERCENT : UInt8 := 37
abbrev PLUS : UInt8 := 43

def isupper (c : UInt8) : Bool := 65 ≤ c && c ≤ 90

def isalnum (c : UInt8) : Bool := isdigit c || isupper c || (97 ≤ c && c ≤ 122)

def isxdigit (c : UInt8) : Bool := isdigit c || (65 ≤ c && c ≤ 70) || (97 ≤ c && c ≤ 102)

def digitOf (c : UInt8) : ℤ :=
  let c := if isupper c then tolower c else c
  if 48 ≤ c ∧ c ≤ 57 then (c.toNat : ℤ) - 48 else (c.toNat : ℤ) - 97 + 10

def htoi (s0 s1 : UInt8) : ℤ := digitOf s0 * 16 + digitOf s1

def itoh (n : ℕ) : UInt8 := if n > 9 then UInt8.ofNat (n - 10 + 65) else UInt8.ofNat (n + 48)

/-! ## Encoding -/

/-- What is appended for one byte; `plain` are those that stay as they are. -/
def encodeByte (plain : UInt8 → Bool) (c : UInt8) : Bytes :=
  if c = SP then [PLUS]
  else if plain c then [c]
  else [PERCENT, itoh (c.toNat >>> 4), itoh (c.toNat % 16)]

def encodeWith (plain : UInt8 → Bool) : Bytes → Bytes
  | [] => []
  | c :: str => encodeByte plain c ++ encodeWith plain str

def urlPlain (c : UInt8) : Bool := isalnum c || (bytes "-_.!~*'():/@?#&").contains c

def componentPlain (c : UInt8) : Bool := isalnum c || (bytes "-_.!~*'()").contains c

def urlEncode (str : Bytes) : Bytes := encodeWith urlPlain str

def urlEncodeComponent (str : Bytes) : Bytes := encodeWith componentPlain str

/-! ## Decoding -/

inductive Access where
  | read (i : ℕ)
  | write (i : ℕ)
deriving DecidableEq, Repr

structure Decoding where
  buf : Bytes
  data : ℕ
  dest : ℕ
  log : List Access

namespace Decoding

def logRead (d : Decoding) (i : ℕ) : Decoding := { d with log := d.log ++ [.read i] }

@[simp] theorem logRead_data (d : Decoding) (i : ℕ) : (d.logRead i).data = d.data := rfl

def read (d : Decoding) (i : ℕ) : Option (UInt8 × Decoding) :=
  match d.buf[i]? with
  | some c => some (c, d.logRead i)
  | none => none

def write (d : Decoding) (i : ℕ) (c : UInt8) : Option Decoding :=
  if i < d.buf.length then some { d with buf := d.buf.set i c, log := d.log ++ [.write i] }
  else none

def readEscape (d : Decoding) : Option (Option (UInt8 × UInt8) × Decoding) := do
  let (h, d) ← d.read (d.data + 1)
  if isxdigit h then
    let (l, d) ← d.read (d.data + 2)
    return (if isxdigit l then some (h, l) else none, d)
  else return (none, d)

def put (d : Decoding) (c : UInt8) (taken : ℕ) : Option Decoding := do
  let d ← d.write d.dest c
  return { d with data := d.data + taken, dest := d.dest + 1 }

inductive Turn where
  | again (d : Decoding)
  | finished (d : Decoding)

def turn (d : Decoding) : Option Turn := do
  let (c, d) ← d.read d.data
  if c = 0 then return .finished (← d.write d.dest 0)
  else if c = PERCENT then
    match ← d.readEscape with
    | (some (h, l), d) => return .again (← d.put (UInt8.ofInt (htoi h l)) 3)
    | (none, d) => return .again (← d.put c 1)
  else if c = PLUS then return .again (← d.put SP 1)
  else return .again (← d.put c 1)

def loop : ℕ → Decoding → Option Decoding
  | 0, _ => none
  | turns + 1, d =>
    match d.turn with
    | none => none
    | some (.finished d) => some d
    | some (.again d) => loop turns d

end Decoding

/-- `__url_decode` on a string and the NUL behind it; it returns `dest - str`. -/
def decodeInPlace (str : Bytes) : Option Decoding :=
  Decoding.loop (str.length + 1) ⟨str ++ [0], 0, 0, []⟩

def urlDecode (str : Bytes) : Option Bytes :=
  if str = [] then some str
  else (decodeInPlace str).map fun d => d.buf.take d.dest

example : urlDecode (bytes "a%41+%2g%") = some (bytes "aA %2g%") := by decide

/-! ## What a turn does -/

def NeverEarly (log : List Access) : Prop :=
  ∀ before i after, log = before ++ .write i :: after → .read i ∈ before

theorem NeverEarly.read {log : List Access} (h : NeverEarly log) (i : ℕ) :
    NeverEarly (log ++ [.read i]) := by
  intro before k after heq
  rcases eq_nil_or_concat after with rfl | ⟨after, last, rfl⟩
  · have hlast := append_inj_right' heq rfl
    cases hlast
  · have hfront : log = before ++ .write k :: after := by
      have heq' : log ++ [.read i] = (before ++ .write k :: after) ++ [last] := by
        simpa using heq
      exact append_inj_left' heq' rfl
    exact h before k after hfront

theorem NeverEarly.write {log : List Access} (h : NeverEarly log) {i : ℕ} (hi : .read i ∈ log) :
    NeverEarly (log ++ [.write i]) := by
  intro before k after heq
  rcases eq_nil_or_concat after with rfl | ⟨after, last, rfl⟩
  · obtain ⟨rfl, hlast⟩ := append_inj' heq rfl
    cases hlast
    exact hi
  · have hfront : log = before ++ .write k :: after := by
      have heq' : log ++ [.write i] = (before ++ .write k :: after) ++ [last] := by
        simpa using heq
      exact append_inj_left' heq' rfl
    exact h before k after hfront

namespace Decoding

/-- `out` has been written and `unread` is still to come, as it was in the beginning; all bytes up
    to `data` were read. -/
structure At (d : Decoding) (out unread : Bytes) : Prop where
  dest : d.dest = out.length
  buf : ∃ gap, d.buf = out ++ gap ++ unread ∧ d.data = out.length + gap.length
  known : ∀ i < d.data, .read i ∈ d.log
  early : NeverEarly d.log

variable {d : Decoding} {out unread : Bytes}

theorem At.log (h : d.At out unread) (i : ℕ) :
    (d.logRead i).At out unread :=
  ⟨h.dest, h.buf, fun k hk => mem_append_left _ (h.known k hk), h.early.read i⟩

theorem At.read (pre : Bytes) {rest : Bytes} {c : UInt8} (h : d.At out (pre ++ c :: rest)) :
    d.read (d.data + pre.length) = some (c, d.logRead (d.data + pre.length)) := by
  obtain ⟨gap, hbuf, hdata⟩ := h.buf
  have hsplit : d.buf = (out ++ gap ++ pre) ++ c :: rest := by simp [hbuf]
  have hlen : d.data + pre.length = (out ++ gap ++ pre).length := by
    simp only [hdata, length_append]
  have hget : d.buf[d.data + pre.length]? = some c := by
    rw [hsplit, hlen, List.getElem?_append_right (Nat.le_refl _), Nat.sub_self]
    rfl
  rw [Decoding.read, hget]

theorem At.put (unit : Bytes) {rest : Bytes} (x : UInt8) (h : d.At out (unit ++ rest)) (hne : unit ≠ [])
    (hknown : ∀ i < d.data + unit.length, .read i ∈ d.log) :
    ∃ d', d.put x unit.length = some d' ∧ d'.At (out ++ [x]) rest := by
  obtain ⟨gap, hbuf, hdata⟩ := h.buf
  have hpos : 0 < unit.length := length_pos_iff.mpr hne
  obtain ⟨y, gap', hgap⟩ : ∃ y gap', gap ++ unit = y :: gap' :=
    exists_cons_of_ne_nil (by simp [hne])
  have hlen : gap.length + unit.length = gap'.length + 1 := by
    simpa using congrArg List.length hgap
  have hsplit : d.buf = out ++ y :: (gap' ++ rest) := by
    have hassoc : out ++ gap ++ (unit ++ rest) = out ++ ((gap ++ unit) ++ rest) := by simp
    rw [hbuf, hassoc, hgap]
    simp
  have hset : d.buf.set d.dest x = out ++ x :: (gap' ++ rest) := by
    rw [hsplit, h.dest, set_append_right _ _ (Nat.le_refl _), Nat.sub_self]
    rfl
  have hfit : d.dest < d.buf.length := by
    rw [hsplit, h.dest]
    simp
  have hdest : .read d.dest ∈ d.log := hknown _ (by rw [h.dest, hdata]; omega)
  refine ⟨⟨d.buf.set d.dest x, d.data + unit.length, d.dest + 1, d.log ++ [.write d.dest]⟩, ?_, ?_⟩
  · simp [Decoding.put, Decoding.write, hfit]
  · refine ⟨by simp [h.dest], ⟨gap', by simp [hset], ?_⟩, ?_, h.early.write hdest⟩
    · simp only [length_append, length_cons, length_nil]
      omega
    · intro i hi
      exact mem_append_left _ (hknown i hi)

inductive Decodes (rest : Bytes) : Bytes → UInt8 → Prop where
  | escape {h l : UInt8} : isxdigit h = true → isxdigit l = true →
      Decodes rest [PERCENT, h, l] (UInt8.ofInt (htoi h l))
  | percent {c : UInt8} {more : Bytes} : rest = c :: more →
      (isxdigit c = true → ∃ e more', more = e :: more' ∧ isxdigit e = false) →
      Decodes rest [PERCENT] PERCENT
  | plus : Decodes rest [PLUS] SP
  | other {c : UInt8} : c ≠ 0 → c ≠ PERCENT → c ≠ PLUS → Decodes rest [c] c

theorem known_succ {log : List Access} {n : ℕ} (h : ∀ i < n, .read i ∈ log) :
    ∀ i < n + 1, .read i ∈ log ++ [.read n] := by
  intro i hi
  rcases Nat.lt_succ_iff_lt_or_eq.mp hi with hlt | rfl
  · exact mem_append_left _ (h i hlt)
  · exact mem_append_right _ mem_cons_self

theorem At.turn {unit rest : Bytes} {x : UInt8} (h : d.At out (unit ++ rest))
    (hx : Decodes rest unit x) : ∃ d', d.turn = some (.again d') ∧ d'.At (out ++ [x]) rest := by
  have first : ∀ {c : UInt8} {more : Bytes}, d.At out (c :: more) →
      d.read d.data = some (c, d.logRead d.data) :=
    fun h => At.read [] h
  have hknown := known_succ h.known
  have h₁ := h.log d.data
  have hpercent : PERCENT ≠ 0 := by decide
  have hplus : PLUS ≠ 0 ∧ PLUS ≠ PERCENT := by decide
  cases hx with
  | @escape u l hu hl =>
    have hread₁ := At.read [PERCENT] h₁
    have h₂ := h₁.log (d.data + 1)
    have hread₂ := At.read [PERCENT, u] h₂
    have h₃ := h₂.log (d.data + 2)
    obtain ⟨d', hput, hat⟩ := h₃.put [PERCENT, u, l] (UInt8.ofInt (htoi u l)) (by simp)
      (known_succ (known_succ hknown))
    refine ⟨d', ?_, hat⟩
    simp only [length_cons, length_nil, Nat.zero_add, Nat.reduceAdd,
      logRead_data] at hread₁ hread₂ hput
    simp [Decoding.turn, first h, hpercent, Decoding.readEscape, hread₁, hread₂, hput, hu, hl]
  | @percent c more hrest hescape =>
    subst hrest
    have hread₁ := At.read [PERCENT] h₁
    have h₂ := h₁.log (d.data + 1)
    simp only [length_cons, length_nil, Nat.zero_add, logRead_data] at hread₁
    by_cases hc : isxdigit c = true
    · obtain ⟨e, more', rfl, he⟩ := hescape hc
      have hread₂ := At.read [PERCENT, c] h₂
      have h₃ := h₂.log (d.data + 2)
      obtain ⟨d', hput, hat⟩ := At.put [PERCENT] PERCENT h₃ (by simp)
        (fun i hi => mem_append_left _ (mem_append_left _ (hknown i hi)))
      refine ⟨d', ?_, hat⟩
      simp only [length_cons, length_nil, Nat.zero_add, Nat.reduceAdd,
        logRead_data] at hread₂ hput
      simp [Decoding.turn, first h, hpercent, Decoding.readEscape, hread₁, hread₂, hput, hc, he]
    · obtain ⟨d', hput, hat⟩ := At.put [PERCENT] PERCENT h₂ (by simp)
        (fun i hi => mem_append_left _ (hknown i hi))
      refine ⟨d', ?_, hat⟩
      simp only [length_cons, length_nil, Nat.zero_add] at hput
      simp [Decoding.turn, first h, hpercent, Decoding.readEscape, hread₁, hput, hc]
  | plus =>
    obtain ⟨d', hput, hat⟩ := h₁.put [PLUS] SP (by simp) hknown
    refine ⟨d', ?_, hat⟩
    simp only [length_cons, length_nil, Nat.zero_add] at hput
    simp [Decoding.turn, first h, hput, hplus]
  | other h0 hne₁ hne₂ =>
    obtain ⟨d', hput, hat⟩ := h₁.put [x] x (by simp) hknown
    refine ⟨d', ?_, hat⟩
    simp only [length_cons, length_nil, Nat.zero_add] at hput
    simp [Decoding.turn, first h, hput, h0, hne₁, hne₂]

theorem At.finish {tail : Bytes} (h : d.At out (0 :: tail)) : ∃ d', d.turn = some (.finished d') ∧
    d'.dest = out.length ∧ d'.buf.take d'.dest = out ∧ NeverEarly d'.log := by
  obtain ⟨gap, hbuf, hdata⟩ := h.buf
  have hread : d.read d.data = some (0, d.logRead d.data) := At.read [] h
  have hdest : .read d.dest ∈ (d.logRead d.data).log :=
    known_succ h.known _ (by rw [h.dest, hdata]; omega)
  have hfit : (d.logRead d.data).dest < (d.logRead d.data).buf.length := by
    change d.dest < d.buf.length
    rw [hbuf, h.dest]
    simp only [length_append, length_cons]
    omega
  refine ⟨⟨d.buf.set d.dest 0, d.data, d.dest, (d.logRead d.data).log ++ [.write d.dest]⟩, ?_, h.dest,
    ?_, (h.early.read d.data).write hdest⟩
  · have hwrite : (d.logRead d.data).write d.dest 0 = some ⟨d.buf.set d.dest 0, d.data, d.dest,
        (d.logRead d.data).log ++ [.write d.dest]⟩ := if_pos hfit
    simp only [Decoding.turn, hread, Option.bind_eq_bind, Option.bind_some, if_true]
    exact congrArg (Option.bind · _) hwrite
  · change (d.buf.set d.dest 0).take d.dest = out
    rw [hbuf, h.dest, take_set_of_le (Nat.le_refl _), append_assoc, take_left]

theorem exists_decodes {text : Bytes} (tail : Bytes) (hne : text ≠ []) (h0 : 0 ∉ text) :
    ∃ unit rest x, text = unit ++ rest ∧ unit ≠ [] ∧ Decodes (rest ++ 0 :: tail) unit x := by
  obtain ⟨c, more, rfl⟩ := exists_cons_of_ne_nil hne
  have hzero : isxdigit 0 = false := by decide
  by_cases hpercent : c = PERCENT
  · subst hpercent
    rcases more with _ | ⟨u, _ | ⟨l, more⟩⟩
    · exact ⟨[PERCENT], [], PERCENT, rfl, by simp, .percent rfl (by simp [hzero])⟩
    · exact ⟨[PERCENT], [u], PERCENT, rfl, by simp, .percent rfl (fun _ => ⟨0, tail, rfl, hzero⟩)⟩
    · by_cases hesc : isxdigit u = true ∧ isxdigit l = true
      · exact ⟨[PERCENT, u, l], more, _, rfl, by simp, .escape hesc.1 hesc.2⟩
      · refine ⟨[PERCENT], u :: l :: more, PERCENT, rfl, by simp, .percent rfl (fun hu => ?_)⟩
        exact ⟨l, more ++ 0 :: tail, rfl, by simpa [hu] using hesc⟩
  · by_cases hplus : c = PLUS
    · subst hplus
      exact ⟨[PLUS], more, SP, rfl, by simp, .plus⟩
    · refine ⟨[c], more, c, rfl, by simp, .other ?_ hpercent hplus⟩
      rintro rfl
      exact h0 mem_cons_self

theorem At.loop_ends {text tail : Bytes} {turns : ℕ} (h : d.At out (text ++ 0 :: tail))
    (h0 : 0 ∉ text) (hturns : text.length < turns) :
    ∃ d', loop turns d = some d' ∧ NeverEarly d'.log := by
  induction turns generalizing d out text with
  | zero => omega
  | succ turns ih =>
    by_cases htext : text = []
    · subst htext
      obtain ⟨d', hturn, -, -, hearly⟩ := h.finish
      exact ⟨d', by rw [loop, hturn], hearly⟩
    · obtain ⟨unit, rest, x, rfl, hunit, hdec⟩ := exists_decodes tail htext h0
      rw [append_assoc] at h
      obtain ⟨d₁, hturn, h₁⟩ := h.turn hdec
      have hpos : 0 < unit.length := length_pos_iff.mpr hunit
      rw [length_append] at hturns
      obtain ⟨d', hloop, hearly⟩ := ih h₁ (fun hr => h0 (mem_append_right _ hr)) (by omega)
      exact ⟨d', by rw [loop, hturn]; exact hloop, hearly⟩

end Decoding

theorem Decoding.At.start (unread : Bytes) : (⟨unread, 0, 0, []⟩ : Decoding).At [] unread := by
  refine ⟨rfl, ⟨[], rfl, rfl⟩, fun i hi => absurd hi (Nat.not_lt_zero i), ?_⟩
  intro before i after heq
  simp at heq

theorem decodeInPlace_ends (str : Bytes) : ∃ d, decodeInPlace str = some d ∧ NeverEarly d.log := by
  by_cases h0 : 0 ∈ str
  · obtain ⟨rest, hstr⟩ := eq_strdup_append h0
    have hsplit : str ++ [0] = strdup str ++ 0 :: (rest ++ [0]) := by
      have happ := congrArg (· ++ [0]) hstr
      simpa using happ
    have hlen : (strdup str).length < str.length + 1 :=
      Nat.lt_succ_of_le ( takeWhile_prefix _).length_le
    rw [decodeInPlace, hsplit]
    exact (Decoding.At.start _).loop_ends (zero_notMem_strdup str) hlen
  · exact (Decoding.At.start _).loop_ends h0 (Nat.lt_succ_self _)

/-! ## Encoded strings -/

theorem isxdigit_itoh : ∀ n < 16, isxdigit (itoh n) = true ∧ digitOf (itoh n) = n := by
  decide

theorem htoi_itoh (c : UInt8) :
    UInt8.ofInt (htoi (itoh (c.toNat >>> 4)) (itoh (c.toNat % 16))) = c := by
  have hc : c.toNat < 256 := c.toNat_lt
  have hhigh : c.toNat >>> 4 = c.toNat / 16 := Nat.shiftRight_eq_div_pow c.toNat 4
  have hval : htoi (itoh (c.toNat >>> 4)) (itoh (c.toNat % 16)) = c.toNat := by
    rw [htoi, hhigh, (isxdigit_itoh (c.toNat / 16) (by omega)).2,
      (isxdigit_itoh (c.toNat % 16) (by omega)).2]
    omega
  have hmod : ((c.toNat : ℤ) % 2 ^ 8).toNat = c.toNat := by omega
  rw [hval, UInt8.ofInt, hmod, UInt8.ofNat_toNat]

def Harmless (plain : UInt8 → Bool) : Prop :=
  ∀ c, plain c = true → c ≠ 0 ∧ c ≠ PERCENT ∧ c ≠ PLUS

theorem urlPlain_harmless : Harmless urlPlain := forall_byte (by decide +kernel)

theorem componentPlain_harmless : Harmless componentPlain := forall_byte (by decide +kernel)

theorem encodeByte_decodes {plain : UInt8 → Bool} (hplain : Harmless plain) (c : UInt8)
    (rest : Bytes) : Decoding.Decodes rest (encodeByte plain c) c := by
  unfold encodeByte
  split_ifs with hsp hc
  · rw [hsp]
    exact .plus
  · obtain ⟨h0, hpercent, hplus⟩ := hplain c hc
    exact .other h0 hpercent hplus
  · have hlt : c.toNat < 256 := c.toNat_lt
    have hhigh : c.toNat >>> 4 < 16 := by
      rw [Nat.shiftRight_eq_div_pow]
      omega
    have hdec : Decoding.Decodes rest [PERCENT, itoh (c.toNat >>> 4), itoh (c.toNat % 16)] _ :=
      .escape (isxdigit_itoh _ hhigh).1 (isxdigit_itoh (c.toNat % 16) (by omega)).1
    rwa [htoi_itoh] at hdec

theorem encodeByte_ne_nil (plain : UInt8 → Bool) (c : UInt8) : encodeByte plain c ≠ [] := by
  unfold encodeByte
  split_ifs <;> simp

namespace Decoding

variable {d : Decoding} {out : Bytes} {plain : UInt8 → Bool}

theorem At.loop_encoded (hplain : Harmless plain) (str : Bytes) {tail : Bytes} {turns : ℕ}
    (h : d.At out (encodeWith plain str ++ 0 :: tail)) (hturns : str.length < turns) :
    ∃ d', loop turns d = some d' ∧ d'.buf.take d'.dest = out ++ str := by
  induction str generalizing d out turns with
  | nil =>
    obtain ⟨turns, rfl⟩ := Nat.exists_eq_add_one.mpr hturns
    obtain ⟨d', hturn, -, htake, -⟩ := h.finish
    exact ⟨d', by rw [loop, hturn], by rw [htake, append_nil]⟩
  | cons c str ih =>
    obtain ⟨turns, rfl⟩ := Nat.exists_eq_add_one.mpr (Nat.zero_lt_of_lt hturns)
    rw [encodeWith, append_assoc] at h
    obtain ⟨d₁, hturn, h₁⟩ := h.turn (encodeByte_decodes hplain c _)
    obtain ⟨d', hloop, htake⟩ := ih h₁ (Nat.lt_of_succ_lt_succ hturns)
    exact ⟨d', by rw [loop, hturn]; exact hloop, by rw [htake, append_assoc]; rfl⟩

end Decoding

theorem length_le_encodeWith (plain : UInt8 → Bool) (str : Bytes) :
    str.length ≤ (encodeWith plain str).length := by
  induction str with
  | nil => exact Nat.le_refl 0
  | cons c str ih =>
    have hpos := length_pos_iff.mpr (encodeByte_ne_nil plain c)
    rw [encodeWith, length_append, length_cons]
    omega

theorem urlDecode_encodeWith {plain : UInt8 → Bool} (hplain : Harmless plain) (str : Bytes) :
    urlDecode (encodeWith plain str) = some str := by
  by_cases hstr : encodeWith plain str = []
  · have hlen := length_le_encodeWith plain str
    rw [hstr] at hlen
    have hnil : str = [] := length_eq_zero_iff.mp (Nat.le_zero.mp hlen)
    rw [urlDecode, if_pos hstr, hstr, hnil]
  · obtain ⟨d, hloop, htake⟩ := (Decoding.At.start _).loop_encoded hplain str
      (Nat.lt_succ_of_le (length_le_encodeWith plain str))
    rw [urlDecode, if_neg hstr, decodeInPlace, hloop, Option.map_some, htake, nil_append]

/-- `url_decode` undoes both encodings, and on any string the loop ends with every byte read
    before it is overwritten. -/
theorem url_decode_undoes_encode (s : Bytes) :
    urlDecode (urlEncode s) = some s ∧ urlDecode (urlEncodeComponent s) = some s ∧
    ∀ str, ∃ d, decodeInPlace str = some d ∧ NeverEarly d.log :=
  ⟨urlDecode_encodeWith urlPlain_harmless s, urlDecode_encodeWith componentPlain_harmless s,
    decodeInPlace_ends⟩

end MyWorkflow.StringUtil
