import Mathlib.Algebra.Group.Int.Defs
import Mathlib.Algebra.Group.Nat.Defs
import Mathlib.Data.Int.Notation
import Mathlib.Data.List.TakeWhile
import Mathlib.Tactic.Common

set_option autoImplicit false

/-!
# Byte strings and the C library functions the parsers call

A `char *` is the list of bytes before its NUL; running off the end of the list
reads the NUL. Locale is "C", `long` has 64 bits.
-/
namespace MyWorkflow.CString
open List

abbrev Bytes := List UInt8

def bytes (s : String) : Bytes := s.toList.map (fun c => UInt8.ofNat c.toNat)

abbrev CR : UInt8 := 13
abbrev LF : UInt8 := 10
abbrev SP : UInt8 := 32
abbrev HT : UInt8 := 9
abbrev COLON : UInt8 := 58

def nonPositive (c : UInt8) : Bool := c == 0 || 128 ≤ c

def isspace (c : UInt8) : Bool := c == 32 || (9 ≤ c && c ≤ 13)

def isdigit (c : UInt8) : Bool := 48 ≤ c && c ≤ 57

def tolower (c : UInt8) : UInt8 := if 65 ≤ c && c ≤ 90 then c + 32 else c

def strlen (s : Bytes) : ℕ := (s.takeWhile (· != 0)).length

def strdup (s : Bytes) : Bytes := s.takeWhile (· != 0)

def strncaseeq : ℕ → Bytes → Bytes → Bool
  | 0, _, _ => true
  | n + 1, a, b =>
    let x := tolower (a.headD 0)
    let y := tolower (b.headD 0)
    if x != y then false
    else if x == 0 then true
    else strncaseeq n a.tail b.tail

def lower (s : Bytes) : Bytes := s.map tolower

/-- `memcpy(buf + i, src, n)` for the `n` bytes of `src`; `none` if it runs over the end of `buf`. -/
def memcpy (buf : Bytes) (i : ℕ) (src : Bytes) : Option Bytes :=
  if i + src.length ≤ buf.length then some (buf.take i ++ src ++ buf.drop (i + src.length))
  else none

def digitVal (c : UInt8) : ℕ :=
  if 48 ≤ c && c ≤ 57 then c.toNat - 48
  else if 97 ≤ tolower c && tolower c ≤ 122 then (tolower c).toNat - 87
  else 36

def digitsVal (base : ℕ) (s : Bytes) : ℕ :=
  (s.takeWhile (fun c => digitVal c < base)).foldl (fun n c => n * base + digitVal c) 0

def longMax : ℤ := 2 ^ 63 - 1
def longMin : ℤ := -2 ^ 63

def clampLong (n : ℤ) : ℤ :=
  if longMax < n then longMax else if n < longMin then longMin else n

/-- The digits of a base 16 subject may follow `0x`, but only a digit makes that a prefix. -/
def skipHexMark (base : ℕ) (s : Bytes) : Bytes :=
  match s with
  | z :: x :: d :: rest =>
    if base = 16 ∧ z = 48 ∧ tolower x = 120 ∧ digitVal d < 16 then d :: rest else s
  | _ => s

/-- `strtol(s, &end, base)`; `none` when no digit was converted and `end == s`. -/
def strtol (base : ℕ) (s : Bytes) : Option ℤ :=
  let s := s.dropWhile isspace
  let neg := s.head? == some 45
  let s := if s.head? == some 45 || s.head? == some 43 then s.tail else s
  let s := skipHexMark base s
  match s with
  | [] => none
  | c :: _ =>
    if digitVal c < base then
      some (clampLong (if neg then -(digitsVal base s : ℤ) else digitsVal base s))
    else none

def signless (s : Bytes) : Bytes :=
  let s := s.dropWhile isspace
  if s.head? == some 45 || s.head? == some 43 then s.tail else s

def digits (base : ℕ) (s : Bytes) : Bytes := s.takeWhile (fun c => digitVal c < base)

def strtolEnd (base : ℕ) (s : Bytes) : ℕ :=
  let number := skipHexMark base (signless s)
  if digits base number = [] then 0
  else s.length - number.length + (digits base number).length

/-- How many bytes `strtol` looks at: the last one ends the digits. Behind `0x` it looks for a
    digit even if there is none. -/
def strtolRead (base : ℕ) (s : Bytes) : ℕ :=
  let u := signless s
  let mark := if base = 16 ∧ u.head? = some 48 ∧ u.tail.head?.map tolower = some 120 then 2 else 0
  s.length - u.length + mark + (digits base (u.drop mark)).length + 1

def strchr (s : Bytes) (c : UInt8) : Option ℕ := (strdup s).findIdx? (· == c)

def atol (s : Bytes) : ℤ := (strtol 10 s).getD 0

theorem forall_byte {P : UInt8 → Prop} (h : ∀ n < 256, P (UInt8.ofNat n)) (c : UInt8) : P c := by
  have hc := h c.toNat c.toNat_lt
  rwa [UInt8.ofNat_toNat] at hc

theorem tolower_ne_zero {c : UInt8} (h : c ≠ 0) : tolower c ≠ 0 := by
  have key : ∀ c : UInt8, c ≠ 0 → tolower c ≠ 0 := forall_byte (by decide +kernel)
  exact key c h

theorem strncaseeq_strdup {a b : Bytes} (rest : Bytes) (hl : a.length = b.length) :
    strncaseeq b.length (a ++ rest) b = true ↔ lower (strdup a) = lower (strdup b) := by
  induction b generalizing a with
  | nil =>
    obtain rfl := length_eq_zero_iff.mp hl
    simp [strncaseeq, strdup]
  | cons y b ih =>
    obtain ⟨x, a, rfl⟩ := exists_cons_of_length_eq_add_one hl
    have ih := ih (by simpa using hl)
    have hzero : ∀ c, tolower c = 0 ↔ c = 0 := fun c =>
      ⟨fun h => by_contra fun hc => tolower_ne_zero hc h, fun h => by rw [h]; rfl⟩
    simp only [length_cons, strncaseeq, cons_append, headD_cons, tail_cons]
    by_cases hxy : tolower x = tolower y
    · by_cases hx : x = 0
      · have hy : y = 0 := by
          rw [← hzero, ← hxy, hx]
          rfl
        simp [hx, hy, strdup, tolower, lower]
      · have hy : y ≠ 0 := by
          rw [Ne, ← hzero, ← hxy, hzero]
          exact hx
        have hy' := tolower_ne_zero hy
        simp only [hxy, bne_self_eq_false, Bool.false_eq_true, ↓reduceIte, beq_iff_eq, hy', ih]
        simp [strdup, lower, hx, hy, hxy]
    · simp only [hxy, bne_iff_ne, ne_eq, not_false_eq_true, ↓reduceIte, Bool.false_eq_true, false_iff]
      by_cases hx : x = 0
      · have hy : y ≠ 0 := by
          rintro rfl
          exact hxy (by rw [hx])
        simp [strdup, lower, hx, hy]
      · by_cases hy : y = 0
        · simp [strdup, lower, hx, hy]
        · simp [strdup, lower, hx, hy, hxy]

theorem lower_length {a b : Bytes} (h : lower a = lower b) : a.length = b.length := by
  simpa [lower] using congrArg List.length h

theorem strdup_of_notMem {s : Bytes} (h : 0 ∉ s) : strdup s = s := by
  rw [strdup, takeWhile_eq_self_iff]
  intro c hc
  simp only [bne_iff_ne, ne_eq]
  rintro rfl
  exact h hc

theorem strdup_of_length {s : Bytes} (h : s.length ≤ (strdup s).length) : strdup s = s :=
  ( takeWhile_prefix _).eq_of_length_le h

theorem zero_notMem_of_lower {a b : Bytes} (h : lower a = lower b) (h0 : 0 ∉ b) : 0 ∉ a := by
  intro ha
  have hmem : tolower 0 ∈ lower b := h ▸ mem_map_of_mem ha
  obtain ⟨c, hc, hc0⟩ := mem_map.mp hmem
  by_cases hz : c = 0
  · exact h0 (hz ▸ hc)
  · exact tolower_ne_zero hz hc0

theorem strncaseeq_iff {a b : Bytes} (rest : Bytes) (h0 : 0 ∉ a ∨ 0 ∉ b)
    (hl : a.length = b.length) :
    strncaseeq b.length (a ++ rest) b = true ↔ lower a = lower b := by
  rw [strncaseeq_strdup rest hl]
  constructor
  · intro h
    have hlen := lower_length h
    obtain ha | hb := h0
    · rw [strdup_of_notMem ha] at h hlen
      rwa [strdup_of_length (by omega)] at h
    · rw [strdup_of_notMem hb] at h hlen
      rwa [strdup_of_length (by omega)] at h
  · intro h
    have ha : 0 ∉ a := h0.elim id (zero_notMem_of_lower h)
    have hb : 0 ∉ b := h0.elim (zero_notMem_of_lower h.symm) id
    rw [strdup_of_notMem ha, strdup_of_notMem hb, h]

theorem memcpy_append (a c : Bytes) {b src : Bytes} (hl : b.length = src.length) :
    memcpy (a ++ b ++ c) a.length src = some (a ++ src ++ c) := by
  have hfit : a.length + src.length ≤ (a ++ b ++ c).length := by
    simp only [length_append]
    omega
  have hdrop : (a ++ b ++ c).drop (a.length + src.length) = c := by
    rw [← hl, ← length_append, drop_left]
  rw [memcpy, if_pos hfit, hdrop, append_assoc a b c, take_left]

theorem memcpy_byte (a c : Bytes) (x y : UInt8) :
    memcpy (a ++ x :: c) a.length [y] = some (a ++ y :: c) := by
  have hlen : [x].length = [y].length := rfl
  have hcopy := memcpy_append a c hlen
  simpa using hcopy

theorem digitVal_of_isdigit {c : UInt8} (h : isdigit c = true) : digitVal c < 10 := by
  simp only [isdigit, Bool.and_eq_true, decide_eq_true_eq, UInt8.le_iff_toNat_le] at h
  have h57 : (57 : UInt8).toNat = 57 := rfl
  have hc : (48 ≤ c && c ≤ 57) = true := by
    simpa [UInt8.le_iff_toNat_le] using h
  rw [digitVal, if_pos hc]
  omega

theorem digitsVal_eq {base : ℕ} {s : Bytes} (h : ∀ c ∈ s, digitVal c < base) :
    digitsVal base s = s.foldl (fun n c => n * base + digitVal c) 0 := by
  have ht : s.takeWhile (fun c => decide (digitVal c < base)) = s := by
    rw [takeWhile_eq_self_iff]
    intro c hc
    simpa using h c hc
  rw [digitsVal, ht]

theorem foldl_digits_lt {base : ℕ} (s : Bytes) (n : ℕ) (h : ∀ c ∈ s, digitVal c < base) :
    s.foldl (fun n c => n * base + digitVal c) n < (n + 1) * base ^ s.length := by
  induction s generalizing n with
  | nil => simp
  | cons c s ih =>
    have hc := h c (by simp)
    have hs := ih (n * base + digitVal c) (fun e he => h e (by simp [he]))
    have hle : (n * base + digitVal c + 1) * base ^ s.length ≤ (n + 1) * base * base ^ s.length := by
      apply Nat.mul_le_mul_right
      rw [Nat.add_one_mul]
      omega
    calc
      _ < (n * base + digitVal c + 1) * base ^ s.length := hs
      _ ≤ (n + 1) * base * base ^ s.length := hle
      _ = (n + 1) * base ^ (s.length + 1) := by rw [Nat.pow_succ', Nat.mul_assoc]

theorem digitsVal_lt {base : ℕ} {s : Bytes} (h : ∀ c ∈ s, digitVal c < base) :
    digitsVal base s < base ^ s.length := by
  have hlt := foldl_digits_lt s 0 h
  rw [digitsVal_eq h]
  simpa using hlt

theorem atol_digits {s : Bytes} (h : ∀ c ∈ s, isdigit c = true) (hs : s ≠ [])
    (hl : s.length ≤ 15) : atol s = digitsVal 10 s := by
  obtain ⟨c, rest, rfl⟩ := exists_cons_of_ne_nil hs
  have hc := h c (by simp)
  have hspace : isspace c = false := by
    simp only [isdigit, Bool.and_eq_true, decide_eq_true_eq, UInt8.le_iff_toNat_le] at hc
    have h48 : (48 : UInt8).toNat = 48 := rfl
    have h13 : (13 : UInt8).toNat = 13 := rfl
    have h32 : (32 : UInt8).toNat = 32 := rfl
    have h1 : c ≠ 32 := by
      rintro rfl
      omega
    have h2 : ¬ c ≤ 13 := by
      rw [UInt8.le_iff_toNat_le]
      omega
    simp [isspace, h1, h2]
  have hsign : c ≠ 45 ∧ c ≠ 43 := by
    constructor <;> rintro rfl <;> exact absurd hc (by decide)
  have hdrop : (c :: rest).dropWhile isspace = c :: rest := by simp [hspace]
  have hhex : skipHexMark 10 (c :: rest) = c :: rest := by
    unfold skipHexMark
    split
    · rw [if_neg (by simp)]
    · rfl
  have hlt : digitsVal 10 (c :: rest) < 10 ^ 15 :=
    Nat.lt_of_lt_of_le (digitsVal_lt fun c hc => digitVal_of_isdigit (h c hc))
      (Nat.pow_le_pow_right (by decide) hl)
  have hclamp : clampLong (digitsVal 10 (c :: rest) : ℤ) = digitsVal 10 (c :: rest) := by
    have hmax : longMax = 9223372036854775807 := rfl
    have hmin : longMin = -9223372036854775808 := rfl
    rw [clampLong, if_neg (by omega), if_neg (by omega)]
  unfold atol strtol
  simp only [hdrop, List.head?_cons, Option.some_beq_some, beq_iff_eq, hsign.1, hsign.2,
    Bool.or_eq_true, or_self, ↓reduceIte, hhex, digitVal_of_isdigit hc, hclamp, Option.getD_some]

theorem digits_append {base : ℕ} {c : UInt8} (s rest : Bytes) (h : base ≤ digitVal c) :
    digits base (s ++ c :: rest) = digits base s := by
  have hc : (c :: rest).takeWhile (fun c => digitVal c < base) = [] := by simp [h]
  rw [digits, takeWhile_append, hc, append_nil, digits]
  split
  · next hl => exact (( takeWhile_prefix _).eq_of_length hl).symm
  · rfl

theorem digits_length_le (base : ℕ) (s : Bytes) : (digits base s).length ≤ s.length :=
  (takeWhile_sublist _).length_le

theorem signless_length_le (s : Bytes) : (signless s).length ≤ s.length := by
  have h := (dropWhile_sublist isspace (l := s)).length_le
  unfold signless
  simp only
  split
  · simp only [length_tail]
    omega
  · exact h

theorem skipHexMark_length_le (base : ℕ) (s : Bytes) : (skipHexMark base s).length ≤ s.length := by
  unfold skipHexMark
  split
  · split_ifs
    · simp
    · exact le_rfl
  · exact le_rfl

theorem strtolEnd_le (base : ℕ) (s : Bytes) : strtolEnd base s ≤ s.length := by
  have h1 := signless_length_le s
  have h2 := skipHexMark_length_le base (signless s)
  have h3 := digits_length_le base (skipHexMark base (signless s))
  unfold strtolEnd
  simp only
  split
  · omega
  · omega

theorem signless_append {s : Bytes} (rest : Bytes) (h : signless s ≠ []) :
    signless (s ++ rest) = signless s ++ rest := by
  unfold signless at h ⊢
  rw [dropWhile_append]
  cases hs : s.dropWhile isspace with
  | nil => simp [hs] at h
  | cons c t =>
    by_cases hc : (some c == some 45 || some c == some 43) = true
    · simp only [isEmpty_cons, Bool.false_eq_true, ↓reduceIte, cons_append,
        List.head?_cons, tail_cons, hc]
    · simp only [isEmpty_cons, Bool.false_eq_true, ↓reduceIte, cons_append,
        List.head?_cons, hc]

theorem skipHexMark_append {c : UInt8} {s : Bytes} (rest : Bytes) (hs : s ≠ [])
    (hx : tolower c ≠ 120) (hd : 16 ≤ digitVal c) :
    skipHexMark 16 (s ++ c :: rest) = skipHexMark 16 s ++ c :: rest := by
  rcases s with _ | ⟨z, _ | ⟨x, _ | ⟨d, s⟩⟩⟩
  · exact absurd rfl hs
  · unfold skipHexMark
    simp only [cons_append, nil_append]
    split
    · next heq =>
      cases heq
      simp [hx]
    · rfl
  · unfold skipHexMark
    have hc : ¬digitVal c < 16 := by omega
    simp [hc]
  · simp only [skipHexMark, cons_append]
    split_ifs <;> rfl

theorem strtol_eq (base : ℕ) (s : Bytes) : strtol base s =
    let number := skipHexMark base (signless s)
    if digits base number = [] then none
    else some (clampLong (if (s.dropWhile isspace).head? == some 45 then
      -(digitsVal base number : ℤ) else digitsVal base number)) := by
  change (match skipHexMark base (signless s) with
    | [] => none
    | c :: _ => if digitVal c < base then some (clampLong
        (if (s.dropWhile isspace).head? == some 45 then
          -(digitsVal base (skipHexMark base (signless s)) : ℤ)
        else digitsVal base (skipHexMark base (signless s)))) else none) = _
  cases hs : skipHexMark base (signless s) with
  | nil => rfl
  | cons c t =>
    by_cases hc : digitVal c < base
    · simp [digits, hc]
    · simp [digits, hc]

theorem signless_ne_nil {base : ℕ} {s : Bytes} {n : ℤ} (h : strtol base s = some n) :
    signless s ≠ [] := by
  intro hs
  rw [strtol_eq, hs] at h
  cases h

theorem strtol_append {c : UInt8} {s : Bytes} {n : ℤ} (rest : Bytes)
    (h : strtol 16 s = some n) (hx : tolower c ≠ 120) (hd : 16 ≤ digitVal c) :
    strtol 16 (s ++ c :: rest) = some n := by
  have hs := signless_ne_nil h
  have hsign : ((s ++ c :: rest).dropWhile isspace).head? = (s.dropWhile isspace).head? := by
    rw [dropWhile_append]
    cases ht : s.dropWhile isspace with
    | nil => simp [signless, ht] at hs
    | cons e t => rfl
  have hval : ∀ t, digitsVal 16 (t ++ c :: rest) = digitsVal 16 t := by
    intro t
    exact congrArg (List.foldl _ 0) (digits_append t rest hd)
  rw [← h, strtol_eq, strtol_eq, hsign, signless_append _ hs, skipHexMark_append rest hs hx hd]
  simp only [digits_append _ rest hd, hval]

theorem strtolEnd_append {c : UInt8} {s : Bytes} {n : ℤ} (rest : Bytes)
    (h : strtol 16 s = some n) (hx : tolower c ≠ 120) (hd : 16 ≤ digitVal c) :
    strtolEnd 16 (s ++ c :: rest) = strtolEnd 16 s := by
  have hs := signless_ne_nil h
  unfold strtolEnd
  rw [signless_append _ hs, skipHexMark_append rest hs hx hd]
  simp only [digits_append _ rest hd, length_append, Nat.add_sub_add_right]

theorem strtolRead_append_le {c : UInt8} {s : Bytes} {n : ℤ} (rest : Bytes)
    (h : strtol 16 s = some n) (hx : tolower c ≠ 120) (hd : 16 ≤ digitVal c) :
    strtolRead 16 (s ++ c :: rest) ≤ s.length + 1 := by
  have hs := signless_ne_nil h
  have hle := signless_length_le s
  unfold strtolRead
  rw [signless_append _ hs]
  generalize signless s = u at hs hle
  simp only [length_append, Nat.add_sub_add_right]
  split
  · next hmark =>
    obtain ⟨-, -, hmark⟩ := hmark
    rcases u with _ | ⟨z, _ | ⟨x, u⟩⟩
    · exact absurd rfl hs
    · simp [hx] at hmark
    · have hu := digits_length_le 16 u
      simp only [cons_append, drop_succ_cons, drop_zero, digits_append _ rest hd,
        length_cons] at hle ⊢
      omega
  · have hu := digits_length_le 16 u
    rw [drop_zero, digits_append _ rest hd]
    omega

theorem strtol_range {base : ℕ} {s : Bytes} {n : ℤ} (h : strtol base s = some n) :
    longMin ≤ n ∧ n ≤ longMax := by
  have hmax : longMax = 9223372036854775807 := rfl
  have hmin : longMin = -9223372036854775808 := rfl
  have hclamp : ∀ m, longMin ≤ clampLong m ∧ clampLong m ≤ longMax := by
    intro m
    unfold clampLong
    split_ifs <;> omega
  rw [strtol_eq] at h
  simp only at h
  split at h
  · cases h
  · cases h
    exact hclamp _

theorem digitsVal_lt_pow {base : ℕ} (hb : 0 < base) (s : Bytes) :
    digitsVal base s < base ^ s.length := by
  have hdigits : ∀ c ∈ s.takeWhile (fun c => decide (digitVal c < base)), digitVal c < base := by
    intro c hc
    simpa using mem_takeWhile_imp hc
  have hlt := foldl_digits_lt _ 0 hdigits
  have hle : (s.takeWhile (fun c => decide (digitVal c < base))).length ≤ s.length :=
    ( takeWhile_prefix _).length_le
  have hpow := Nat.pow_le_pow_right hb hle
  rw [digitsVal]
  omega

theorem strtol_lt_pow {base : ℕ} (hb : 0 < base) {s : Bytes} {n : ℤ} (h : strtol base s = some n) :
    n.toNat < base ^ s.length := by
  have hmin : longMin = -9223372036854775808 := rfl
  have hval := digitsVal_lt_pow hb (skipHexMark base (signless s))
  have hlen := Nat.le_trans (skipHexMark_length_le base (signless s)) (signless_length_le s)
  have hpow := Nat.pow_le_pow_right hb hlen
  have hclamp : ∀ m : ℤ, m.toNat < base ^ s.length → (clampLong m).toNat < base ^ s.length := by
    intro m hm
    unfold clampLong
    split_ifs <;> omega
  rw [strtol_eq] at h
  simp only at h
  split at h
  · cases h
  · cases h
    apply hclamp
    split_ifs <;> omega

theorem findIdx?_eq_none {s : Bytes} {c : UInt8} (hc : c ∉ s) : s.findIdx? (· == c) = none := by
  rw [List.findIdx?_eq_none_iff]
  intro e he
  simp only [beq_eq_false_iff_ne, ne_eq]
  rintro rfl
  exact hc he

theorem strdup_append {s : Bytes} (rest : Bytes) (h0 : 0 ∉ s) :
    strdup (s ++ rest) = s ++ strdup rest := by
  rw [strdup, takeWhile_append_of_pos]
  · rfl
  · intro e he
    simp only [bne_iff_ne, ne_eq]
    rintro rfl
    exact h0 he

theorem strchr_found {s : Bytes} {c : UInt8} (rest : Bytes) (h0 : 0 ∉ s) (hc : c ∉ s)
    (hne : c ≠ 0) : strchr (s ++ c :: rest) c = some s.length := by
  have ht : strdup (s ++ c :: rest) = s ++ c :: strdup rest := by
    rw [strdup_append _ h0]
    simp [strdup, hne]
  rw [strchr, ht, List.findIdx?_append, findIdx?_eq_none hc]
  simp [List.findIdx?_cons]

theorem strchr_none {s : Bytes} {c : UInt8} (rest : Bytes) (h0 : 0 ∉ s) (hc : c ∉ s) :
    strchr (s ++ 0 :: rest) c = none := by
  have ht : strdup (s ++ 0 :: rest) = s := by
    rw [strdup_append _ h0]
    simp [strdup]
  rw [strchr, ht, findIdx?_eq_none hc]

theorem eq_strdup_append {s : Bytes} (h : 0 ∈ s) : ∃ rest, s = strdup s ++ 0 :: rest := by
  have hs := takeWhile_append_dropWhile (p := (· != 0)) (l := s)
  cases hd : s.dropWhile (· != 0) with
  | nil =>
    have := dropWhile_eq_nil_iff.mp hd 0 h
    simp at this
  | cons c rest =>
    have hc := head_dropWhile_not (p := (· != 0)) (l := s) (by simp [hd])
    simp only [hd, head_cons, bne_eq_false_iff_eq] at hc
    rw [hd, hc] at hs
    exact ⟨rest, hs.symm⟩

theorem zero_notMem_strdup (s : Bytes) : 0 ∉ strdup s := by
  intro h
  simpa using mem_takeWhile_imp h

example : strtol 16 (bytes " 1aF;x") = some 0x1af := by decide
example : strtol 16 (bytes "0xg") = some 0 := by decide
example : strtol 16 (bytes ";a") = none := by decide

end MyWorkflow.CString
