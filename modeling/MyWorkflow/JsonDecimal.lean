import Mathlib.Data.List.DropRight
import MyWorkflow.JsonEvaluate

set_option autoImplicit false

namespace MyWorkflow.Json
open List CString Recognizer Decimals

/-! ## The exact value of a literal -/

def integerDigits (t : Bytes) : Bytes := (unsigned t).takeWhile isdigit

def fractionDigits (t : Bytes) : Bytes :=
  match (unsigned t).dropWhile isdigit with
  | 46 :: s => s.takeWhile isdigit
  | _ => []

def exponentPart (t : Bytes) : Bytes :=
  match (unsigned t).dropWhile isdigit with
  | 46 :: s => s.dropWhile isdigit
  | s => s

def exponentOf (t : Bytes) : ℤ :=
  match (exponentPart t).tail with
  | 45 :: ds => -(value (ds.map digit) : ℤ)
  | 43 :: ds => value (ds.map digit)
  | ds => value (ds.map digit)

def leadingDigits (t : Bytes) : List ℕ :=
  ((integerDigits t ++ fractionDigits t).map digit).dropWhile (· = 0)

def magnitude (t : Bytes) : ℚ :=
  value ((integerDigits t ++ fractionDigits t).map digit) *
    10 ^ (exponentOf t - (fractionDigits t).length)

def significantDigits (t : Bytes) : List ℕ := (leadingDigits t).rdropWhile (· = 0)

theorem digit_lt {c : UInt8} (h : isdigit c = true) : digit c < 10 := by
  rw [isdigit, Bool.and_eq_true, decide_eq_true_eq, decide_eq_true_eq] at h
  have hle : c.toNat ≤ 57 := h.2
  rw [digit]
  omega

theorem digit_ne_zero {c : UInt8} (h : isdigit c = true) (hc : c ≠ 48) : digit c ≠ 0 := by
  rw [isdigit, Bool.and_eq_true, decide_eq_true_eq, decide_eq_true_eq] at h
  have hle : 48 ≤ c.toNat := h.1
  have hne : c.toNat ≠ 48 := fun heq => hc (UInt8.toNat_inj.mp heq)
  rw [digit]
  omega

/-! ## The clipped exponent -/

structure Clips (exp e : ℤ) : Prop where
  small : -20000000 < exp ∧ exp < 20000000
  exact : -2000000 < exp → exp < 2000000 → e = exp
  above : 2000000 ≤ exp → exp ≤ e
  below : exp ≤ -2000000 → e ≤ exp

theorem clipped_snoc (ds : Bytes) (c : UInt8) : clipped (ds ++ [c]) =
    if clipped ds < 2000000 then clipped ds * 10 + digit c else clipped ds := by
  rw [clipped, foldl_concat]
  rfl

theorem clipped_spec {ds : Bytes} (h : ∀ c ∈ ds, isdigit c = true) :
    clipped ds < 20000000 ∧ clipped ds ≤ value (ds.map digit) ∧
      (clipped ds < 2000000 → clipped ds = value (ds.map digit)) := by
  induction ds using List.reverseRecOn with
  | nil => simp [clipped]
  | append_singleton ds c ih =>
    obtain ⟨hsmall, hle, heq⟩ := ih (fun e he => h e (by simp [he]))
    have hc := digit_lt (h c (by simp))
    rw [clipped_snoc, map_append, map_singleton, value_snoc]
    by_cases hlt : clipped ds < 2000000
    · rw [if_pos hlt, heq hlt]
      rw [heq hlt] at hlt
      omega
    · rw [if_neg hlt]
      omega

theorem clips_clipped {ds : Bytes} (h : ∀ c ∈ ds, isdigit c = true) :
    Clips (clipped ds) (value (ds.map digit)) := by
  obtain ⟨hsmall, hle, heq⟩ := clipped_spec h
  constructor <;> omega

theorem Clips.neg {exp e : ℤ} (h : Clips exp e) : Clips (-exp) (-e) := by
  obtain ⟨hsmall, hexact, habove, hbelow⟩ := h
  constructor <;> omega

/-! ## The parts of a literal -/

structure Parts (t : Bytes) (n : JsonNumber) : Prop where
  integer : integerDigits t = unsigned n.integer
  fraction : fractionDigits t = n.fraction
  exp : Clips n.exp (exponentOf t)
  unsigned : UnsignedText (unsigned n.integer)
  digits : ∀ c ∈ n.fraction, isdigit c = true
  length : (Json.unsigned n.integer).length + n.fraction.length ≤ 1000000

theorem unsigned_append {sign x s : Bytes} (hsign : sign = [] ∨ sign = [45]) (hx : Digits x) :
    unsigned (sign ++ x ++ s) = x ++ s := by
  obtain ⟨d, x, rfl⟩ := exists_cons_of_ne_nil hx.1
  have hd : d ≠ 45 := by
    rintro rfl
    exact absurd (hx.2 45 (by simp)) (by decide)
  obtain rfl | rfl := hsign
  · simp [unsigned, hd]
  · simp [unsigned]

theorem exponentText_ends {z : Bytes} {exp : ℤ} (hz : ExponentText z exp) :
    Ends isdigit z ∧ ∀ s, z ≠ 46 :: s := by
  obtain ⟨rfl, -⟩ | ⟨mark, sign, digits, rfl, hmark, -⟩ := hz
  · exact ⟨fun c hc => absurd hc (by simp), by simp⟩
  · refine ⟨fun c hc => ?_, fun s h => ?_⟩
    · cases hc
      obtain rfl | rfl := hmark <;> decide
    · cases h
      obtain h | h := hmark <;> cases h

theorem exponentText_clips {z : Bytes} {exp : ℤ} (hz : ExponentText z exp) :
    Clips exp (match z.tail with
      | 45 :: ds => -(value (ds.map digit) : ℤ)
      | 43 :: ds => value (ds.map digit)
      | ds => value (ds.map digit)) := by
  obtain ⟨rfl, rfl⟩ | ⟨mark, sign, digits, rfl, -, hdigits, hsign⟩ := hz
  · constructor <;> simp
  · have hclips := clips_clipped hdigits.2
    obtain ⟨rfl, rfl⟩ | ⟨rfl | rfl, rfl⟩ := hsign
    · exact hclips.neg
    · obtain ⟨d, digits, rfl⟩ := exists_cons_of_ne_nil hdigits.1
      have hd := hdigits.2 d (by simp)
      rw [tail_cons, nil_append]
      split
      · next heq =>
        cases heq
        cases hd
      · next heq =>
        cases heq
        cases hd
      · exact hclips
    · exact hclips

theorem fractionText_parts {y z fraction : Bytes} {exp : ℤ} (hy : FractionText y fraction)
    (hz : ExponentText z exp) :
    Ends isdigit (y ++ z) ∧ (∀ c ∈ fraction, isdigit c = true) ∧ fraction.length ≤ y.length ∧
    (match y ++ z with
      | 46 :: s => s.takeWhile isdigit
      | _ => []) = fraction ∧
    (match y ++ z with
      | 46 :: s => s.dropWhile isdigit
      | s => s) = z := by
  obtain ⟨hends, hpoint⟩ := exponentText_ends hz
  obtain ⟨rfl, rfl⟩ | ⟨rfl, hdigits⟩ := hy
  · rw [nil_append]
    refine ⟨hends, by simp, le_rfl, ?_, ?_⟩
    · split
      · next s => exact absurd rfl (hpoint s)
      · rfl
    · split
      · next s => exact absurd rfl (hpoint s)
      · rfl
  · refine ⟨?_, hdigits.2, by simp, ?_, ?_⟩
    · intro c hc
      cases hc
      decide
    · exact takeWhile_exact hdigits.2 hends
    · exact dropWhile_exact hdigits.2 hends

theorem parts_of_text {t : Bytes} {n : JsonNumber} (h : NumberText t n) : Parts t n := by
  obtain ⟨y, z, rfl, hx, hy, hz, hlen⟩ := h
  obtain ⟨sign, x, hint, hsign, hdigits, hzero⟩ := hx
  obtain ⟨hends, hfrac, hle, hfraction, hexp⟩ := fractionText_parts hy hz
  have htext : unsigned (n.integer ++ y ++ z) = x ++ (y ++ z) := by
    rw [hint, append_assoc]
    exact unsigned_append hsign hdigits
  have hunsigned : unsigned n.integer = x := by
    have h := unsigned_append (s := []) hsign hdigits
    rwa [append_nil, append_nil, ← hint] at h
  have hpart : exponentPart (n.integer ++ y ++ z) = z := by
    rw [exponentPart, htext, dropWhile_exact hdigits.2 hends]
    exact hexp
  constructor
  · rw [integerDigits, htext, takeWhile_exact hdigits.2 hends, hunsigned]
  · rw [fractionDigits, htext, dropWhile_exact hdigits.2 hends]
    exact hfraction
  · rw [exponentOf, hpart]
    exact exponentText_clips hz
  · rw [hunsigned]
    exact ⟨hdigits, hzero⟩
  · exact hfrac
  · rw [hunsigned]
    simp only [length_append, hint] at hlen
    omega

/-! ## The digits are read -/

theorem toLongLong_eq {n : ℤ} (h : -9223372036854775808 ≤ n ∧ n ≤ 9223372036854775807) :
    toLongLong n = some n := if_pos h

theorem toInt_eq {n : ℤ} (h : -2147483648 ≤ n ∧ n ≤ 2147483647) : toInt n = some n := if_pos h

namespace Decimal

def ofDigits (ds : List ℕ) (e : ℤ) : Decimal := ⟨value ds, e, ds.length⟩

theorem push_ofDigits {ds : List ℕ} {d : ℕ} (e : ℤ) (hds : ∀ d ∈ ds, d < 10) (hd : d < 10)
    (hlen : ds.length < 18) : (ofDigits ds e).push d = some (ofDigits (ds ++ [d]) e) := by
  have hlt : value ds < 100000000000000000 := by
    have hpow : 10 ^ ds.length ≤ 10 ^ 17 := Nat.pow_le_pow_right (by omega) (by omega)
    exact (value_lt hds).trans_le (hpow.trans (by norm_num))
  have hmul : toLongLong ((value ds : ℤ) * 10) = some ((value ds : ℤ) * 10) :=
    toLongLong_eq (by omega)
  have hadd : toLongLong ((value ds : ℤ) * 10 + d) = some ((value ds : ℤ) * 10 + d) :=
    toLongLong_eq (by omega)
  have hfig : toInt ((ds.length : ℤ) + 1) = some ((ds.length : ℤ) + 1) := toInt_eq (by omega)
  simp [push, ofDigits, hmul, hadd, hfig, value_snoc]

theorem addExp_ofDigits (ds : List ℕ) {e n : ℤ} (h : -2147483648 ≤ e + n ∧ e + n ≤ 2147483647) :
    (ofDigits ds e).addExp n = some (ofDigits ds (e + n)) := by
  have hexp : toInt (e + n) = some (e + n) := toInt_eq h
  simp [addExp, ofDigits, hexp]

theorem takeDigits_ofDigits (fraction : Bool) (cursor : Bytes) (ds : List ℕ) (e : ℤ)
    (hcursor : ∀ c ∈ cursor, isdigit c = true) (hds : ∀ d ∈ ds, d < 10) (hlen : ds.length ≤ 18)
    (he : -2147483648 ≤ e - cursor.length ∧ e ≤ 2147483647) :
    takeDigits fraction cursor (ofDigits ds e) = some (cursor.drop (18 - ds.length),
      ofDigits ((ds ++ cursor.map digit).take 18)
        (if fraction then e - (cursor.take (18 - ds.length)).length else e)) := by
  induction cursor generalizing ds e with
  | nil => simp [takeDigits, take_of_length_le hlen]
  | cons c cursor ih =>
    have hc := hcursor c mem_cons_self
    rw [length_cons] at he
    by_cases hfull : ds.length < 18
    · have hds' : ∀ d ∈ ds ++ [digit c], d < 10 := by
        intro d hd
        obtain hd | hd := mem_append.mp hd
        · exact hds d hd
        · rw [mem_singleton.mp hd]
          exact digit_lt hc
      have hlen' : (ds ++ [digit c]).length = ds.length + 1 := by simp
      have hroom : 18 - ds.length = 18 - (ds ++ [digit c]).length + 1 := by omega
      have hcond : isdigit c = true ∧ (ofDigits ds e).figures < 18 :=
        ⟨hc, by simpa [ofDigits] using hfull⟩
      have hmap : ds ++ (c :: cursor).map digit = ds ++ [digit c] ++ cursor.map digit := by simp
      rw [takeDigits, if_pos hcond, push_ofDigits e hds (digit_lt hc) hfull, hmap, hroom,
        drop_succ_cons, take_succ_cons, length_cons]
      have htail : ∀ e ∈ cursor, isdigit e = true := fun e he => hcursor e (by simp [he])
      cases fraction with
      | false => exact ih _ _ htail hds' (by omega) (by omega)
      | true =>
        have hexp := addExp_ofDigits (ds ++ [digit c]) (e := e) (n := -1) (by omega)
        have hrest := ih _ (e + -1) htail hds' (by omega) (by omega)
        simp only [Option.bind_eq_bind, Option.bind_some, ↓reduceIte, hexp, hrest]
        congr 3
        omega
    · have hcond : ¬(isdigit c = true ∧ (ofDigits ds e).figures < 18) := by
        simp only [ofDigits]
        omega
      have hroom : 18 - ds.length = 0 := by omega
      have htake : (ds ++ (c :: cursor).map digit).take 18 = ds := by
        rw [← (by omega : ds.length = 18), take_left]
      rw [takeDigits, if_neg hcond, hroom, htake]
      simp

theorem skipDigits_ofDigits (cursor : Bytes) (ds : List ℕ) {e : ℤ}
    (hcursor : ∀ c ∈ cursor, isdigit c = true) (he : -2147483648 ≤ e ∧ e + cursor.length ≤ 2147483647) :
    skipDigits cursor (ofDigits ds e) = some (ofDigits ds (e + cursor.length)) := by
  induction cursor generalizing e with
  | nil => simp [skipDigits]
  | cons c cursor ih =>
    rw [length_cons] at he ⊢
    have hexp := addExp_ofDigits ds (e := e) (n := 1) (by omega)
    have hrest := ih (fun d hd => hcursor d (by simp [hd])) (e := e + 1) (by omega)
    rw [skipDigits, if_pos (hcursor c mem_cons_self), hexp]
    simp only [Option.bind_eq_bind, Option.bind_some, hrest]
    congr 2
    omega

theorem skipZeros_ofDigits (cursor : Bytes) (ds : List ℕ) {e : ℤ}
    (he : -2147483648 ≤ e - cursor.length ∧ e ≤ 2147483647) :
    skipZeros cursor (ofDigits ds e) = some (cursor.dropWhile (· = 48),
      ofDigits ds (e - (cursor.takeWhile (· = 48)).length)) := by
  induction cursor generalizing e with
  | nil => simp [skipZeros]
  | cons c cursor ih =>
    rw [length_cons] at he
    by_cases hc : c = 48
    · have hexp := addExp_ofDigits ds (e := e) (n := -1) (by omega)
      have hrest := ih (e := e + -1) (by omega)
      rw [skipZeros, if_pos hc, hexp, takeWhile_cons_of_pos (by simpa using hc),
        dropWhile_cons_of_pos (by simpa using hc), length_cons]
      simp only [Option.bind_eq_bind, Option.bind_some, hrest]
      congr 3
      omega
    · rw [skipZeros, if_neg hc, takeWhile_cons_of_neg (by simpa using hc),
        dropWhile_cons_of_neg (by simpa using hc)]
      simp

/-! ## The scan -/

theorem dropWhile_digits {s : Bytes} (h : ∀ c ∈ s, isdigit c = true) :
    (s.map digit).dropWhile (· = 0) = (s.dropWhile (· = 48)).map digit := by
  induction s with
  | nil => rfl
  | cons c s ih =>
    by_cases hc : c = 48
    · rw [map_cons, dropWhile_cons_of_pos (by simp [hc, digit]),
        dropWhile_cons_of_pos (by simpa using hc)]
      exact ih (fun e he => h e (by simp [he]))
    · have hdigit := digit_ne_zero (h c mem_cons_self) hc
      rw [map_cons, dropWhile_cons_of_neg (by simpa using hdigit),
        dropWhile_cons_of_neg (by simpa using hc), map_cons]

theorem take_take_append {α : Type} (k : ℕ) (a b : List α) :
    (a.take k ++ b).take k = (a ++ b).take k := by
  have hroom : k - (a.take k).length = k - a.length := by
    rw [length_take]
    omega
  rw [take_append, take_append, take_take, min_self, hroom]

def Scans (t : Bytes) (n : JsonNumber) : Prop :=
  ∃ rest, (scanInteger (unsigned n.integer) n.fraction ⟨0, n.exp, 0⟩).bind
      (fun p => takeDigits true p.1 p.2) = some (rest, ofDigits ((leadingDigits t).take 18)
        (n.exp - n.fraction.length + ((leadingDigits t).drop 18).length))

theorem scan_zero {t : Bytes} {n : JsonNumber} (h : Parts t n)
    (hzero : unsigned n.integer = [48]) : Scans t n := by
  have hexp := h.exp.small
  have hlen := h.length
  have hleading : leadingDigits t = (n.fraction.dropWhile (· = 48)).map digit := by
    rw [leadingDigits, h.integer, h.fraction, hzero, ← dropWhile_digits h.digits]
    exact dropWhile_cons_of_pos (by decide)
  have hsplit : (n.fraction.takeWhile (· = 48)).length +
      (n.fraction.dropWhile (· = 48)).length = n.fraction.length := by
    rw [← length_append, takeWhile_append_dropWhile]
  have hskip := skipZeros_ofDigits n.fraction [] (e := n.exp) (by omega)
  have htake := takeDigits_ofDigits true (n.fraction.dropWhile (· = 48)) []
    (n.exp - (n.fraction.takeWhile (· = 48)).length)
    (fun c hc => h.digits c ((dropWhile_sublist _).subset hc)) (by simp) (by simp) (by omega)
  refine ⟨(n.fraction.dropWhile (· = 48)).drop 18, ?_⟩
  have hscan : scanInteger (unsigned n.integer) n.fraction ⟨0, n.exp, 0⟩ =
      skipZeros n.fraction (ofDigits [] n.exp) := by
    rw [hzero]
    rfl
  rw [hscan, hskip, Option.bind_some, htake, hleading]
  congr 3
  simp only [length_take, length_drop, length_map, length_nil, ↓reduceIte]
  omega

theorem scan_integer {t : Bytes} {n : JsonNumber} {d : UInt8} {integer : Bytes} (h : Parts t n)
    (hint : unsigned n.integer = d :: integer) (hd : d ≠ 48) : Scans t n := by
  have hexp := h.exp.small
  have hlen := h.length
  have hdigits : ∀ c ∈ d :: integer, isdigit c = true := by
    rw [← hint]
    exact h.unsigned.1.2
  have hd' := hdigits d mem_cons_self
  have hinteger : ∀ c ∈ integer, isdigit c = true := fun c hc => hdigits c (by simp [hc])
  rw [hint, length_cons] at hlen
  have hleading : leadingDigits t = [digit d] ++ integer.map digit ++ n.fraction.map digit := by
    rw [leadingDigits, h.integer, h.fraction, hint]
    rw [map_append, map_cons, cons_append,
      dropWhile_cons_of_neg (by simpa using digit_ne_zero hd' hd)]
    simp
  have hone : ∀ e ∈ [digit d], e < 10 := by simpa using digit_lt hd'
  have htake := takeDigits_ofDigits false integer [digit d] n.exp hinteger hone (by simp)
    (by omega)
  generalize hkept : ([digit d] ++ integer.map digit).take 18 = kept at htake
  have hkeptlen : kept.length = min 18 (1 + integer.length) := by
    rw [← hkept]
    simp only [length_take, length_append, length_singleton, length_map]
  have hkeptdigits : ∀ e ∈ kept, e < 10 := by
    intro e he
    rw [← hkept] at he
    obtain he | he := mem_append.mp (mem_of_mem_take he)
    · exact hone e he
    · obtain ⟨c, hc, rfl⟩ := mem_map.mp he
      exact digit_lt (hinteger c hc)
  have hskip := skipDigits_ofDigits (integer.drop 17) kept (e := n.exp)
    (fun c hc => hinteger c (mem_of_mem_drop hc)) (by rw [length_drop]; omega)
  have hfrac := takeDigits_ofDigits true n.fraction kept (n.exp + (integer.drop 17).length)
    h.digits hkeptdigits (by omega) (by rw [length_drop]; omega)
  refine ⟨n.fraction.drop (18 - kept.length), ?_⟩
  have hscan : scanInteger (unsigned n.integer) n.fraction ⟨0, n.exp, 0⟩ =
      some (n.fraction, ofDigits kept (n.exp + (integer.drop 17).length)) := by
    have hstart : (⟨(digit d : ℕ), n.exp, 0 + 1⟩ : Decimal) = ofDigits [digit d] n.exp := by
      simp [ofDigits, value]
    rw [hint, scanInteger, if_pos hd]
    simp only [hstart, htake, hskip, Option.bind_eq_bind, Option.bind_some, Bool.false_eq_true,
      ↓reduceIte, length_singleton, Option.pure_def]
  rw [hscan, Option.bind_some, hfrac, ← hkept, take_take_append, hkept, hleading]
  congr 3
  simp only [length_take, length_drop, length_map, length_append,
    length_singleton, hkeptlen, ↓reduceIte]
  omega

theorem decimalOf_eq {t : Bytes} {n : JsonNumber} (h : Parts t n) :
    decimalOf n = (ofDigits ((leadingDigits t).take 18)
      (n.exp - n.fraction.length + ((leadingDigits t).drop 18).length)).normalize := by
  obtain ⟨d, integer, hint⟩ := exists_cons_of_ne_nil h.unsigned.1.1
  have hscan : Scans t n := by
    by_cases hd : d = 48
    · exact scan_zero h (h.unsigned.2 (by rw [hint, hd]; rfl))
    · exact scan_integer h hint hd
  obtain ⟨rest, hscan⟩ := hscan
  obtain ⟨p, hp, htake⟩ := Option.bind_eq_some_iff.mp hscan
  simp [decimalOf, hp, htake]

/-! ## The two loops behind the scan -/

structure Sized (m figures : ℕ) : Prop where
  pos : 0 < figures
  le : figures ≤ 18
  low : 10 ^ (figures - 1) ≤ m
  high : m < 10 ^ figures

theorem Sized.lt {m figures : ℕ} (h : Sized m figures) (hlt : figures < 18) :
    m < 100000000000000000 := by
  have hpow : 10 ^ figures ≤ 10 ^ 17 := Nat.pow_le_pow_right (by omega) (by omega)
  exact h.high.trans_le (hpow.trans (by norm_num))

theorem Sized.raise {m figures : ℕ} (h : Sized m figures) (hlt : figures < 18) :
    Sized (m * 10) (figures + 1) := by
  obtain ⟨hpos, -, hlow, hhigh⟩ := h
  obtain ⟨k, rfl⟩ := Nat.exists_eq_add_one.mpr hpos
  refine ⟨by omega, by omega, ?_, ?_⟩
  · rw [Nat.add_sub_cancel] at hlow ⊢
    rw [pow_succ]
    omega
  · rw [pow_succ _ (k + 1)]
    omega

theorem Sized.reduce {m figures : ℕ} (h : Sized (m * 10) figures) : Sized m (figures - 1) := by
  obtain ⟨hpos, hle, hlow, hhigh⟩ := h
  obtain ⟨k, rfl⟩ := Nat.exists_eq_add_one.mpr hpos
  have hk : k ≠ 0 := by
    rintro rfl
    rw [Nat.add_sub_cancel, pow_zero] at hlow
    rw [zero_add, pow_one] at hhigh
    omega
  obtain ⟨j, rfl⟩ := Nat.exists_eq_add_one.mpr (Nat.pos_of_ne_zero hk)
  simp only [Nat.add_sub_cancel] at hlow ⊢
  rw [pow_succ] at hlow hhigh
  exact ⟨by omega, by omega, by rw [Nat.add_sub_cancel]; omega, by omega⟩

theorem raise_spec (rounds : ℕ) {m figures : ℕ} {e : ℤ} (hs : Sized m figures)
    (hrounds : 18 ≤ figures + rounds) (he : e.natAbs ≤ 2147483647) :
    ∃ (m' figures' : ℕ) (e' : ℤ), raise rounds ⟨m, e, figures⟩ = some ⟨m', e', figures'⟩ ∧
      Sized m' figures' ∧ (0 < e' → figures' = 18) ∧ (m' : ℚ) * 10 ^ e' = m * 10 ^ e ∧
      (e ≤ 0 ∨ figures = 18 → m' = m ∧ e' = e) ∧ e'.natAbs ≤ e.natAbs := by
  induction rounds generalizing m figures e with
  | zero =>
    have hle := hs.le
    exact ⟨m, figures, e, rfl, hs, fun _ => by omega, rfl, fun _ => ⟨rfl, rfl⟩, le_rfl⟩
  | succ rounds ih =>
    by_cases h : 0 < e ∧ figures < 18
    · have hm := hs.lt h.2
      obtain ⟨m', figures', e', hraise, hs', hfull, heq, -, habs⟩ :=
        ih (hs.raise h.2) (e := e - 1) (by omega) (by omega)
      have hmant : toLongLong ((m : ℤ) * 10) = some ((m * 10 : ℕ) : ℤ) := toLongLong_eq (by omega)
      have hexp : toInt (e - 1) = some (e - 1) := toInt_eq (by omega)
      have hfig : toInt ((figures : ℤ) + 1) = some ((figures + 1 : ℕ) : ℤ) := toInt_eq (by omega)
      refine ⟨m', figures', e', ?_, hs', hfull, ?_, by omega, by omega⟩
      · rw [Decimal.raise, if_pos (by simpa using h)]
        simp only [hmant, hexp, hfig, Option.bind_eq_bind, Option.bind_some, hraise]
      · rw [heq, raise_eq]
    · have hle := hs.le
      have hcond : ¬(0 < e ∧ (figures : ℤ) < 18) := by omega
      refine ⟨m, figures, e, ?_, hs, fun _ => by omega, rfl, fun _ => ⟨rfl, rfl⟩, le_rfl⟩
      rw [Decimal.raise, if_neg hcond]

theorem reduce_spec (rounds : ℕ) {m figures : ℕ} {e : ℤ} {v : ℚ} (hs : Sized m figures)
    (hv : Within m e v) (hrounds : e.natAbs ≤ rounds) (he : e.natAbs ≤ 2147483647) :
    ∃ (m' figures' : ℕ) (e' : ℤ), reduce rounds ⟨m, e, figures⟩ = some ⟨m', e', figures'⟩ ∧
      Sized m' figures' ∧ Within m' e' v ∧ (v = m * 10 ^ e → v = m' * 10 ^ e') ∧
      (e < 0 → e' ≤ 0) ∧ (0 ≤ e → e' = e ∧ figures' = figures) ∧ ¬(e' < 0 ∧ m' % 10 = 0) := by
  induction rounds generalizing m figures e with
  | zero => exact ⟨m, figures, e, rfl, hs, hv, id, by omega, fun _ => ⟨rfl, rfl⟩, by omega⟩
  | succ rounds ih =>
    by_cases h : e < 0 ∧ m % 10 = 0
    · obtain ⟨hneg, hmod⟩ := h
      obtain ⟨k, rfl⟩ : ∃ k, m = k * 10 := ⟨m / 10, by omega⟩
      obtain ⟨m', figures', e', hreduce, hs', hv', hexact, hle, hsame, hend⟩ :=
        ih hs.reduce hv.reduce (by omega) (by omega)
      have hpos := hs.pos
      have hfigures := hs.le
      have hexp : toInt (e + 1) = some (e + 1) := toInt_eq (by omega)
      have hfig : toInt ((figures : ℤ) - 1) = some ((figures - 1 : ℕ) : ℤ) := by
        rw [Nat.cast_sub hpos]
        exact toInt_eq (by omega)
      have hcond : e < 0 ∧ ((k * 10 : ℕ) : ℤ).tmod 10 = 0 := by
        refine ⟨hneg, ?_⟩
        push_cast
        exact Int.mul_tmod_left _ _
      have hdiv : ((k * 10 : ℕ) : ℤ).tdiv 10 = (k : ℤ) := by
        push_cast
        exact Int.mul_tdiv_cancel _ (by decide)
      refine ⟨m', figures', e', ?_, hs', hv', ?_, by omega, by omega, hend⟩
      · rw [Decimal.reduce, if_pos hcond]
        simp only [hexp, hfig, hdiv, Option.bind_eq_bind, Option.bind_some, hreduce]
      · intro heq
        apply hexact
        have hraise := raise_eq k (e + 1)
        rw [add_sub_cancel_right] at hraise
        rw [heq, hraise]
    · have hcond : ¬(e < 0 ∧ ((m : ℕ) : ℤ).tmod 10 = 0) := by
        rintro ⟨hneg, hmod⟩
        have hmod : ((m % 10 : ℕ) : ℤ) = 0 := hmod
        exact h ⟨hneg, by omega⟩
      refine ⟨m, figures, e, ?_, hs, hv, id, by omega, fun _ => ⟨rfl, rfl⟩, h⟩
      rw [Decimal.reduce, if_neg hcond]

theorem normalize_spec {m figures : ℕ} {e : ℤ} {v : ℚ} (hs : Sized m figures) (hv : Within m e v)
    (hshort : figures < 18 → v = m * 10 ^ e) (he : e.natAbs ≤ 2147483647) :
    ∃ (m' figures' : ℕ) (e' : ℤ), normalize ⟨m, e, figures⟩ = some ⟨m', e', figures'⟩ ∧
      Sized m' figures' ∧ Within m' e' v ∧ (v = m * 10 ^ e → v = m' * 10 ^ e') ∧
      (0 < e' → figures' = 18) := by
  have hpos := hs.pos
  by_cases h : e ≠ 0
  · obtain ⟨m₁, figures₁, e₁, hraise, hs₁, hfull, heq, hsame, habs⟩ :=
      raise_spec 18 hs (by omega) he
    have hv₁ : Within m₁ e₁ v := by
      by_cases hstay : e ≤ 0 ∨ figures = 18
      · obtain ⟨rfl, rfl⟩ := hsame hstay
        exact hv
      · have hle := hs.le
        exact within_of_eq (by rw [heq, hshort (by omega)])
    obtain ⟨m', figures', e', hreduce, hs', hv', hexact, hneg, hsame', -⟩ :=
      reduce_spec e₁.natAbs hs₁ hv₁ le_rfl (by omega)
    refine ⟨m', figures', e', ?_, hs', hv', ?_, ?_⟩
    · have hfigures : (figures : ℤ) ≠ 0 := by omega
      rw [normalize, if_pos ⟨h, hfigures⟩]
      simp only [hraise, Option.bind_eq_bind, Option.bind_some, hreduce]
    · intro hv
      exact hexact (by rw [heq, hv])
    · intro hpos'
      by_cases he₁ : 0 ≤ e₁
      · obtain ⟨rfl, rfl⟩ := hsame' he₁
        exact hfull hpos'
      · have := hneg (by omega)
        omega
  · refine ⟨m, figures, e, ?_, hs, hv, id, by omega⟩
    rw [normalize, if_neg (fun hc => h hc.1)]

end Decimal

/-! ## The whole evaluation -/

theorem intExponentFrom_eq {exp : ℕ} (h : exp < 20000000) (cursor : Bytes) :
    intExponentFrom exp cursor =
      some (((exponentFrom exp cursor).1 : ℤ), (exponentFrom exp cursor).2) := by
  induction cursor generalizing exp with
  | nil => rfl
  | cons c cursor ih =>
    by_cases hc : (isdigit c && exp < 2000000) = true
    · have hsplit := hc
      rw [Bool.and_eq_true, decide_eq_true_eq] at hsplit
      have hdigit := digit_lt hsplit.1
      have hcond : (isdigit c && (exp : ℤ) < 2000000) = true := by
        rw [Bool.and_eq_true, decide_eq_true_eq]
        exact ⟨hsplit.1, by omega⟩
      have hmul : toInt ((exp : ℤ) * 10) = some ((exp : ℤ) * 10) := toInt_eq (by omega)
      have hadd : toInt ((exp : ℤ) * 10 + digit c) = some ((exp * 10 + digit c : ℕ) : ℤ) :=
        toInt_eq (by omega)
      rw [intExponentFrom, if_pos hcond, exponentFrom, if_pos hc]
      simp only [hmul, hadd, Option.bind_eq_bind, Option.bind_some]
      exact ih (by omega)
    · have hcond : ¬(isdigit c && (exp : ℤ) < 2000000) = true := by
        intro hcond
        rw [Bool.and_eq_true, decide_eq_true_eq] at hcond
        exact hc (by rw [Bool.and_eq_true, decide_eq_true_eq]; exact ⟨hcond.1, by omega⟩)
      rw [intExponentFrom, if_neg hcond, exponentFrom, if_neg hc]

theorem leadingDigits_lt {t : Bytes} {n : JsonNumber} (h : Parts t n) :
    ∀ d ∈ leadingDigits t, d < 10 := by
  intro d hd
  obtain ⟨c, hc, rfl⟩ := mem_map.mp ((dropWhile_sublist _).subset hd)
  rw [h.integer, h.fraction] at hc
  obtain hc | hc := mem_append.mp hc
  · exact digit_lt (h.unsigned.1.2 c hc)
  · exact digit_lt (h.digits c hc)

theorem leadingDigits_length {t : Bytes} {n : JsonNumber} (h : Parts t n) :
    (leadingDigits t).length ≤ 1000000 := by
  have hle := (dropWhile_sublist (l := (integerDigits t ++ fractionDigits t).map digit)
    (fun d => decide (d = 0))).length_le
  refine hle.trans ?_
  rw [length_map, length_append, h.integer, h.fraction]
  exact h.length

theorem value_leadingDigits (t : Bytes) : value (leadingDigits t) =
    value ((integerDigits t ++ fractionDigits t).map digit) := value_dropWhile _

theorem leadingDigits_cons {t : Bytes} (hv : magnitude t ≠ 0) :
    ∃ d ds, leadingDigits t = d :: ds ∧ d ≠ 0 := by
  have hne : leadingDigits t ≠ [] := by
    intro hnil
    apply hv
    rw [magnitude, ← value_leadingDigits, hnil, value_nil, Nat.cast_zero, zero_mul]
  obtain ⟨d, ds, hcons⟩ := exists_cons_of_ne_nil hne
  have hhead : decide ((leadingDigits t).head hne = 0) = false :=
    head_dropWhile_not (fun d : ℕ => decide (d = 0)) hne
  simp only [hcons, head_cons, decide_eq_false_iff_not] at hhead
  exact ⟨d, ds, hcons, hhead⟩

theorem value_behind {t : Bytes} (h : (significantDigits t).length ≤ 18) :
    value ((leadingDigits t).drop 18) = 0 := by
  have hsplit : significantDigits t ++ (leadingDigits t).rtakeWhile (· = 0) = leadingDigits t :=
    rdropWhile_append_rtakeWhile
  rw [← hsplit, drop_append, drop_of_length_le h, nil_append]
  apply value_eq_zero
  intro d hd
  simpa using mem_rtakeWhile_imp (mem_of_mem_drop hd)

def clippedMagnitude (t : Bytes) (n : JsonNumber) : ℚ :=
  value (leadingDigits t) * 10 ^ (n.exp - n.fraction.length)

theorem decimalOf_spec {t : Bytes} {n : JsonNumber} (h : Parts t n) (hv : magnitude t ≠ 0) :
    ∃ (m figures : ℕ) (e : ℤ), decimalOf n = some ⟨m, e, figures⟩ ∧ Decimal.Sized m figures ∧
      Within m e (clippedMagnitude t n) ∧ (0 < e → figures = 18) ∧
      ((significantDigits t).length ≤ 18 → clippedMagnitude t n = m * 10 ^ e) := by
  have hexp := h.exp.small
  have hlen := h.length
  have hlt := leadingDigits_lt h
  have hleading := leadingDigits_length h
  obtain ⟨d, ds, hcons, hd⟩ := leadingDigits_cons hv
  have htake : (leadingDigits t).take 18 = d :: ds.take 17 := by rw [hcons, take_succ_cons]
  have hs : Decimal.Sized (value ((leadingDigits t).take 18)) ((leadingDigits t).take 18).length := by
    refine ⟨?_, ?_, ?_, ?_⟩
    · rw [htake]
      simp
    · exact length_take_le _ _
    · rw [htake, length_cons, Nat.add_sub_cancel]
      exact le_value hd
    · exact value_lt (fun e he => hlt e (mem_of_mem_take he))
  have hshort : ((leadingDigits t).take 18).length < 18 →
      clippedMagnitude t n = value ((leadingDigits t).take 18) *
        10 ^ (n.exp - n.fraction.length + ((leadingDigits t).drop 18).length) := by
    intro hfew
    apply value_take
    rw [length_take] at hfew
    rw [drop_of_length_le (by omega), value_nil]
  obtain ⟨m, figures, e, hnormal, hs', hwithin, hexact, hfull⟩ :=
    Decimal.normalize_spec hs (within_take hlt 18 (n.exp - n.fraction.length)) hshort
      (by rw [length_drop]; omega)
  refine ⟨m, figures, e, ?_, hs', hwithin, hfull, ?_⟩
  · rw [Decimal.decimalOf_eq h]
    exact hnormal
  · intro hfew
    exact hexact (value_take (value_behind hfew) _)

theorem magnitude_eq {t : Bytes} {n : JsonNumber} (h : Parts t n) :
    magnitude t = value (leadingDigits t) * 10 ^ (exponentOf t - n.fraction.length) := by
  rw [magnitude, value_leadingDigits, h.fraction]

theorem clippedMagnitude_spec {t : Bytes} {n : JsonNumber} (h : Parts t n) :
    (2000000 ≤ n.exp → clippedMagnitude t n ≤ magnitude t) ∧
    (n.exp ≤ -2000000 → magnitude t ≤ clippedMagnitude t n) ∧
    (-2000000 < n.exp → n.exp < 2000000 → magnitude t = clippedMagnitude t n) := by
  rw [magnitude_eq h, clippedMagnitude]
  have hvalue : (0 : ℚ) ≤ value (leadingDigits t) := Nat.cast_nonneg _
  refine ⟨fun hle => ?_, fun hle => ?_, fun hlo hhi => ?_⟩
  · have hexp := h.exp.above hle
    exact mul_le_mul_of_nonneg_left (ten_zpow_le (by omega)) hvalue
  · have hexp := h.exp.below hle
    exact mul_le_mul_of_nonneg_left (ten_zpow_le (by omega)) hvalue
  · rw [h.exp.exact hlo hhi]

theorem clipped_outside {t : Bytes} {n : JsonNumber} {m figures : ℕ} {e : ℤ} (h : Parts t n)
    (hv : magnitude t ≠ 0) (hs : Decimal.Sized m figures)
    (hwithin : Within m e (clippedMagnitude t n)) :
    (2000000 ≤ n.exp → 291 < e) ∧ (n.exp ≤ -2000000 → e ≤ -324 - figures) := by
  have hlen := h.length
  have hpos := hs.pos
  have hle := hs.le
  have hleading := leadingDigits_length h
  obtain ⟨d, ds, hcons, hd⟩ := leadingDigits_cons hv
  have hfrac : n.fraction.length ≤ 1000000 := by omega
  constructor
  · intro hexp
    have hone : 1 ≤ value (leadingDigits t) := by
      rw [hcons]
      exact Nat.one_le_two_pow.trans ((Nat.pow_le_pow_left (by decide) _).trans (le_value hd))
    have hlow : (10 : ℚ) ^ (n.exp - n.fraction.length) ≤ clippedMagnitude t n := by
      have hcast : (1 : ℚ) ≤ value (leadingDigits t) := by exact_mod_cast hone
      exact le_mul_of_one_le_left (ten_zpow_pos _).le hcast
    have hlt := lt_of_ten_zpow_lt (hlow.trans_lt (hwithin.lt_pow hs.high))
    omega
  · intro hexp
    have hhigh : clippedMagnitude t n <
        10 ^ (n.exp - n.fraction.length + (leadingDigits t).length) := by
      have hcast : (value (leadingDigits t) : ℚ) < 10 ^ (leadingDigits t).length := by
        exact_mod_cast value_lt (leadingDigits_lt h)
      rw [ten_zpow_add, clippedMagnitude]
      exact mul_lt_mul_of_pos_right hcast (ten_zpow_pos _)
    have hlt := lt_of_ten_zpow_lt ((hwithin.pow_le hs.low).trans_lt hhigh)
    omega

theorem scaling_spec {m figures : ℕ} {e : ℤ} (hs : Decimal.Sized m figures) :
    ∃ num, scaling ⟨m, e, figures⟩ = some num ∧ (num = .infinity ↔ 291 < e) ∧
      (num = .zero ↔ e ≤ -324 - figures) := by
  have hpos := hs.pos
  have hle := hs.le
  have hfigures : (figures : ℤ) ≠ 0 := by omega
  have hindex : ∀ i : ℤ, (hi : 0 ≤ i ∧ i < 309) → powerIndex i = some ⟨i.toNat, by omega⟩ :=
    fun i hi => dif_pos hi
  by_cases he : e = 0
  · refine ⟨.plain, by simp [scaling, he], ?_, ?_⟩
    · simp only [reduceCtorEq, false_iff]
      omega
    · simp only [reduceCtorEq, false_iff]
      omega
  · rw [scaling, if_pos ⟨he, hfigures⟩]
    dsimp only
    split_ifs with h1 h2 h3 h4
    · exact ⟨.infinity, rfl, by simpa using h1, by simp only [reduceCtorEq, false_iff]; omega⟩
    · refine ⟨_, by rw [hindex _ ⟨by omega, by omega⟩]; rfl, ?_, ?_⟩
      all_goals
        simp only [reduceCtorEq, false_iff]
        omega
    · refine ⟨_, by rw [hindex _ ⟨by omega, by omega⟩]; rfl, ?_, ?_⟩
      all_goals
        simp only [reduceCtorEq, false_iff]
        omega
    · refine ⟨_, by rw [hindex _ ⟨by omega, by omega⟩, hindex 308 ⟨by omega, by omega⟩]; rfl, ?_, ?_⟩
      all_goals
        simp only [reduceCtorEq, false_iff]
        omega
    · exact ⟨.zero, rfl, by simp only [reduceCtorEq, false_iff]; omega, by simp; omega⟩

structure Evaluates (t : Bytes) (x : Decimal) (num : Scaling) : Prop where
  infinity : num = .infinity → 10 ^ 309 ≤ magnitude t
  zero : num = .zero → magnitude t < 10 ^ (-324 : ℤ)
  within : num ≠ .infinity → num ≠ .zero →
    (x.mant : ℚ) * 10 ^ x.exp ≤ magnitude t ∧ magnitude t < ((x.mant : ℚ) + 1) * 10 ^ x.exp
  exact : num ≠ .infinity → num ≠ .zero → (significantDigits t).length ≤ 18 →
    magnitude t = (x.mant : ℚ) * 10 ^ x.exp
  figures : 1 ≤ x.figures ∧ 10 ^ (x.figures.toNat - 1) ≤ x.mant ∧ x.mant < 10 ^ x.figures.toNat

theorem evaluates {t : Bytes} {n : JsonNumber} {m figures : ℕ} {e : ℤ} {num : Scaling}
    (h : Parts t n) (hv : magnitude t ≠ 0) (hs : Decimal.Sized m figures)
    (hwithin : Within m e (clippedMagnitude t n)) (hfull : 0 < e → figures = 18)
    (hexact : (significantDigits t).length ≤ 18 → clippedMagnitude t n = m * 10 ^ e)
    (hinf : num = .infinity ↔ 291 < e) (hzero : num = .zero ↔ e ≤ -324 - figures) :
    Evaluates t ⟨m, e, figures⟩ num := by
  obtain ⟨habove, hbelow, hsame⟩ := clippedMagnitude_spec h
  obtain ⟨hlarge, hsmall⟩ := clipped_outside h hv hs hwithin
  have hpos := hs.pos
  have hkept : num ≠ .infinity → num ≠ .zero → magnitude t = clippedMagnitude t n := by
    intro hi hz
    rw [Ne, hinf] at hi
    rw [Ne, hzero] at hz
    exact hsame (by_contra fun hc => hz (hsmall (by omega)))
      (by_contra fun hc => hi (hlarge (by omega)))
  refine ⟨?_, ?_, ?_, ?_, ?_⟩
  · intro hnum
    have he := hinf.mp hnum
    have hle : clippedMagnitude t n ≤ magnitude t := by
      by_cases hclip : 2000000 ≤ n.exp
      · exact habove hclip
      · refine (hsame ?_ (by omega)).ge
        by_contra hc
        have := hsmall (by omega)
        omega
    have hlow : (10 : ℚ) ^ (e + (figures - 1 : ℕ)) ≤ clippedMagnitude t n := hwithin.pow_le hs.low
    have hpow : (10 : ℚ) ^ (309 : ℤ) ≤ 10 ^ (e + (figures - 1 : ℕ)) := by
      apply ten_zpow_le
      have := hfull (by omega)
      omega
    have hnat : (10 : ℚ) ^ 309 = 10 ^ (309 : ℤ) := (zpow_natCast 10 309).symm
    rw [hnat]
    exact (hpow.trans hlow).trans hle
  · intro hnum
    have he := hzero.mp hnum
    have hle : magnitude t ≤ clippedMagnitude t n := by
      by_cases hclip : n.exp ≤ -2000000
      · exact hbelow hclip
      · refine (hsame (by omega) ?_).le
        by_contra hc
        have := hlarge (by omega)
        omega
    exact hle.trans_lt ((hwithin.lt_pow hs.high).trans_le (ten_zpow_le (by omega)))
  · intro hi hz
    rw [hkept hi hz]
    exact ⟨hwithin.lower, hwithin.upper⟩
  · intro hi hz hfew
    rw [hkept hi hz]
    exact hexact hfew
  · refine ⟨by dsimp only; omega, ?_, ?_⟩
    · have hlow := hs.low
      simp only [Int.toNat_natCast]
      exact_mod_cast hlow
    · have hhigh := hs.high
      simp only [Int.toNat_natCast]
      exact_mod_cast hhigh

/-- Every literal is evaluated within what C defines, to 18 digits, and to `INFINITY` or 0 only
    outside the range of a `double`. -/
theorem evaluate_json_number_sound {t rest : Bytes} {n : JsonNumber}
    (hparse : parseJsonNumber (t ++ rest) = .ok (n, rest)) (hv : magnitude t ≠ 0) :
    (∀ d s, isdigit d = true → intExponentFrom (digit d) s =
      some (((exponentFrom (digit d) s).1 : ℤ), (exponentFrom (digit d) s).2)) ∧
    ∃ x num, decimalOf n = some x ∧
      evaluateJsonNumber n = some (decide (n.integer.head? = some 45), x.mant, num) ∧
      Evaluates t x num := by
  obtain ⟨t', ht, htext⟩ := (parseJsonNumber_recognizes fun _ => False).sound hparse
  rw [← append_cancel_right ht] at htext
  have h := parts_of_text htext
  obtain ⟨m, figures, e, hdecimal, hs, hwithin, hfull, hexact⟩ := decimalOf_spec h hv
  obtain ⟨num, hnum, hinf, hzero⟩ := scaling_spec (e := e) hs
  refine ⟨?_, _, num, hdecimal, ?_, evaluates h hv hs hwithin hfull hexact hinf hzero⟩
  · intro d s hd
    have hdigit := digit_lt hd
    exact intExponentFrom_eq (by omega) s
  · simp [evaluateJsonNumber, hdecimal, hnum]

theorem negativeFraction_evaluates :
    parseJsonNumber (bytes "-12.50e-400" ++ bytes ",") =
      .ok (⟨bytes "-12", bytes "50", -400⟩, bytes ",") ∧
    ∃ x num, decimalOf ⟨bytes "-12", bytes "50", -400⟩ = some x ∧
      evaluateJsonNumber ⟨bytes "-12", bytes "50", -400⟩ = some (true, x.mant, num) ∧
      Evaluates (bytes "-12.50e-400") x num := by
  have hparse : parseJsonNumber (bytes "-12.50e-400" ++ bytes ",") =
      .ok (⟨bytes "-12", bytes "50", -400⟩, bytes ",") := by decide
  exact ⟨hparse, (evaluate_json_number_sound hparse (by decide +kernel)).2⟩

end MyWorkflow.Json
