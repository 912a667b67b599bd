import MyWorkflow.JsonGrammar

set_option autoImplicit false

namespace MyWorkflow.Json
open List CString Recognizer

theorem hexVal_eq (c : UInt8) :
    hexVal c = if digitVal c < 16 then some (digitVal c) else none := by
  revert c
  exact forall_byte (by decide +kernel)

theorem hex4From_iff (i code n : ℕ) (s rest : Bytes) :
    hex4From i code s = some (n, rest) ↔ ∃ h, s = h ++ rest ∧ h.length = i ∧
      (∀ c ∈ h, digitVal c < 16) ∧ h.foldl (fun n c => n * 16 + digitVal c) code = n := by
  induction i generalizing code s with
  | zero =>
    constructor
    · intro h
      cases h
      exact ⟨[], rfl, rfl, by simp, rfl⟩
    · rintro ⟨h, rfl, hlen, -, rfl⟩
      rw [length_eq_zero_iff] at hlen
      rw [hlen]
      rfl
  | succ i ih =>
    cases s with
    | nil =>
      refine iff_of_false (by simp [hex4From]) ?_
      rintro ⟨h, hs, hlen, -⟩
      rw [nil_eq, append_eq_nil_iff] at hs
      rw [hs.1] at hlen
      cases hlen
    | cons c s =>
      rw [hex4From, hexVal_eq]
      by_cases hc : digitVal c < 16
      · simp only [hc, ↓reduceIte]
        rw [ih]
        constructor
        · rintro ⟨h, rfl, hlen, hdigits, hvalue⟩
          refine ⟨c :: h, rfl, by simp [hlen], by simpa using ⟨hc, hdigits⟩, ?_⟩
          rw [Nat.shiftLeft_eq] at hvalue
          exact hvalue
        · rintro ⟨_ | ⟨d, h⟩, hs, hlen, hdigits, hvalue⟩
          · cases hlen
          · cases hs
            refine ⟨h, rfl, by simpa using hlen, fun e he => hdigits e (by simp [he]), ?_⟩
            rw [Nat.shiftLeft_eq]
            exact hvalue
      · simp only [hc, ↓reduceIte]
        refine iff_of_false (by simp) ?_
        rintro ⟨_ | ⟨d, h⟩, hs, hlen, hdigits, -⟩
        · cases hlen
        · cases hs
          exact hc (hdigits c (by simp))

theorem parseJsonHex4_iff (s rest : Bytes) (code : ℕ) :
    parseJsonHex4 s = some (code, rest) ↔ ∃ h, s = h ++ rest ∧ Hex4 h code := by
  rw [parseJsonHex4, hex4From_iff]
  constructor
  · rintro ⟨h, hs, hlen, hdigits, hvalue⟩
    exact ⟨h, hs, hlen, hdigits, (digitsVal_eq hdigits).trans hvalue⟩
  · rintro ⟨h, hs, hlen, hdigits, hvalue⟩
    exact ⟨h, hs, hlen, hdigits, (digitsVal_eq hdigits).symm.trans hvalue⟩

theorem Hex4.lt {h : Bytes} {code : ℕ} (hex : Hex4 h code) : code < 0x10000 := by
  have hlt := digitsVal_lt hex.digits
  rw [hex.length, hex.value] at hlt
  exact hlt

theorem or_lead : (∀ a < 32, 0xc0 ||| a = a % 32 + 192) ∧ (∀ a < 16, 0xe0 ||| a = a % 16 + 224) ∧
    (∀ a < 8, 0xf0 ||| a = a % 8 + 240) := by
  decide

theorem or_tail : ∀ a < 64, 0x80 ||| a = a + 128 := by
  decide

theorem utf8_eq (c : Char) : utf8 c.toNat = String.utf8EncodeChar c := by
  have hmax : c.toNat < 0x110000 := by
    have := c.valid
    simp only [UInt32.isValidChar, Nat.isValidChar] at this
    change c.val.toNat < _
    omega
  have hand : ∀ a : ℕ, a &&& 0x3f = a % 64 := fun a => Nat.and_two_pow_sub_one_eq_mod a 6
  have htail : ∀ a : ℕ, 0x80 ||| a % 64 = a % 64 + 128 :=
    fun a => or_tail _ (Nat.mod_lt _ (by decide))
  obtain ⟨h2, h3, h4⟩ := or_lead
  unfold utf8 String.utf8EncodeChar
  change _ = if c.toNat ≤ 127 then [UInt8.ofNat c.toNat] else _
  simp only [Nat.shiftRight_eq_div_pow, hand, htail]
  by_cases h7 : c.toNat ≤ 0x7f
  · rw [if_pos h7, if_pos h7]
  rw [if_neg h7, if_neg h7]
  by_cases h11 : c.toNat ≤ 0x7ff
  · rw [if_pos h11, h2 _ (by omega)]
    exact (if_pos h11).symm
  rw [if_neg h11]
  refine Eq.trans ?_ (if_neg h11).symm
  by_cases h16 : c.toNat ≤ 0xffff
  · rw [if_pos h16, h3 _ (by omega)]
    exact (if_pos h16).symm
  rw [if_neg h16, h4 _ (by omega)]
  exact (if_neg h16).symm

theorem exists_char (code : ℕ) (h : Nat.isValidChar code) : ∃ c : Char, c.toNat = code := by
  refine ⟨Char.ofNat code, ?_⟩
  rw [Char.ofNat, dif_pos h]
  rfl

theorem char_valid (c : Char) : Nat.isValidChar c.toNat := c.valid

theorem surrogates_eq {hi lo : ℕ} (high : 0xd800 ≤ hi ∧ hi ≤ 0xdbff)
    (low : 0xdc00 ≤ lo ∧ lo ≤ 0xdfff) :
    (((hi &&& 0x3ff) <<< 10) ||| (lo &&& 0x3ff)) + 0x10000 =
      0x10000 + (hi - 0xd800) * 0x400 + (lo - 0xdc00) := by
  have hand : ∀ a : ℕ, a &&& 0x3ff = a % 1024 := fun a => Nat.and_two_pow_sub_one_eq_mod a 10
  have hlt : lo % 1024 < 2 ^ 10 := Nat.mod_lt _ (by decide)
  rw [hand, hand, ← Nat.shiftLeft_add_eq_or_of_lt hlt, Nat.shiftLeft_eq]
  omega

theorem parseJsonUnicode_iff (s rest written : Bytes) :
    parseJsonUnicode s = some (written, rest) ↔
      ∃ t c k, s = t ++ rest ∧ UnicodeEscape t c k ∧ written = String.utf8EncodeChar c := by
  constructor
  · intro h
    unfold parseJsonUnicode at h
    split at h
    · cases h
    · next code s₁ hread =>
      obtain ⟨t, rfl, ht⟩ := (parseJsonHex4_iff _ _ _).mp hread
      split at h
      · cases h
      · next hlow =>
        split at h
        · next hhigh =>
          split at h
          · next s₂ =>
            split at h
            · cases h
            · next next s₃ hread' =>
              obtain ⟨l, rfl, hl⟩ := (parseJsonHex4_iff _ _ _).mp hread'
              split at h
              · cases h
              · next hnext =>
                have hnext' : 0xdc00 ≤ next ∧ next ≤ 0xdfff := by omega
                rw [surrogates_eq hhigh hnext'] at h
                have hvalid : Nat.isValidChar
                    (0x10000 + (code - 0xd800) * 0x400 + (next - 0xdc00)) := by
                  unfold Nat.isValidChar
                  omega
                obtain ⟨c, hc⟩ := exists_char _ hvalid
                rw [← hc, utf8_eq] at h
                cases h
                exact ⟨t ++ BACKSLASH :: 117 :: l, c, 9, by simp,
                  .surrogates ht hl hhigh hnext' hc, rfl⟩
          · cases h
        · next hhigh =>
          have hlt := ht.lt
          have hvalid : Nat.isValidChar code := by
            unfold Nat.isValidChar
            omega
          obtain ⟨c, rfl⟩ := exists_char code hvalid
          rw [utf8_eq] at h
          cases h
          exact ⟨t, c, 4, rfl, .single ht, rfl⟩
  · rintro ⟨t, c, k, rfl, hescape, rfl⟩
    have hvalid := char_valid c
    unfold Nat.isValidChar at hvalid
    cases hescape with
    | single hex =>
      have hread := (parseJsonHex4_iff (t ++ rest) rest _).mpr ⟨t, rfl, hex⟩
      have hlow : ¬(0xdc00 ≤ c.toNat ∧ c.toNat ≤ 0xdfff) := by omega
      have hhigh : ¬(0xd800 ≤ c.toNat ∧ c.toNat ≤ 0xdbff) := by omega
      simp only [parseJsonUnicode, hread, hlow, hhigh, ↓reduceIte, utf8_eq]
    | @surrogates h l hi lo _ hhi hlo high low hc =>
      have hread := (parseJsonHex4_iff (h ++ BACKSLASH :: 117 :: l ++ rest)
        (BACKSLASH :: 117 :: (l ++ rest)) hi).mpr ⟨h, by simp, hhi⟩
      have hread' := (parseJsonHex4_iff (l ++ rest) rest _).mpr ⟨l, rfl, hlo⟩
      have hlow : ¬(0xdc00 ≤ hi ∧ hi ≤ 0xdfff) := by omega
      have hnext : ¬(lo < 0xdc00 ∨ 0xdfff < lo) := by omega
      simp only [parseJsonUnicode, hread, hlow, high, and_self, ↓reduceIte, hread', hnext,
        surrogates_eq high low, ← hc, utf8_eq]

theorem stringLengthFrom_quote (len : ℕ) (s : Bytes) :
    stringLengthFrom len (QUOTE :: s) = .ok len := by
  cases s <;> simp [stringLengthFrom]

theorem stringLengthFrom_plain {c : UInt8} (len : ℕ) (s : Bytes) (hq : c ≠ QUOTE)
    (hb : c ≠ BACKSLASH) : stringLengthFrom len (c :: s) =
      if c < 0x20 then .error .bad
      else if len = intMax then .error .undefined
      else stringLengthFrom (len + 1) s := by
  cases s <;> simp [stringLengthFrom, hq, hb]

theorem stringLengthFrom_escape (len : ℕ) (e : UInt8) (s : Bytes) :
    stringLengthFrom len (BACKSLASH :: e :: s) =
      if len = intMax then .error .undefined else stringLengthFrom (len + 1) s := by
  have hq : ¬BACKSLASH = QUOTE := by decide
  simp [stringLengthFrom, hq]

def Passes (t : Bytes) (k : ℕ) : Prop :=
  ∀ len s, len ≤ intMax → stringLengthFrom len (t ++ s) =
    if len + k ≤ intMax then stringLengthFrom (len + k) s else .error .undefined

theorem Passes.append {t t' : Bytes} {k k' : ℕ} (h : Passes t k) (h' : Passes t' k') :
    Passes (t ++ t') (k + k') := by
  intro len s hlen
  rw [append_assoc, h _ _ hlen]
  by_cases hk : len + k ≤ intMax
  · rw [if_pos hk, h' _ _ hk, Nat.add_assoc]
  · rw [if_neg hk, if_neg (by omega)]

theorem Passes.nil : Passes [] 0 := by
  intro len s hlen
  rw [nil_append, Nat.add_zero, if_pos hlen]

theorem Passes.plain {c : UInt8} (hc : 0x20 ≤ c) (hq : c ≠ QUOTE) (hb : c ≠ BACKSLASH) :
    Passes [c] 1 := by
  intro len s hlen
  have hc' : ¬c < 0x20 := UInt8.not_lt.mpr hc
  rw [singleton_append, stringLengthFrom_plain len s hq hb, if_neg hc']
  by_cases hmax : len = intMax
  · rw [if_pos hmax, if_neg (by omega)]
  · rw [if_neg hmax, if_pos (by omega)]

theorem Passes.escape (e : UInt8) : Passes [BACKSLASH, e] 1 := by
  intro len s hlen
  have happend : [BACKSLASH, e] ++ s = BACKSLASH :: e :: s := rfl
  rw [happend, stringLengthFrom_escape]
  by_cases hmax : len = intMax
  · rw [if_pos hmax, if_neg (by omega)]
  · rw [if_neg hmax, if_pos (by omega)]

theorem hex_plain (c : UInt8) : digitVal c < 16 → 0x20 ≤ c ∧ c ≠ QUOTE ∧ c ≠ BACKSLASH := by
  revert c
  exact forall_byte (by decide +kernel)

theorem Passes.hex (h : Bytes) (hh : ∀ c ∈ h, digitVal c < 16) : Passes h h.length := by
  induction h with
  | nil => exact .nil
  | cons c h ih =>
    obtain ⟨hc, hq, hb⟩ := hex_plain c (hh c (by simp))
    have happend := (Passes.plain hc hq hb).append (ih fun e he => hh e (by simp [he]))
    rw [length_cons, Nat.add_comm]
    exact happend

theorem UnicodeEscape.passes {h : Bytes} {c : Char} {k : ℕ} (hex : UnicodeEscape h c k) :
    Passes (BACKSLASH :: 117 :: h) (1 + k) := by
  cases hex with
  | single hex =>
    have hpass := (Passes.escape 117).append (Passes.hex h hex.digits)
    rw [hex.length] at hpass
    exact hpass
  | surrogates hhi hlo _ _ _ =>
    have hpass := (Passes.escape 117).append ((Passes.hex _ hhi.digits).append
      ((Passes.escape 117).append (Passes.hex _ hlo.digits)))
    rw [hhi.length, hlo.length] at hpass
    exact hpass

theorem Characters.passes {t u : Bytes} {n : ℕ} (h : Characters (0x20 ≤ ·) t u n) : Passes t n := by
  induction h with
  | nil => exact .nil
  | plain hc hq hb _ ih => exact (Passes.plain hc hq hb).append ih
  | escape _ _ ih => exact (Passes.escape _).append ih
  | unicode hex _ ih => exact hex.passes.append ih

theorem Characters.strict {t u : Bytes} {n : ℕ} (h : Characters (fun _ => True) t u n)
    (len m : ℕ) (rest : Bytes) (hlen : len ≤ intMax)
    (hscan : stringLengthFrom len (t ++ QUOTE :: rest) = .ok m) :
    Characters (0x20 ≤ ·) t u n ∧ len + n ≤ intMax := by
  have key : ∀ {a b : Bytes} {k : ℕ} {len : ℕ}, Passes a k → len ≤ intMax →
      stringLengthFrom len (a ++ b ++ QUOTE :: rest) = .ok m →
      len + k ≤ intMax ∧ stringLengthFrom (len + k) (b ++ QUOTE :: rest) = .ok m := by
    intro a b k len ha hlen hs
    rw [append_assoc, ha _ _ hlen] at hs
    split at hs
    · next hk => exact ⟨hk, hs⟩
    · cases hs
  induction h generalizing len with
  | nil => exact ⟨.nil, hlen⟩
  | @plain c t u n _ hq hb _ ih =>
    by_cases hc : c < 0x20
    · rw [cons_append, stringLengthFrom_plain _ _ hq hb, if_pos hc] at hscan
      cases hscan
    · have hc' : 0x20 ≤ c := UInt8.not_lt.mp hc
      obtain ⟨hk, hs⟩ := key (Passes.plain hc' hq hb) hlen hscan
      obtain ⟨ht, hn⟩ := ih _ hk hs
      exact ⟨.plain hc' hq hb ht, by omega⟩
  | @escape e byte t u n he _ ih =>
    obtain ⟨hk, hs⟩ := key (Passes.escape e) hlen hscan
    obtain ⟨ht, hn⟩ := ih _ hk hs
    exact ⟨.escape he ht, by omega⟩
  | @unicode h t u k n c hex _ ih =>
    obtain ⟨hk, hs⟩ := key hex.passes hlen hscan
    obtain ⟨ht, hn⟩ := ih _ hk hs
    exact ⟨.unicode hex ht, by omega⟩

theorem lookup_escapes (e byte : UInt8) :
    escapes.lookup e = some byte ↔ (e, byte) ∈ standardEscapes := by
  constructor
  · intro h
    obtain ⟨l₁, l₂, hl, -⟩ := lookup_eq_some_iff.mp h
    have hmem : (e, byte) ∈ escapes := by
      rw [hl]
      simp
    exact hmem
  · intro h
    have hall : standardEscapes.all (fun p => escapes.lookup p.1 == some p.2) = true := by decide
    exact eq_of_beq (all_eq_true.mp hall _ h)

theorem parseStringFrom_sound (fuel : ℕ) : ∀ (str s rest out : Bytes),
    parseStringFrom fuel str s = (.ok rest, out) →
    ∃ t u n, s = t ++ QUOTE :: rest ∧ Characters (fun _ => True) t u n ∧ out = str ++ u := by
  induction fuel with
  | zero =>
    intro str s rest out h
    cases h
  | succ fuel ih =>
    intro str s rest out h
    cases s with
    | nil => cases h
    | cons c s =>
      rw [parseStringFrom.eq_def] at h
      simp only at h
      split at h
      · next hq =>
        cases h
        exact ⟨[], [], 0, by rw [hq]; rfl, .nil, by simp⟩
      · next hq =>
        split at h
        · next hb =>
          split at h
          · cases h
          · next e s =>
            split at h
            · next byte hbyte =>
              obtain ⟨t, u, n, rfl, ht, rfl⟩ := ih _ _ _ _ h
              refine ⟨BACKSLASH :: e :: t, byte :: u, 1 + n, by rw [hb]; rfl, ?_, by simp⟩
              exact .escape ((lookup_escapes e byte).mp hbyte) ht
            · split at h
              · next he =>
                split at h
                · next written s' hunicode =>
                  obtain ⟨t, u, n, rfl, ht, rfl⟩ := ih _ _ _ _ h
                  obtain ⟨hex, c, k, rfl, hescape, rfl⟩ := (parseJsonUnicode_iff _ _ _).mp hunicode
                  exact ⟨_, _, _, by simp [hb, he], .unicode hescape ht, by simp⟩
                · cases h
              · cases h
        · next hb =>
          obtain ⟨t, u, n, rfl, ht, rfl⟩ := ih _ _ _ _ h
          exact ⟨c :: t, c :: u, 1 + n, rfl, .plain trivial hq hb ht, by simp⟩

theorem parseStringFrom_complete {plain : UInt8 → Prop} {t u : Bytes} {n : ℕ}
    (h : Characters plain t u n) (rest : Bytes) : ∀ fuel str, t.length < fuel →
      parseStringFrom fuel str (t ++ QUOTE :: rest) = (.ok rest, str ++ u) := by
  induction h with
  | nil =>
    intro fuel str hfuel
    obtain _ | fuel := fuel
    · cases hfuel
    simp [parseStringFrom]
  | @plain c t u n _ hq hb _ ih =>
    intro fuel str hfuel
    obtain _ | fuel := fuel
    · cases hfuel
    have htail := ih fuel (str ++ [c]) (by simpa using hfuel)
    simp only [cons_append, parseStringFrom, hq, hb, ↓reduceIte, htail]
    simp
  | @escape e byte t u n he _ ih =>
    intro fuel str hfuel
    obtain _ | fuel := fuel
    · cases hfuel
    have htail := ih fuel (str ++ [byte]) (by
      simp only [length_cons] at hfuel
      omega)
    have hbyte := (lookup_escapes e byte).mpr he
    have hq : ¬BACKSLASH = QUOTE := by decide
    simp only [cons_append, parseStringFrom, hq, ↓reduceIte, hbyte, htail]
    simp
  | @unicode h t u k n c hex _ ih =>
    intro fuel str hfuel
    obtain _ | fuel := fuel
    · cases hfuel
    have htail := ih fuel (str ++ String.utf8EncodeChar c) (by
      simp only [length_cons, length_append] at hfuel
      omega)
    have hread := (parseJsonUnicode_iff (h ++ (t ++ QUOTE :: rest)) (t ++ QUOTE :: rest) _).mpr
      ⟨h, c, k, rfl, hex, rfl⟩
    have hq : ¬BACKSLASH = QUOTE := by decide
    have hlookup : escapes.lookup 117 = none := by decide
    simp only [cons_append, append_assoc, parseStringFrom, hq, ↓reduceIte, hlookup,
      hread, htail]

theorem Characters.jsonStringLength {t u : Bytes} {n : ℕ} (h : Characters (0x20 ≤ ·) t u n)
    (rest : Bytes) : jsonStringLength (t ++ QUOTE :: rest) =
      if n ≤ intMax then .ok n else .error .undefined := by
  rw [Json.jsonStringLength, h.passes _ _ (Nat.zero_le _), Nat.zero_add, stringLengthFrom_quote]

theorem readString_recognizes {extra : ℕ} {fits : ℕ → Prop} {up : JsonError → Prop}
    (hfits : ∀ n, n + extra ≤ intMax → fits n)
    (hup : ∀ n, fits n → n + extra ≤ intMax ∨ up .undefined) :
    Recognizes (readString extra) (StringTail fits) (fun _ => True) up where
  sound := by
    intro s rest buffer h
    unfold readString at h
    split at h
    · cases h
    next m hscan =>
    split_ifs at h with hroom
    split at h
    · next s' str hparse =>
      cases h
      obtain ⟨t, u, n, rfl, ht, hu⟩ := parseStringFrom_sound _ _ _ _ _ hparse
      obtain ⟨hstrict, hn⟩ := ht.strict 0 m rest (Nat.zero_le _) hscan
      rw [hstrict.jsonStringLength, if_pos (by omega)] at hscan
      cases hscan
      rw [nil_append] at hu
      refine ⟨t ++ [QUOTE], by simp, t, m, rfl, ?_, hfits m (by omega)⟩
      rw [hu]
      exact hstrict
    · cases h
  complete := by
    rintro _ rest buffer ⟨t, n, rfl, ht, hn⟩ -
    have hparse : parseJsonString (t ++ QUOTE :: rest) = (.ok rest, buffer) := by
      refine parseStringFrom_complete ht rest _ [] ?_
      rw [length_append]
      omega
    rw [append_assoc, singleton_append, readString, ht.jsonStringLength]
    by_cases hroom : n + extra ≤ intMax
    · rw [if_pos (by omega)]
      refine .inl ?_
      simp only [Nat.not_lt.mpr hroom, if_false, hparse]
    · refine .inr ⟨.undefined, (hup n hn).resolve_left hroom, ?_⟩
      split_ifs
      · exact if_pos (Nat.not_le.mp hroom)
      · rfl

end MyWorkflow.Json
