import MyWorkflow.JsonStrings

set_option autoImplicit false

/-!
# The room for a JSON string

The decoder once more, on a memory that ends: a read outside it gives no result.
-/
namespace MyWorkflow.Json
open List CString

def behindQuote : Bytes → Bytes
  | [] => []
  | c :: cursor =>
    if c = QUOTE then cursor
    else if c = BACKSLASH then
      match cursor with
      | [] => []
      | _ :: cursor => behindQuote cursor
    else behindQuote cursor

def hex4In : ℕ → ℕ → Bytes → Option (Option (ℕ × Bytes))
  | 0, code, cursor => some (some (code, cursor))
  | _ + 1, _, [] => none
  | i + 1, code, c :: cursor =>
    match hexVal c with
    | some hex => hex4In i ((code <<< 4) + hex) cursor
    | none => some none

def surrogatePair (code next : ℕ) : ℕ :=
  (((code &&& 0x3ff) <<< 10) ||| (next &&& 0x3ff)) + 0x10000

def lowIn (code : ℕ) : Bytes → Option (Option (Bytes × Bytes))
  | [] => none
  | c :: cursor =>
    if c ≠ BACKSLASH then some none
    else
      match cursor with
      | [] => none
      | u :: cursor =>
        if u ≠ 117 then some none
        else
          (hex4In 4 0 cursor).map fun read =>
            match read with
            | none => none
            | some (next, cursor) =>
              if next < 0xdc00 ∨ 0xdfff < next then none
              else some (utf8 (surrogatePair code next), cursor)

def parseUnicodeIn (cursor : Bytes) : Option (Option (Bytes × Bytes)) :=
  (hex4In 4 0 cursor).bind fun read =>
    match read with
    | none => some none
    | some (code, cursor) =>
      if 0xdc00 ≤ code ∧ code ≤ 0xdfff then some none
      else if 0xd800 ≤ code ∧ code ≤ 0xdbff then lowIn code cursor
      else some (some (utf8 code, cursor))

def parseStringIn : ℕ → Bytes → Bytes → Option (Except JsonError Bytes × Bytes)
  | 0, str, _ => some (.error .bad, str)
  | _ + 1, _, [] => none
  | fuel + 1, str, c :: cursor =>
    if c = QUOTE then some (.ok cursor, str)
    else if c = BACKSLASH then
      match cursor with
      | [] => none
      | e :: cursor =>
        match escapes.lookup e with
        | some byte => parseStringIn fuel (str ++ [byte]) cursor
        | none =>
          if e = 117 then
            (parseUnicodeIn cursor).bind fun read =>
              match read with
              | some (written, cursor) => parseStringIn fuel (str ++ written) cursor
              | none => some (.error .bad, str)
          else some (.error .bad, str)
    else parseStringIn fuel (str ++ [c]) cursor

def stores : Except JsonError Bytes × Bytes → ℕ
  | (.ok _, str) => str.length + 1
  | (.error _, str) => str.length

theorem hex4From_of_in (i : ℕ) : ∀ (code : ℕ) (s : Bytes) (r : Option (ℕ × Bytes)),
    hex4In i code s = some r → hex4From i code s = r := by
  induction i with
  | zero =>
    intro code s r h
    cases h
    rfl
  | succ i ih =>
    intro code s r h
    cases s with
    | nil => cases h
    | cons c s =>
      rw [hex4In] at h
      rw [hex4From]
      cases hc : hexVal c with
      | none =>
        rw [hc] at h
        cases h
        rfl
      | some hex =>
        rw [hc] at h
        exact ih _ _ _ h

theorem parseJsonUnicode_of_in {s : Bytes} {r : Option (Bytes × Bytes)}
    (h : parseUnicodeIn s = some r) : parseJsonUnicode s = r := by
  obtain ⟨read, hread, h⟩ := Option.bind_eq_some_iff.mp h
  rw [parseJsonUnicode, parseJsonHex4, hex4From_of_in _ _ _ _ hread]
  cases read with
  | none =>
    cases h
    rfl
  | some p =>
    obtain ⟨code, cursor⟩ := p
    dsimp only at h ⊢
    split_ifs at h ⊢ with hlow hhigh
    · cases h
      rfl
    · cases cursor with
      | nil => cases h
      | cons c cursor =>
        rw [lowIn.eq_def] at h
        dsimp only at h
        by_cases hc : c = BACKSLASH
        · subst hc
          cases cursor with
          | nil => cases h
          | cons u cursor =>
            by_cases hu : u = 117
            · subst hu
              obtain ⟨read, hread, rfl⟩ := Option.map_eq_some_iff.mp h
              simp only [parseJsonHex4, hex4From_of_in _ _ _ _ hread]
              cases read <;> rfl
            · simp only [ne_eq, not_true_eq_false, ↓reduceIte, hu, not_false_eq_true] at h
              cases h
              split
              · next heq => exact absurd (List.cons.inj (List.cons.inj heq).2).1 hu
              · rfl
        · rw [if_pos hc] at h
          cases h
          split
          · next heq => exact absurd (List.cons.inj heq).1 hc
          · rfl
    · cases h
      rfl

theorem parseStringFrom_of_in (fuel : ℕ) :
    ∀ (str s : Bytes) (r : Except JsonError Bytes × Bytes),
      parseStringIn fuel str s = some r → parseStringFrom fuel str s = r := by
  induction fuel with
  | zero =>
    intro str s r h
    cases h
    rfl
  | succ fuel ih =>
    intro str s r h
    cases s with
    | nil => cases h
    | cons c s =>
      rw [parseStringIn.eq_def] at h
      rw [parseStringFrom.eq_def]
      dsimp only at h ⊢
      split_ifs at h ⊢ with hq hb
      · cases h
        rfl
      · cases s with
        | nil => cases h
        | cons e s =>
          dsimp only at h ⊢
          cases hlookup : escapes.lookup e with
          | some byte =>
            rw [hlookup] at h
            exact ih _ _ _ h
          | none =>
            rw [hlookup] at h
            dsimp only at h ⊢
            split_ifs at h ⊢ with hu
            · obtain ⟨read, hread, h⟩ := Option.bind_eq_some_iff.mp h
              rw [parseJsonUnicode_of_in hread]
              cases read with
              | none =>
                cases h
                rfl
              | some p => exact ih _ _ _ h
            · cases h
              rfl
      · exact ih _ _ _ h

/-- The loop of `__json_string_length` runs through the text in `n` turns. -/
inductive Scanned : Bytes → ℕ → Prop
  | nil : Scanned [] 0
  | plain {c : UInt8} {t : Bytes} {n : ℕ} : c ≠ QUOTE → c ≠ BACKSLASH → Scanned t n →
      Scanned (c :: t) (n + 1)
  | escape {e : UInt8} {t : Bytes} {n : ℕ} : Scanned t n → Scanned (BACKSLASH :: e :: t) (n + 1)

theorem behindQuote_quote (s : Bytes) : behindQuote (QUOTE :: s) = s := by
  cases s <;> simp [behindQuote]

theorem behindQuote_plain {c : UInt8} {s : Bytes} (hq : c ≠ QUOTE) (hb : c ≠ BACKSLASH) :
    behindQuote (c :: s) = behindQuote s := by
  cases s <;> simp [behindQuote, hq, hb]

theorem stringLengthFrom_scanned (k : ℕ) : ∀ (len : ℕ) (s : Bytes) (m : ℕ), s.length ≤ k →
    stringLengthFrom len s = .ok m →
      ∃ t n, s = t ++ QUOTE :: behindQuote s ∧ Scanned t n ∧ m = len + n := by
  induction k with
  | zero =>
    intro len s m hk h
    rw [length_eq_zero_iff.mp (Nat.le_zero.mp hk)] at h
    cases h
  | succ k ih =>
    intro len s m hk h
    cases s with
    | nil => cases h
    | cons c s =>
      rw [length_cons] at hk
      by_cases hq : c = QUOTE
      · rw [hq, stringLengthFrom_quote] at h
        cases h
        exact ⟨[], 0, by rw [hq, behindQuote_quote, nil_append], .nil, rfl⟩
      by_cases hb : c = BACKSLASH
      · subst hb
        cases s with
        | nil => cases h
        | cons e s =>
          rw [length_cons] at hk
          rw [stringLengthFrom_escape] at h
          split_ifs at h
          obtain ⟨t, n, hs, ht, rfl⟩ := ih _ _ _ (by omega) h
          exact ⟨BACKSLASH :: e :: t, n + 1, by simpa [behindQuote, hq] using hs, .escape ht,
            by omega⟩
      · rw [stringLengthFrom_plain _ _ hq hb] at h
        split_ifs at h
        obtain ⟨t, n, hs, ht, rfl⟩ := ih _ _ _ (by omega) h
        exact ⟨c :: t, n + 1, by rw [behindQuote_plain hq hb, cons_append, ← hs], .plain hq hb ht,
          by omega⟩

theorem hex4In_scanned (i : ℕ) : ∀ {t : Bytes} {n : ℕ} (code : ℕ), Scanned t n →
    (∀ memory, hex4In i code (t ++ QUOTE :: memory) = some none) ∨
    ∃ code' t' n', n' + i = n ∧ t'.length ≤ t.length ∧ Scanned t' n' ∧
      ∀ memory, hex4In i code (t ++ QUOTE :: memory) =
        some (some (code', t' ++ QUOTE :: memory)) := by
  induction i with
  | zero =>
    intro t n code h
    exact .inr ⟨code, t, n, rfl, le_refl _, h, fun _ => rfl⟩
  | succ i ih =>
    intro t n code h
    cases h with
    | nil | escape => exact .inl fun _ => rfl
    | @plain c t n hq hb ht =>
      simp only [cons_append, hex4In]
      cases hexVal c with
      | none => exact .inl fun _ => rfl
      | some hex =>
        obtain hbad | ⟨code', t', n', hn, hlen, ht', hread⟩ := ih ((code <<< 4) + hex) ht
        · exact .inl hbad
        · exact .inr ⟨code', t', n', by omega, hlen.trans (Nat.le_succ _), ht', hread⟩

theorem utf8_length_le (code : ℕ) : (utf8 code).length ≤ 4 := by
  unfold utf8
  split_ifs <;> simp

/-- A failed escape, or one whose bytes have room among the characters that it takes. -/
def UnicodeFits (read : Bytes → Option (Option (Bytes × Bytes))) (t : Bytes) (n : ℕ) : Prop :=
  (∀ memory, read (t ++ QUOTE :: memory) = some none) ∨
  ∃ written t' n', written.length + n' ≤ n ∧ t'.length ≤ t.length ∧ Scanned t' n' ∧
    ∀ memory, read (t ++ QUOTE :: memory) = some (some (written, t' ++ QUOTE :: memory))

theorem lowIn_scanned {t : Bytes} {n : ℕ} (code : ℕ) (h : Scanned t n) :
    UnicodeFits (lowIn code) t n := by
  cases h with
  | nil => exact .inl fun _ => rfl
  | plain hq hb ht => exact .inl fun _ => if_pos hb
  | @escape e t n ht =>
    by_cases he : e = 117
    · subst he
      obtain hbad | ⟨next, t', n', hn, hlen, ht', hread⟩ := hex4In_scanned 4 0 ht
      · exact .inl fun memory => by simp [lowIn, hbad]
      · by_cases hnext : next < 0xdc00 ∨ 0xdfff < next
        · exact .inl fun memory => by simp [lowIn, hread, hnext]
        · have hwritten := utf8_length_le (surrogatePair code next)
          refine .inr ⟨utf8 (surrogatePair code next), t', n', by omega, ?_, ht', fun memory => by
            simp [lowIn, hread, hnext]⟩
          simp only [length_cons]
          omega
    · exact .inl fun memory => by simp [lowIn, he]

theorem parseUnicodeIn_scanned {t : Bytes} {n : ℕ} (h : Scanned t n) :
    UnicodeFits parseUnicodeIn t n := by
  obtain hbad | ⟨code, t', n', hn, hlen, ht', hread⟩ := hex4In_scanned 4 0 h
  · exact .inl fun memory => by simp [parseUnicodeIn, hbad]
  unfold UnicodeFits
  simp only [parseUnicodeIn, hread, Option.bind_some]
  split_ifs with hlow hhigh
  · exact .inl fun _ => rfl
  · obtain hbad | ⟨written, t'', n'', hroom, hlen', ht'', hread'⟩ := lowIn_scanned code ht'
    · exact .inl hbad
    · exact .inr ⟨written, t'', n'', by omega, hlen'.trans hlen, ht'', hread'⟩
  · have hwritten := utf8_length_le code
    exact .inr ⟨_, t', n', by omega, hlen, ht', fun _ => rfl⟩

def outcome (accepted : Bool) (memory : Bytes) : Except JsonError Bytes :=
  if accepted then .ok memory else .error .bad

theorem parseStringIn_scanned (fuel : ℕ) : ∀ (str : Bytes) {t : Bytes} {n : ℕ}, Scanned t n →
    t.length < fuel → ∃ accepted written, written.length ≤ n ∧
      ∀ memory, parseStringIn fuel str (t ++ QUOTE :: memory) =
        some (outcome accepted memory, str ++ written) := by
  have hback : ¬BACKSLASH = QUOTE := by decide
  induction fuel with
  | zero =>
    intro str t n _ hfuel
    cases hfuel
  | succ fuel ih =>
    intro str t n h hfuel
    cases h with
    | nil => exact ⟨true, [], le_refl _, fun memory => by simp [parseStringIn, outcome]⟩
    | @plain c t n hq hb ht =>
      obtain ⟨accepted, written, hlen, hrun⟩ := ih (str ++ [c]) ht (by simpa using hfuel)
      refine ⟨accepted, c :: written, by simpa using hlen, fun memory => ?_⟩
      simp [parseStringIn, hq, hb, hrun]
    | @escape e t n ht =>
      simp only [length_cons] at hfuel
      cases hlookup : escapes.lookup e with
      | some byte =>
        obtain ⟨accepted, written, hlen, hrun⟩ := ih (str ++ [byte]) ht (by omega)
        refine ⟨accepted, byte :: written, by simpa using hlen, fun memory => ?_⟩
        simp [parseStringIn, hback, hlookup, hrun]
      | none =>
        by_cases he : e = 117
        · subst he
          obtain hbad | ⟨bytes, t', n', hroom, hlen', ht', hread⟩ := parseUnicodeIn_scanned ht
          · refine ⟨false, [], Nat.zero_le _, fun memory => ?_⟩
            simp [parseStringIn, hback, hlookup, hbad, outcome]
          · obtain ⟨accepted, written, hlen, hrun⟩ := ih (str ++ bytes) ht' (by omega)
            refine ⟨accepted, bytes ++ written, by simp only [length_append]; omega,
              fun memory => ?_⟩
            simp [parseStringIn, hback, hlookup, hread, hrun]
        · refine ⟨false, [], Nat.zero_le _, fun memory => ?_⟩
          simp [parseStringIn, hback, hlookup, he, outcome]

theorem parseJsonString_scanned {s : Bytes} {n : ℕ} (h : jsonStringLength s = .ok n) :
    ∃ t accepted written, s = t ++ QUOTE :: behindQuote s ∧
      parseJsonString s = (outcome accepted (behindQuote s), written) ∧ written.length ≤ n ∧
      ∀ memory, parseStringIn (s.length + 1) [] (t ++ QUOTE :: memory) =
        some (outcome accepted memory, written) := by
  obtain ⟨t, k, hs, ht, rfl⟩ := stringLengthFrom_scanned _ 0 s n le_rfl h
  have hfuel : t.length < s.length + 1 := by
    have hlength := congrArg List.length hs
    simp only [length_append, length_cons] at hlength
    omega
  obtain ⟨accepted, written, hlen, hrun⟩ := parseStringIn_scanned _ [] ht hfuel
  refine ⟨t, accepted, written, hs, ?_, by omega, hrun⟩
  refine parseStringFrom_of_in _ _ _ _ ?_
  have hall := hrun (behindQuote s)
  rwa [← hs] at hall

/-- The decoder stays in the room of the length scan and reads nothing behind the quote at which it
    stopped. -/
theorem length_scan_bounds_decoder (s : Bytes) (n : ℕ) (h : jsonStringLength s = .ok n) :
    ∃ t accepted written, s = t ++ QUOTE :: behindQuote s ∧
      parseJsonString s = (outcome accepted (behindQuote s), written) ∧
      stores (parseJsonString s) ≤ n + 1 ∧
      ∀ memory, parseStringIn (s.length + 1) [] (t ++ QUOTE :: memory) =
        some (outcome accepted memory, written) := by
  obtain ⟨t, accepted, written, hs, hparse, hlen, hrun⟩ := parseJsonString_scanned h
  refine ⟨t, accepted, written, hs, hparse, ?_, hrun⟩
  rw [hparse]
  cases accepted <;> simp only [outcome, stores] <;> simp <;> omega

/-- The bytes of `\u0041"x`. -/
theorem length_scan_bounds_unicode :
    jsonStringLength [92, 117, 48, 48, 52, 49, 34, 120] = .ok 5 ∧
      stores (parseJsonString [92, 117, 48, 48, 52, 49, 34, 120]) ≤ 6 := by
  have hscan : jsonStringLength [92, 117, 48, 48, 52, 49, 34, 120] = .ok 5 := rfl
  obtain ⟨_, _, _, -, -, hstores, -⟩ := length_scan_bounds_decoder _ _ hscan
  exact ⟨hscan, hstores⟩

end MyWorkflow.Json
