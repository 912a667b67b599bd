import MyWorkflow.JsonBounds
import MyWorkflow.JsonNumbers

set_option autoImplicit false

namespace MyWorkflow.Json
open List CString Recognizer

/-- Which lengths `fits` lets pass: those of an `int`, and others only if the parser may overflow. -/
structure Limits (fits : Length → ℕ → Prop) (up : JsonError → Prop) : Prop where
  within : ∀ k n, InInt k n → fits k n
  beyond : ∀ k n, fits k n → InInt k n ∨ up .undefined

theorem inInt_limits : Limits InInt (fun _ => False) := ⟨fun _ _ h => h, fun _ _ h => .inl h⟩

theorem unlimited_limits : Limits Unlimited (· = .undefined) :=
  ⟨fun _ _ _ => trivial, fun _ _ _ => .inr rfl⟩

theorem inInt_string (n : ℕ) : InInt .string n ↔ n + 1 ≤ intMax := by
  have hmax : intMax = 2 ^ 31 - 1 := rfl
  rw [InInt, Length.max]
  omega

section Recognized

variable {fits : Length → ℕ → Prop} {up : JsonError → Prop} (lim : Limits fits up)

include lim

theorem Limits.string : Recognizes (readString 1) (StringTail (fits .string)) (fun _ => True) up :=
  readString_recognizes (fun n h => lim.within _ n ((inInt_string n).mpr h))
    fun n h => (lim.beyond _ n h).imp_left (inInt_string n).mp

theorem Limits.name : Recognizes (readString 0) (StringTail (fits .name)) (fun _ => True) up :=
  readString_recognizes (fun n h => lim.within .name n h) (lim.beyond .name)

end Recognized

theorem NumberText.head {t : Bytes} {n : JsonNumber} (h : NumberText t n) :
    ∃ c t', t = c :: t' ∧ (c = 45 ∨ isdigit c = true) := by
  obtain ⟨y, z, rfl, ⟨sign, digits, hint, hsign, ⟨hne, hdigits⟩, -⟩, -⟩ := h
  rw [hint]
  obtain rfl | rfl := hsign
  · obtain ⟨d, t, rfl⟩ := exists_cons_of_ne_nil hne
    exact ⟨d, _, rfl, .inr (hdigits d (by simp))⟩
  · exact ⟨45, _, rfl, .inl rfl⟩

theorem word_sound {s : Bytes} {k : ℕ} {word : Bytes} (h : s.take k = word) :
    s = word ++ s.drop k := by
  rw [← h, take_append_drop]

theorem parseJsonScalar_recognizes {fits : Length → ℕ → Prop} {up : JsonError → Prop}
    (lim : Limits fits up) : Recognizes parseJsonScalar (Scalar fits) NumberStop up where
  sound := by
    intro s rest v h
    cases s with
    | nil => cases h
    | cons c s =>
      rw [parseJsonScalar] at h
      split at h
      · next hq =>
        split at h
        · next str rest' hread =>
          cases h
          obtain ⟨t, rfl, ht⟩ := lim.string.sound hread
          exact ⟨QUOTE :: t, by rw [hq]; rfl, .string ht⟩
        · cases h
      split at h
      · split at h
        · next num rest' hread =>
          cases h
          obtain ⟨t, ht, hnum⟩ := (parseJsonNumber_recognizes up).sound hread
          exact ⟨t, ht, .number hnum⟩
        · cases h
      split at h
      · split at h
        · next hword =>
          cases h
          exact ⟨_, word_sound hword, .true⟩
        · cases h
      split at h
      · split at h
        · next hword =>
          cases h
          exact ⟨_, word_sound hword, .false⟩
        · cases h
      split at h
      · split at h
        · next hword =>
          cases h
          exact ⟨_, word_sound hword, .null⟩
        · cases h
      · cases h
  complete := by
    intro t rest v h hrest
    cases h with
    | @string t buffer h =>
      rw [cons_append, parseJsonScalar, if_pos rfl]
      obtain hread | ⟨e, he, hread⟩ := lim.string.complete h (r := rest) trivial
      · rw [hread]
        exact .inl rfl
      · rw [hread]
        exact .inr ⟨e, he, rfl⟩
    | @number t n h =>
      have hread := (parseJsonNumber_recognizes up).complete h hrest
      obtain ⟨c, t, rfl, hc⟩ := h.head
      have hq : c ≠ QUOTE := by
        rintro rfl
        revert hc
        decide
      have hcond : (decide (c = 45) || isdigit c) = true := by simpa using hc
      rw [cons_append] at hread ⊢
      rw [parseJsonScalar, if_neg hq, if_pos hcond]
      obtain hread | ⟨e, he, hread⟩ := hread
      · rw [hread]
        exact .inl rfl
      · rw [hread]
        exact .inr ⟨e, he, rfl⟩
    | true =>
      have hword : bytes "true" = [116, 114, 117, 101] := by decide
      have hq : ¬(116 : UInt8) = QUOTE := by decide
      exact .inl (by simp [parseJsonScalar, hword, hq, isdigit])
    | false =>
      have hword : bytes "false" = [102, 97, 108, 115, 101] := by decide
      have hq : ¬(102 : UInt8) = QUOTE := by decide
      exact .inl (by simp [parseJsonScalar, hword, hq, isdigit])
    | null =>
      have hword : bytes "null" = [110, 117, 108, 108] := by decide
      have hq : ¬(110 : UInt8) = QUOTE := by decide
      exact .inl (by simp [parseJsonScalar, hword, hq, isdigit])

def Begins {α : Type} (R : Bytes → α → Prop) : Prop :=
  ∀ t a, R t a → ∃ c t', t = c :: t' ∧ isspace c = false ∧ c ≠ 93 ∧ c ≠ 125

theorem Begins.skip {α : Type} {R : Bytes → α → Prop} (h : Begins R) {t w : Bytes} {a : α}
    (ht : R t a) (hw : Spaces w) (rest : Bytes) :
    (w ++ (t ++ rest)).dropWhile isspace = t ++ rest := by
  obtain ⟨c, t', rfl, hc, -⟩ := h t a ht
  exact dropWhile_skip hw hc

theorem delimiter_ends (c : UInt8) : isspace c = true ∨ c = COMMA ∨ c = 93 ∨ c = 125 →
    (isdigit c || c == 46 || c == 69 || c == 101) = false := by
  revert c
  exact forall_byte (by decide +kernel)

theorem numberStop_of_delimiter {c : UInt8} (rest : Bytes)
    (h : isspace c = true ∨ c = COMMA ∨ c = 93 ∨ c = 125) : NumberStop (c :: rest) := by
  intro d hd
  cases hd
  exact delimiter_ends c h

section Recognized

variable {fits : Length → ℕ → Prop} {up : JsonError → Prop} (lim : Limits fits up)

include lim

theorem parseJsonMember_recognizes {value : Reader UInt8 JsonError JsonValue}
    {R : Bytes → JsonValue → Prop} (h : Recognizes value R NumberStop up) (hR : Begins R) :
    Recognizes (parseJsonMember value) (Member fits R) NumberStop up where
  sound := by
    rintro s rest ⟨name, v⟩ hs
    unfold parseJsonMember at hs
    split at hs
    · next s =>
      split at hs
      · cases hs
      next name' s₁ hread =>
      obtain ⟨t, rfl, ht⟩ := lim.name.sound hread
      obtain ⟨w, hsplit, -, hw, -⟩ := dropWhile_split isspace s₁
      split at hs
      · next s₂ hcolon =>
        obtain ⟨w', hsplit', -, hw', -⟩ := dropWhile_split isspace s₂
        split at hs
        · cases hs
        · next val s₃ hval =>
          cases hs
          obtain ⟨u, hu, hv⟩ := h.sound hval
          refine ⟨_, ?_, .mk ht hw hw' hv⟩
          rw [hcolon] at hsplit
          rw [hu] at hsplit'
          rw [hsplit, hsplit']
          simp
      · cases hs
    · cases hs
  complete := by
    rintro _ rest _ ht hrest
    cases ht with
    | @mk t name w w' u v hname hw hw' hv =>
      have hcolon : (w ++ COLON :: (w' ++ (u ++ rest))).dropWhile isspace =
          COLON :: (w' ++ (u ++ rest)) := dropWhile_skip hw (by decide)
      simp only [cons_append, append_assoc, parseJsonMember]
      obtain hread | ⟨e, he, hread⟩ :=
        lim.name.complete hname (r := w ++ COLON :: (w' ++ (u ++ rest))) trivial
      · simp only [hread, hcolon, hR.skip hv hw' rest]
        obtain hval | ⟨e, he, hval⟩ := h.complete hv hrest
        · rw [hval]
          exact .inl rfl
        · rw [hval]
          exact .inr ⟨e, he, rfl⟩
      · rw [hread]
        exact .inr ⟨e, he, rfl⟩

theorem parseJsonItems_recognizes {α : Type} {item : Reader UInt8 JsonError α}
    {R : Bytes → α → Prop} {close : UInt8} (h : Recognizes item R NumberStop up) (hR : Begins R)
    (hclose : close = 93 ∨ close = 125) :
    Recognizes (parseJsonItems item close) (Items fits R close) (fun _ => True) up where
  sound := by
    rintro s rest ⟨size, as⟩ hs
    unfold parseJsonItems at hs
    obtain ⟨w, hsplit, -, hw, -⟩ := dropWhile_split isspace s
    simp only at hs
    split at hs
    · next hhead =>
      cases hs
      obtain ⟨u, hu⟩ := List.head?_eq_some_iff.mp hhead
      rw [hu] at hsplit ⊢
      exact ⟨w ++ [close], by rw [hsplit]; simp, .none hw⟩
    · obtain ⟨t, ht, hsep, hsize, hmax⟩ := separated_sound h _ _ _ _ _ _ hs (Nat.zero_le _)
      rw [Nat.zero_add] at hsize
      rw [hsize] at hmax ⊢
      refine ⟨w ++ (t ++ [close]), ?_, .some hw hsep (lim.within .items _ hmax)⟩
      rw [hsplit, ht]
      simp
  complete := by
    rintro _ rest _ ht -
    have hspace : isspace close = false := by
      obtain rfl | rfl := hclose
      · decide
      · decide
    cases ht with
    | @none w hw =>
      have hskip : (w ++ [close] ++ rest).dropWhile isspace = close :: rest := by
        rw [append_assoc]
        exact dropWhile_skip hw hspace
      refine .inl ?_
      simp only [parseJsonItems, hskip, List.head?_cons, ↓reduceIte, tail_cons]
    | @some w t as hw hsep hmax =>
      obtain ⟨u, a, t', htu, hu⟩ := hsep.first
      obtain ⟨c, u', rfl, hc, h93, h125⟩ := hR u a hu
      have hskip : (w ++ (t ++ [close]) ++ rest).dropWhile isspace = t ++ close :: rest := by
        rw [append_assoc, append_assoc, htu]
        exact dropWhile_skip hw hc
      have hno : ¬(t ++ close :: rest).head? = some close := by
        rw [htu]
        obtain rfl | rfl := hclose
        · simpa using h93
        · simpa using h125
      have hne : COMMA ≠ close := by
        obtain rfl | rfl := hclose
        · decide
        · decide
      have hstop : ∀ c rest, isspace c = true ∨ c = COMMA ∨ c = close →
          NumberStop (c :: rest) := by
        rintro c rest (hc | hc | rfl)
        · exact numberStop_of_delimiter rest (.inl hc)
        · exact numberStop_of_delimiter rest (.inr (.inl hc))
        · exact numberStop_of_delimiter rest (.inr (.inr hclose))
      have hhead : ∀ t a, R t a → ∃ c t', t = c :: t' ∧ isspace c = false := by
        intro t a ht
        obtain ⟨c, t', htc, hc, -⟩ := hR t a ht
        exact ⟨c, t', htc, hc⟩
      simp only [parseJsonItems, hskip, hno, ↓reduceIte]
      have hread := separated_complete .bad .undefined intMax h hstop
        hhead (by decide) hspace hne hsep rest ((t ++ close :: rest).length + 1) 0 (by
          rw [length_append]
          omega) (by
          rw [Nat.zero_add]
          exact lim.beyond .items _ hmax)
      rwa [Nat.zero_add] at hread

end Recognized

theorem scalar_begins (fits : Length → ℕ → Prop) : Begins (Scalar fits) := by
  intro t v h
  cases h with
  | @string t buffer _ => exact ⟨QUOTE, t, rfl, by decide, by decide, by decide⟩
  | number h =>
    obtain ⟨c, t, rfl, hc⟩ := h.head
    have key : ∀ c : UInt8, c = 45 ∨ isdigit c = true → isspace c = false ∧ c ≠ 93 ∧ c ≠ 125 :=
      forall_byte (by decide +kernel)
    exact ⟨c, t, rfl, key c hc⟩
  | true => exact ⟨116, _, rfl, by decide, by decide, by decide⟩
  | false => exact ⟨102, _, rfl, by decide, by decide, by decide⟩
  | null => exact ⟨110, _, rfl, by decide, by decide, by decide⟩

theorem value_begins (fits : Length → ℕ → Prop) (room : ℕ) : Begins (Value fits room) := by
  intro t v h
  cases room with
  | zero => exact scalar_begins fits t v h
  | succ room =>
    obtain h | h := h
    · exact scalar_begins fits t v h
    · cases h with
      | @object t _ _ _ => exact ⟨123, t, rfl, by decide, by decide, by decide⟩
      | @array t _ _ _ => exact ⟨91, t, rfl, by decide, by decide, by decide⟩

theorem member_begins (fits : Length → ℕ → Prop) (R : Bytes → JsonValue → Prop) :
    Begins (Member fits R) := by
  intro t a h
  cases h with
  | mk _ _ _ _ => exact ⟨QUOTE, _, rfl, by decide, by decide, by decide⟩

theorem scalar_no_bracket {fits : Length → ℕ → Prop} {t rest : Bytes} {v : JsonValue}
    (h : Scalar fits t v) :
    (t ++ rest).head? ≠ some 123 ∧ (t ++ rest).head? ≠ some 91 := by
  cases h with
  | string _ =>
    have h123 : QUOTE ≠ 123 := by decide
    have h91 : QUOTE ≠ 91 := by decide
    exact ⟨by simpa using h123, by simpa using h91⟩
  | number h =>
    obtain ⟨c, t, rfl, hc⟩ := h.head
    have key : ∀ c : UInt8, c = 45 ∨ isdigit c = true → c ≠ 123 ∧ c ≠ 91 :=
      forall_byte (by decide +kernel)
    obtain ⟨h1, h2⟩ := key c hc
    exact ⟨by simpa using h1, by simpa using h2⟩
  | true =>
    have hword : bytes "true" = [116, 114, 117, 101] := by decide
    simp [hword]
  | false =>
    have hword : bytes "false" = [102, 97, 108, 115, 101] := by decide
    simp [hword]
  | null =>
    have hword : bytes "null" = [110, 117, 108, 108] := by decide
    simp [hword]

theorem parseJsonValue_scalar {room : ℕ} {s : Bytes} (h123 : s.head? ≠ some 123)
    (h91 : s.head? ≠ some 91) : parseJsonValue room s = parseJsonScalar s := by
  cases room with
  | zero | succ => simp [parseJsonValue, h123, h91]

theorem parseJsonValue_recognizes {fits : Length → ℕ → Prop} {up : JsonError → Prop}
    (lim : Limits fits up) (room : ℕ) :
    Recognizes (parseJsonValue room) (Value fits room) NumberStop up := by
  induction room with
  | zero =>
    refine ⟨?_, ?_⟩
    · intro s rest v h
      rw [parseJsonValue] at h
      split at h
      · cases h
      · exact (parseJsonScalar_recognizes lim).sound h
    · intro t rest v h hrest
      obtain ⟨h123, h91⟩ := scalar_no_bracket h
      rw [parseJsonValue_scalar h123 h91]
      exact (parseJsonScalar_recognizes lim).complete h hrest
  | succ room ih =>
    have hmembers := parseJsonItems_recognizes lim
      (parseJsonMember_recognizes lim ih (value_begins _ room)) (member_begins _ _) (.inr rfl)
    have helements := parseJsonItems_recognizes lim ih (value_begins _ room) (.inl rfl)
    refine ⟨?_, ?_⟩
    · intro s rest v h
      rw [parseJsonValue] at h
      split at h
      · next hhead =>
        obtain ⟨s, rfl⟩ := List.head?_eq_some_iff.mp hhead
        split at h
        · next size members rest' hread =>
          cases h
          obtain ⟨t, ht, hitems⟩ := hmembers.sound hread
          exact ⟨123 :: t, by rw [cons_append, ← ht]; rfl, .inr (.object hitems)⟩
        · cases h
      split at h
      · next hhead =>
        obtain ⟨s, rfl⟩ := List.head?_eq_some_iff.mp hhead
        split at h
        · next size elements rest' hread =>
          cases h
          obtain ⟨t, ht, hitems⟩ := helements.sound hread
          exact ⟨91 :: t, by rw [cons_append, ← ht]; rfl, .inr (.array hitems)⟩
        · cases h
      · obtain ⟨t, ht, hscalar⟩ := (parseJsonScalar_recognizes lim).sound h
        exact ⟨t, ht, .inl hscalar⟩
    · intro t rest v h hrest
      obtain h | h := h
      · obtain ⟨h123, h91⟩ := scalar_no_bracket h
        rw [parseJsonValue_scalar h123 h91]
        exact (parseJsonScalar_recognizes lim).complete h hrest
      · cases h with
        | @object t size members h =>
          obtain hread | ⟨e, he, hread⟩ := hmembers.complete h (r := rest) trivial
          · exact .inl (by simp [parseJsonValue, parseJsonMembers, hread])
          · exact .inr ⟨e, he, by simp [parseJsonValue, parseJsonMembers, hread]⟩
        | @array t size elements h =>
          obtain hread | ⟨e, he, hread⟩ := helements.complete h (r := rest) trivial
          · exact .inl (by simp [parseJsonValue, parseJsonElements, hread])
          · exact .inr ⟨e, he, by simp [parseJsonValue, parseJsonElements, hread]⟩

section Parse

variable {fits : Length → ℕ → Prop} {up : JsonError → Prop} (lim : Limits fits up)

include lim

theorem Limits.sound {s : Bytes} {v : JsonValue} (h : jsonValueParse s = .value v) : Text fits s v := by
  unfold jsonValueParse at h
  obtain ⟨w, hsplit, -, hw, -⟩ := dropWhile_split isspace s
  split at h
  · next val cursor hread =>
    split at h
    · next hend =>
      cases h
      obtain ⟨t, ht, hv⟩ := (parseJsonValue_recognizes lim depthLimit).sound hread
      refine ⟨w, t, cursor, by rw [hsplit, ht], hw, hv, ?_⟩
      exact dropWhile_eq_nil_iff.mp hend
    · cases h
  · cases h
  · cases h

theorem Limits.complete (hup : ∀ e, up e → e = .undefined) {s : Bytes} {v : JsonValue}
    (h : Text fits s v) :
    jsonValueParse s = .value v ∨ up .undefined ∧ jsonValueParse s = .undefined := by
  obtain ⟨w, t, w', rfl, hw, hv, hw'⟩ := h
  have hskip := (value_begins _ 1024).skip hv hw w'
  have hstop : NumberStop w' := by
    cases w' with
    | nil => rintro _ ⟨⟩
    | cons c w' => exact numberStop_of_delimiter w' (.inl (hw' c (by simp)))
  have hend : w'.dropWhile isspace = [] := dropWhile_eq_nil_iff.mpr hw'
  obtain hread | ⟨e, he, hread⟩ := (parseJsonValue_recognizes lim depthLimit).complete hv hstop
  · refine .inl ?_
    simp only [jsonValueParse, hskip, hread, hend]
  · obtain rfl := hup e he
    refine .inr ⟨he, ?_⟩
    simp only [jsonValueParse, hskip, hread]

end Parse

theorem jsonValueParse_iff (s : Bytes) (v : JsonValue) :
    jsonValueParse s = .value v ↔ Text InInt s v :=
  ⟨inInt_limits.sound, fun h =>
    (inInt_limits.complete (fun _ => False.elim) h).resolve_right fun h => h.1⟩

theorem parsed_or_undefined {s : Bytes} {v : JsonValue} (h : Text Unlimited s v) :
    jsonValueParse s = .value v ∨ jsonValueParse s = .undefined :=
  (unlimited_limits.complete (fun _ he => he) h).imp_right And.right

/-! ## Overflow takes a long text -/

theorem stringLengthFrom_ends (len : ℕ) (s : Bytes) :
    (stringLengthFrom len s = .error .undefined → intMax < len + s.length) ∧
      ∀ m, stringLengthFrom len s = .ok m → m < len + s.length := by
  fun_induction stringLengthFrom len s with
  | case5 len e cursor _ _ ih | case8 len e cursor _ _ _ _ ih =>
    refine ⟨fun h => (ih.1 h).trans_le ?_, fun m h => (ih.2 m h).trans_le ?_⟩
    all_goals
      simp only [length_cons]
      omega
  | case1 | case2 | case3 | case4 | case6 | case7 => simp

theorem readString_long {extra : ℕ} (hextra : extra ≤ 1) {s : Bytes}
    (h : readString extra s = .error .undefined) : intMax < s.length := by
  have hends := stringLengthFrom_ends 0 s
  rw [Nat.zero_add] at hends
  unfold readString at h
  split at h
  · next hscan =>
    cases h
    exact hends.1 hscan
  · next len hscan =>
    have hlen := hends.2 len hscan
    split_ifs at h
    · omega
    · obtain ⟨t, accepted, written, -, hparse, -⟩ := parseJsonString_scanned hscan
      rw [hparse] at h
      cases accepted <;> cases h

theorem parseJsonScalar_long {s : Bytes} (h : parseJsonScalar s = .error .undefined) :
    intMax < s.length := by
  unfold parseJsonScalar at h
  split at h
  · cases h
  split at h
  · split at h
    · cases h
    · next hread =>
      cases h
      have := readString_long le_rfl hread
      rw [length_cons]
      omega
  split at h
  · split at h
    · cases h
    · next hread =>
      cases h
      unfold parseJsonNumber at hread
      repeat' split at hread
      all_goals cases hread
  repeat' split at h
  all_goals cases h

theorem dropWhile_length_le (s : Bytes) : (s.dropWhile isspace).length ≤ s.length :=
  (dropWhile_suffix isspace).length_le

theorem parseJsonMember_long {value : Reader UInt8 JsonError JsonValue}
    (hvalue : ∀ s, value s = .error .undefined → intMax < s.length) {s : Bytes}
    (h : parseJsonMember value s = .error .undefined) : intMax < s.length := by
  unfold parseJsonMember at h
  split at h
  · next s =>
    rw [length_cons]
    split at h
    · next hread =>
      cases h
      have := readString_long (by decide) hread
      omega
    · next name s₁ hread =>
      obtain ⟨t, rfl, -⟩ := inInt_limits.name.sound hread
      have hle := dropWhile_length_le s₁
      split at h
      · next s₂ hcolon =>
        rw [hcolon, length_cons] at hle
        split at h
        · next hval =>
          cases h
          have := hvalue _ hval
          have := dropWhile_length_le s₂
          rw [length_append]
          omega
        · cases h
      · cases h
  · cases h

theorem parseJsonItems_long {α : Type} {item : Reader UInt8 JsonError α} {R : Bytes → α → Prop}
    {close : UInt8} (hlong : ∀ s, item s = .error .undefined → intMax < s.length)
    (hitem : Recognizes item R NumberStop (fun _ => False)) (hR : Begins R) {s : Bytes}
    (h : parseJsonItems item close s = .error .undefined) : intMax < s.length := by
  have hmove : ∀ s a rest, item s = .ok (a, rest) → rest.length < s.length := by
    intro s a rest hread
    obtain ⟨t, rfl, ht⟩ := hitem.sound hread
    obtain ⟨c, t', rfl, -⟩ := hR t a ht
    simp only [length_append, length_cons]
    omega
  unfold parseJsonItems at h
  simp only at h
  split at h
  · cases h
  · have hfull := separated_full hlong hmove (by decide) _ _ _ h
    have := dropWhile_length_le s
    omega

theorem parseJsonValue_long (room : ℕ) : ∀ s,
    parseJsonValue room s = .error .undefined → intMax < s.length := by
  induction room with
  | zero =>
    intro s h
    rw [parseJsonValue] at h
    split at h
    · cases h
    · exact parseJsonScalar_long h
  | succ room ih =>
    have hvalue := parseJsonValue_recognizes inInt_limits room
    have htail : ∀ s : Bytes, intMax < s.tail.length → intMax < s.length := by
      intro s hs
      rw [length_tail] at hs
      omega
    intro s h
    rw [parseJsonValue] at h
    split at h
    · split at h
      · cases h
      · next hread =>
        cases h
        exact htail s (parseJsonItems_long (fun _ => parseJsonMember_long ih)
          (parseJsonMember_recognizes inInt_limits hvalue (value_begins _ room))
          (member_begins _ _) hread)
    split at h
    · split at h
      · cases h
      · next hread =>
        cases h
        exact htail s (parseJsonItems_long ih hvalue (value_begins _ room) hread)
    · exact parseJsonScalar_long h

theorem jsonValueParse_long {s : Bytes} (h : jsonValueParse s = .undefined) :
    intMax < s.length := by
  unfold jsonValueParse at h
  split at h
  · split at h <;> cases h
  · next hread =>
    have := parseJsonValue_long _ _ hread
    have := dropWhile_length_le s
    omega
  · cases h

/-- The parser returns a value if and only if the text is one of the grammar, and it is the one
    which the text denotes. -/
structure ParsesAsDenoted (s : Bytes) : Prop where
  defined : jsonValueParse s ≠ .undefined
  value_iff : ∀ v, jsonValueParse s = .value v ↔ Text Unlimited s v

theorem parsesAsDenoted {s : Bytes} (h : jsonValueParse s ≠ .undefined) : ParsesAsDenoted s :=
  ⟨h, fun _ => ⟨unlimited_limits.sound, fun hv => (parsed_or_undefined hv).resolve_right h⟩⟩

/-- No string, name or container of the text is too long for an `int`. -/
def LengthsFit (s : Bytes) : Prop := ∀ v, Text Unlimited s v → Text InInt s v

def letters (k : ℕ) : Bytes := QUOTE :: (List.replicate k 97 ++ [QUOTE])

theorem characters_letters (k : ℕ) :
    Characters (0x20 ≤ ·) (List.replicate k 97) (List.replicate k 97) k := by
  induction k with
  | zero => exact .nil
  | succ k ih =>
    rw [replicate_succ, Nat.add_comm]
    exact .plain (by decide) (by decide) (by decide) ih

theorem value_of_scalar {fits : Length → ℕ → Prop} {t : Bytes} {v : JsonValue} (room : ℕ)
    (h : Scalar fits t v) : Value fits room t v := by
  cases room with
  | zero => exact h
  | succ room => exact .inl h

theorem letters_text (k : ℕ) :
    Text Unlimited (letters k) (.string (List.replicate k 97)) := by
  have htail : StringTail (Unlimited .string) (List.replicate k 97 ++ [QUOTE])
      (List.replicate k 97) := ⟨_, k, rfl, characters_letters k, trivial⟩
  have hspaces : Spaces [] := by rintro _ ⟨⟩
  exact ⟨[], letters k, [], by simp, hspaces, value_of_scalar _ (.string htail), hspaces⟩

theorem letters_undefined {k : ℕ} (h : intMax ≤ k) : jsonValueParse (letters k) = .undefined := by
  have hstring : readString 1 (List.replicate k 97 ++ [QUOTE]) = .error .undefined := by
    rw [readString, (characters_letters k).jsonStringLength]
    split_ifs
    · exact if_pos (by omega)
    · rfl
  have h123 : (letters k).head? ≠ some 123 := by
    simp only [letters, List.head?_cons]
    decide
  have h91 : (letters k).head? ≠ some 91 := by
    simp only [letters, List.head?_cons]
    decide
  have hread : parseJsonValue depthLimit (letters k) = .error .undefined := by
    rw [parseJsonValue_scalar h123 h91, letters, parseJsonScalar, if_pos rfl, hstring]
  have hskip : (letters k).dropWhile isspace = letters k := by
    have hq : isspace QUOTE = false := by decide
    rw [letters, dropWhile_cons_of_neg (by simp [hq])]
  simp only [jsonValueParse, hskip, hread]

end MyWorkflow.Json
