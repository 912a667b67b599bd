import MyWorkflow.JsonGrammar

set_option autoImplicit false

namespace MyWorkflow.Json
open List CString Recognizer

def NumberStop (s : Bytes) : Prop :=
  Ends (fun c => isdigit c || c == 46 || c == 69 || c == 101) s

theorem ends_headD {s : Bytes} (h : Ends isdigit s) : isdigit (s.headD 0) = false := by
  cases s with
  | nil => decide
  | cons c s => exact h c rfl

def UnsignedText (t : Bytes) : Prop := Digits t ∧ (t.head? = some 48 → t = [48])

theorem skipUnsigned_iff (s rest : Bytes) :
    skipUnsigned s = some rest ↔ ∃ t, s = t ++ rest ∧ UnsignedText t ∧ Ends isdigit rest := by
  constructor
  · intro h
    cases s with
    | nil => cases h
    | cons d s =>
      rw [skipUnsigned] at h
      split at h
      · cases h
      next hd =>
      split at h
      · cases h
      next hzero =>
      cases h
      have hd : isdigit d = true := by simpa using hd
      obtain ⟨w, hs, hw, hdigits, hends⟩ := dropWhile_split isdigit s
      refine ⟨d :: w, by rw [cons_append, ← hs], ⟨⟨by simp, ?_⟩, ?_⟩, hends⟩
      · intro c hc
        obtain rfl | hc := mem_cons.mp hc
        · exact hd
        · exact hdigits c hc
      · intro h48
        have h48 : d = 48 := by simpa using h48
        have hnext : isdigit (s.headD 0) = false := by
          simpa [h48] using hzero
        cases s with
        | nil => rw [hw, h48]; rfl
        | cons c s =>
          have hc : isdigit c = false := hnext
          rw [hw, h48, takeWhile_cons, hc]
          rfl
  · rintro ⟨t, rfl, ⟨⟨hne, hdigits⟩, hzero⟩, hends⟩
    obtain ⟨d, t, rfl⟩ := exists_cons_of_ne_nil hne
    have hd := hdigits d (by simp)
    have htail : ∀ c ∈ t, isdigit c = true := fun c hc => hdigits c (by simp [hc])
    have hcond : ¬(d = 48 && isdigit ((t ++ rest).headD 0)) = true := by
      intro hc
      rw [Bool.and_eq_true, decide_eq_true_eq] at hc
      have ht : t = [] := by simpa [hc.1] using hzero
      rw [ht, nil_append, ends_headD hends] at hc
      cases hc.2
    rw [cons_append, skipUnsigned, hd, Bool.not_true, if_neg Bool.false_ne_true,
      if_neg hcond, dropWhile_exact htail hends]

theorem skipInteger_iff (s rest : Bytes) :
    skipInteger s = some rest ↔ ∃ t, s = t ++ rest ∧ IntegerText t ∧ Ends isdigit rest := by
  rw [skipInteger, skipUnsigned_iff]
  constructor
  · rintro ⟨t, hs, ⟨hdigits, hzero⟩, hends⟩
    split at hs
    · next hsign =>
      obtain ⟨s, rfl⟩ := List.head?_eq_some_iff.mp hsign
      rw [tail_cons] at hs
      refine ⟨45 :: t, by rw [hs]; rfl, ⟨[45], t, rfl, .inr rfl, hdigits, hzero⟩, hends⟩
    · exact ⟨t, hs, ⟨[], t, rfl, .inl rfl, hdigits, hzero⟩, hends⟩
  · rintro ⟨_, rfl, ⟨sign, t, rfl, hsign, hdigits, hzero⟩, hends⟩
    refine ⟨t, ?_, ⟨hdigits, hzero⟩, hends⟩
    obtain rfl | rfl := hsign
    · obtain ⟨d, t, rfl⟩ := exists_cons_of_ne_nil hdigits.1
      have hd : d ≠ 45 := by
        rintro rfl
        exact absurd (hdigits.2 45 (by simp)) (by decide)
      rw [if_neg (by simpa using hd)]
      rfl
    · rw [if_pos (by simp)]
      simp

theorem readFraction_sound {s rest fraction : Bytes} (hs : Ends isdigit s)
    (h : readFraction s = some (fraction, rest)) :
    ∃ t, s = t ++ rest ∧ FractionText t fraction ∧ Ends isdigit rest := by
  unfold readFraction at h
  split at h
  · next s =>
    split at h
    · next hd =>
      cases h
      obtain ⟨w, hs, hw, hdigits, hends⟩ := dropWhile_split isdigit s
      refine ⟨46 :: w, by rw [cons_append, ← hs], .inr ⟨by rw [hw], ?_, ?_⟩, hends⟩
      · rw [← hw]
        rintro rfl
        rw [nil_append] at hs
        rw [← hs] at hends
        rw [ends_headD hends] at hd
        cases hd
      · rw [← hw]
        exact hdigits
    · cases h
  · cases h
    exact ⟨[], rfl, .inl ⟨rfl, rfl⟩, hs⟩

theorem readFraction_complete {t rest fraction : Bytes} (ht : FractionText t fraction)
    (hrest : Ends (fun c => isdigit c || c == 46) rest) :
    readFraction (t ++ rest) = some (fraction, rest) := by
  obtain ⟨rfl, rfl⟩ | ⟨rfl, hne, hdigits⟩ := ht
  · unfold readFraction
    split
    · next s heq =>
      rw [nil_append] at heq
      have := hrest 46 (by rw [heq]; rfl)
      simp at this
    · rfl
  · have hends : Ends isdigit rest := by
      intro c hc
      have := hrest c hc
      simp only [Bool.or_eq_false_iff] at this
      exact this.1
    have hd : isdigit ((fraction ++ rest).headD 0) = true := by
      obtain ⟨d, t, rfl⟩ := exists_cons_of_ne_nil hne
      exact hdigits d (by simp)
    simp only [readFraction, cons_append, hd, ↓reduceIte, takeWhile_exact hdigits hends,
      dropWhile_exact hdigits hends]

theorem exponentFrom_digits (exp : ℕ) (ds rest : Bytes) (hds : ∀ c ∈ ds, isdigit c = true)
    (hends : Ends isdigit rest) :
    (exponentFrom exp (ds ++ rest)).1 =
      ds.foldl (fun n c => if n < 2000000 then n * 10 + (c.toNat - 48) else n) exp ∧
    (exponentFrom exp (ds ++ rest)).2.dropWhile isdigit = rest := by
  induction ds generalizing exp with
  | nil =>
    cases rest with
    | nil => exact ⟨rfl, rfl⟩
    | cons c rest =>
      have hc := hends c rfl
      simp [exponentFrom, hc]
  | cons c ds ih =>
    have hc := hds c (by simp)
    have htail : ∀ e ∈ ds, isdigit e = true := fun e he => hds e (by simp [he])
    rw [foldl_cons]
    by_cases hexp : exp < 2000000
    · have hstep : exponentFrom exp (c :: ds ++ rest) =
          exponentFrom (exp * 10 + (c.toNat - 48)) (ds ++ rest) := by
        simp [exponentFrom, hc, hexp]
      rw [hstep, if_pos hexp]
      exact ih _ htail
    · have hstop : exponentFrom exp (c :: ds ++ rest) = (exp, c :: ds ++ rest) := by
        simp [exponentFrom, hexp]
      have hfold : ∀ l : Bytes,
          l.foldl (fun n c => if n < 2000000 then n * 10 + (c.toNat - 48) else n) exp = exp := by
        intro l
        induction l with
        | nil => rfl
        | cons e l ihl => rw [foldl_cons, if_neg hexp, ihl]
      rw [hstop, if_neg hexp, hfold]
      exact ⟨rfl, dropWhile_exact hds hends⟩

theorem readExponentDigits_iff (s rest : Bytes) (exp : ℕ) :
    readExponentDigits s = some (exp, rest) ↔
      ∃ t, s = t ++ rest ∧ Digits t ∧ exp = clipped t ∧ Ends isdigit rest := by
  have hread : ∀ d t rest, (∀ c ∈ d :: t, isdigit c = true) → Ends isdigit rest →
      readExponentDigits (d :: t ++ rest) = some (clipped (d :: t), rest) := by
    intro d t rest hdigits hends
    obtain ⟨h1, h2⟩ := exponentFrom_digits (d.toNat - 48) t rest
      (fun c hc => hdigits c (by simp [hc])) hends
    have hclip : clipped (d :: t) =
        t.foldl (fun n c => if n < 2000000 then n * 10 + (c.toNat - 48) else n) (d.toNat - 48) := by
      simp [clipped]
    simp only [cons_append, readExponentDigits, hdigits d (by simp), Bool.not_true,
      Bool.false_eq_true, ↓reduceIte, h1, h2, hclip]
  constructor
  · intro h
    cases s with
    | nil => cases h
    | cons d s =>
      have hd : isdigit d = true := by
        by_contra hd
        simp [readExponentDigits, hd] at h
      obtain ⟨w, hs, -, hdigits, hends⟩ := dropWhile_split isdigit s
      have hall : ∀ c ∈ d :: w, isdigit c = true := by
        intro c hc
        obtain rfl | hc := mem_cons.mp hc
        · exact hd
        · exact hdigits c hc
      have heq := hread d w _ hall hends
      rw [cons_append, ← hs, h] at heq
      cases heq
      exact ⟨d :: w, by rw [cons_append, ← hs], ⟨by simp, hall⟩, rfl, hends⟩
  · rintro ⟨t, rfl, ⟨hne, hdigits⟩, rfl, hends⟩
    obtain ⟨d, t, rfl⟩ := exists_cons_of_ne_nil hne
    exact hread d t rest hdigits hends

def SignedText (t : Bytes) (exp : ℤ) : Prop :=
  ∃ sign digits, t = sign ++ digits ∧ Digits digits ∧
    (sign = [45] ∧ exp = -(clipped digits : ℤ) ∨ (sign = [] ∨ sign = [43]) ∧ exp = clipped digits)

theorem readSigned_sound {s rest : Bytes} {exp : ℤ} (h : readSigned s = some (exp, rest)) :
    ∃ t, s = t ++ rest ∧ SignedText t exp := by
  unfold readSigned at h
  by_cases hsign : s.head? = some 45
  · rw [if_pos hsign] at h
    obtain ⟨s, rfl⟩ := List.head?_eq_some_iff.mp hsign
    obtain ⟨⟨n, rest'⟩, hread, hr⟩ := Option.map_eq_some_iff.mp h
    cases hr
    obtain ⟨t, hs, hdigits, rfl, -⟩ := (readExponentDigits_iff _ _ _).mp hread
    rw [tail_cons] at hs
    exact ⟨45 :: t, by rw [hs]; rfl, [45], t, rfl, hdigits, .inl ⟨rfl, rfl⟩⟩
  · rw [if_neg hsign] at h
    obtain ⟨⟨n, rest'⟩, hread, hr⟩ := Option.map_eq_some_iff.mp h
    cases hr
    obtain ⟨t, hs, hdigits, rfl, -⟩ := (readExponentDigits_iff _ _ _).mp hread
    split at hs
    · next hplus =>
      obtain ⟨s, rfl⟩ := List.head?_eq_some_iff.mp hplus
      rw [tail_cons] at hs
      exact ⟨43 :: t, by rw [hs]; rfl, [43], t, rfl, hdigits, .inr ⟨.inr rfl, rfl⟩⟩
    · exact ⟨t, hs, [], t, rfl, hdigits, .inr ⟨.inl rfl, rfl⟩⟩

theorem readSigned_complete {t rest : Bytes} {exp : ℤ} (ht : SignedText t exp)
    (hrest : Ends isdigit rest) : readSigned (t ++ rest) = some (exp, rest) := by
  obtain ⟨sign, digits, rfl, hdigits, hsign⟩ := ht
  have hread : readExponentDigits (digits ++ rest) = some (clipped digits, rest) :=
    (readExponentDigits_iff _ _ _).mpr ⟨digits, rfl, hdigits, rfl, hrest⟩
  rw [append_assoc]
  obtain ⟨rfl, rfl⟩ | ⟨rfl | rfl, rfl⟩ := hsign
  · simp [readSigned, hread]
  · obtain ⟨d, t, rfl⟩ := exists_cons_of_ne_nil hdigits.1
    have hd := hdigits.2 d (by simp)
    have h45 : d ≠ 45 := by
      rintro rfl
      cases hd
    have h43 : d ≠ 43 := by
      rintro rfl
      cases hd
    simp only [nil_append, cons_append] at hread ⊢
    simp [readSigned, h45, h43, hread]
  · simp [readSigned, hread]

theorem readExponent_sound {s rest : Bytes} {exp : ℤ} (h : readExponent s = some (exp, rest)) :
    ∃ t, s = t ++ rest ∧ ExponentText t exp := by
  unfold readExponent at h
  split at h
  · next hhead =>
    cases s with
    | nil => simp at hhead
    | cons mark s =>
      obtain ⟨_, rfl, sign, digits, rfl, hdigits, hsign⟩ := readSigned_sound h
      refine ⟨mark :: (sign ++ digits), rfl, .inr ⟨mark, sign, digits, rfl, ?_, hdigits, hsign⟩⟩
      simpa using hhead
  · cases h
    exact ⟨[], rfl, .inl ⟨rfl, rfl⟩⟩

theorem NumberStop.ends {s : Bytes} (h : NumberStop s) : Ends isdigit s := by
  intro c hc
  have := h c hc
  simp only [Bool.or_eq_false_iff] at this
  exact this.1.1.1

theorem readExponent_complete {t rest : Bytes} {exp : ℤ} (ht : ExponentText t exp)
    (hrest : NumberStop rest) : readExponent (t ++ rest) = some (exp, rest) := by
  obtain ⟨rfl, rfl⟩ | ⟨mark, sign, digits, rfl, hmark, hdigits, hsign⟩ := ht
  · rw [nil_append, readExponent, if_neg]
    rintro (hmark | hmark)
    · have := hrest _ hmark
      simp at this
    · have := hrest _ hmark
      simp at this
  · have hhead : (mark :: (sign ++ digits) ++ rest).head? = some 69 ∨
        (mark :: (sign ++ digits) ++ rest).head? = some 101 := by simpa using hmark
    rw [readExponent, if_pos hhead]
    exact readSigned_complete ⟨sign, digits, rfl, hdigits, hsign⟩ hrest.ends

theorem ExponentText.ends {z rest : Bytes} {exp : ℤ} (hz : ExponentText z exp)
    (hrest : NumberStop rest) : Ends (fun c => isdigit c || c == 46) (z ++ rest) := by
  obtain ⟨rfl, -⟩ | ⟨mark, sign, digits, rfl, hmark, -⟩ := hz
  · intro c hc
    have := hrest c hc
    simp only [Bool.or_eq_false_iff] at this ⊢
    exact this.1.1
  · intro c hc
    cases hc
    obtain rfl | rfl := hmark
    · decide
    · decide

theorem FractionText.ends {y rest fraction : Bytes} (hy : FractionText y fraction)
    (hrest : Ends (fun c => isdigit c || c == 46) rest) : Ends isdigit (y ++ rest) := by
  obtain ⟨rfl, -⟩ | ⟨rfl, -⟩ := hy
  · intro c hc
    have := hrest c hc
    simp only [Bool.or_eq_false_iff] at this
    exact this.1
  · intro c hc
    cases hc
    decide

theorem parseJsonNumber_recognizes (up : JsonError → Prop) :
    Recognizes parseJsonNumber NumberText NumberStop up where
  sound := by
    intro s rest n h
    unfold parseJsonNumber at h
    split at h
    · cases h
    next c1 hint =>
    split at h
    · cases h
    next fraction c2 hfrac =>
    split at h
    · cases h
    next exp c3 hexp =>
    split at h
    · cases h
    next hlen =>
    cases h
    obtain ⟨x, rfl, hx, hends⟩ := (skipInteger_iff _ _).mp hint
    obtain ⟨y, rfl, hy, -⟩ := readFraction_sound hends hfrac
    obtain ⟨z, rfl, hz⟩ := readExponent_sound hexp
    have htake : (x ++ (y ++ (z ++ rest))).take
        ((x ++ (y ++ (z ++ rest))).length - (y ++ (z ++ rest)).length) = x := by
      rw [length_append, Nat.add_sub_cancel, take_left]
    simp only [htake]
    refine ⟨x ++ y ++ z, by simp, y, z, rfl, hx, hy, hz, ?_⟩
    simp only [length_append, numberMax] at hlen ⊢
    omega
  complete := by
    rintro t rest n ⟨y, z, rfl, hx, hy, hz, hlen⟩ hrest
    have hends := hz.ends hrest
    have hends' := hy.ends hends
    have hint : skipInteger (n.integer ++ (y ++ (z ++ rest))) = some (y ++ (z ++ rest)) :=
      (skipInteger_iff _ _).mpr ⟨n.integer, rfl, hx, hends'⟩
    have hfrac := readFraction_complete hy hends
    have hexp := readExponent_complete hz hrest
    have hlen' : ¬numberMax < (n.integer ++ (y ++ (z ++ rest))).length - rest.length := by
      simp only [length_append, numberMax] at hlen ⊢
      omega
    have htake : (n.integer ++ (y ++ (z ++ rest))).take
        ((n.integer ++ (y ++ (z ++ rest))).length - (y ++ (z ++ rest)).length) = n.integer := by
      rw [length_append, Nat.add_sub_cancel, take_left]
    rw [append_assoc, append_assoc]
    refine .inl ?_
    simp only [parseJsonNumber, hint, hfrac, hexp, hlen', ↓reduceIte, htake]

end MyWorkflow.Json
