import MyWorkflow.JsonSound

set_option autoImplicit false

namespace MyWorkflow.Json
open List CString Recognizer RedBlack SearchTree JsonObject

/-- The text is an object with a member whose name, all escapes decoded, is `name`. -/
def HasMember (text name : Bytes) : Prop :=
  ∃ size members, Text Unlimited text (.object size members) ∧ name ∈ members.map Prod.fst

variable {δ : Type}

theorem find_parsed {ms : List (MemberId × Bytes × StoredValue δ)}
    {o : JsonObject (StoredValue δ)} (h : parseJsonObject ms = some o)
    (k : Bytes) : o.objectFind k ≠ none ↔ ∃ p ∈ ms, strdup p.2.1 = strdup k := by
  obtain ⟨hinv, hread⟩ := inv_parseJsonObject h
  rw [ne_eq, hinv.find_none_iff]
  push Not
  constructor
  · rintro ⟨m, hm, memb, hmemb, hname⟩
    obtain ⟨p, hp, rfl⟩ := mem_map.mp hm
    rw [hread p hp] at hmemb
    cases hmemb
    exact ⟨p, hp, hname⟩
  · rintro ⟨p, hp, hname⟩
    exact ⟨p.1, mem_map_of_mem hp, _, hread p hp, hname⟩

theorem hasMember_iff {text name : Bytes} {size : ℕ} {members : List (Bytes × JsonValue)}
    (h : jsonValueParse text = .value (.object size members)) :
    HasMember text name ↔ name ∈ members.map Prod.fst := by
  constructor
  · rintro ⟨size', members', htext, hmem⟩
    obtain hsame | hnot := parsed_or_undefined htext
    · cases h.symm.trans hsame
      exact hmem
    · cases h.symm.trans hnot
  · intro hmem
    exact ⟨size, members, unlimited_limits.sound h, hmem⟩

theorem load_find (evaluate : JsonNumber → δ) {text : Bytes} {size : ℕ}
    {members : List (Bytes × JsonValue)}
    (h : jsonValueParse text = .value (.object size members)) :
    ∃ o, load evaluate (.object size members) = some (.object o true) ∧
      ∀ k, o.objectFind k ≠ none ↔ ∃ name, HasMember text name ∧ strdup name = strdup k := by
  obtain ⟨w, t, w', -, -, hvalue, -⟩ := (jsonValueParse_iff text _).mp h
  cases value_bounded _ _ _ hvalue with
  | object length values =>
    obtain ⟨ms, o, hload, -, hparse, hnames⟩ :=
      loadObject_spec evaluate size length fun p hp => (values p hp).load_sound
    refine ⟨o, hload, fun k => ?_⟩
    rw [find_parsed hparse]
    simp only [hasMember_iff h, ← hnames, mem_map]
    constructor
    · rintro ⟨p, hp, hname⟩
      exact ⟨p.2.1, ⟨p, hp, rfl⟩, hname⟩
    · rintro ⟨_, ⟨p, hp, rfl⟩, hname⟩
      exact ⟨p, hp, hname⟩

/-- `json_object_find` finds exactly the names of the text if no name is cut short by a NUL, save to
    one that the text has as well. -/
theorem find_decoded_iff (evaluate : JsonNumber → δ) {text : Bytes} {size : ℕ}
    {members : List (Bytes × JsonValue)}
    (h : jsonValueParse text = .value (.object size members)) :
    ∃ o, load evaluate (.object size members) = some (.object o true) ∧
      ((∀ k, 0 ∉ k → (o.objectFind k ≠ none ↔ HasMember text k)) ↔
        ∀ name, HasMember text name → 0 ∈ name → HasMember text (strdup name)) := by
  obtain ⟨o, hload, hfind⟩ := load_find evaluate h
  refine ⟨o, hload, ?_, ?_⟩
  · intro hfaithful name hname _
    rw [← hfaithful (strdup name) (zero_notMem_strdup name), hfind]
    exact ⟨name, hname, (takeWhile_idem).symm⟩
  · intro hwhole k hk
    rw [hfind, strdup_of_notMem hk]
    constructor
    · rintro ⟨name, hname, rfl⟩
      by_cases hnul : 0 ∈ name
      · exact hwhole name hname hnul
      · rwa [strdup_of_notMem hnul]
    · intro hmem
      exact ⟨k, hmem, strdup_of_notMem hk⟩

def oneMember (name : Bytes) : Bytes :=
  123 :: QUOTE :: (name ++ [QUOTE, COLON, 49, 125])

theorem oneMember_parsed {t name : Bytes} {n : ℕ} (h : Characters (0x20 ≤ ·) t name n)
    (hn : n ≤ intMax) :
    jsonValueParse (oneMember t) = .value (.object 1 [(name, .number ⟨[49], [], 0⟩)]) := by
  have hnone : Spaces [] := by
    intro c hc
    cases hc
  have hone : NumberText [49] ⟨[49], [], 0⟩ := by
    refine ⟨[], [], rfl, ⟨[], [49], rfl, .inl rfl, ⟨by decide +kernel, by decide +kernel⟩,
      by decide +kernel⟩,
      .inl ⟨rfl, rfl⟩, .inl ⟨rfl, rfl⟩, by decide⟩
  have hmember : Member InInt (Value InInt 1023) _ _ :=
    .mk ⟨t, n, rfl, h, hn⟩ hnone hnone (value_of_scalar 1023 (.number hone))
  have hitems : Items InInt (Member InInt (Value InInt 1023)) 125 _ _ :=
    .some hnone (.one hmember hnone) (by change 1 ≤ intMax; decide)
  rw [jsonValueParse_iff]
  refine ⟨[], _, [], ?_, hnone, .inr (.object hitems), hnone⟩
  simp [oneMember]

/-- `{"\u00e9":1}` -/
theorem accented_found :
    ∃ o, load (fun _ => ()) (.object 1 [([195, 169], .number ⟨[49], [], 0⟩)]) =
        some (.object o true) ∧
      ∀ k, 0 ∉ k → (o.objectFind k ≠ none ↔
        HasMember (oneMember (bytes "\\u00e9")) k) := by
  have hname : Characters (0x20 ≤ ·) (bytes "\\u00e9") [195, 169] _ :=
    .unicode (h := bytes "00e9") (c := 'é') (.single ⟨rfl, by decide +kernel, by decide +kernel⟩) .nil
  have hparse := oneMember_parsed hname (by decide)
  obtain ⟨o, hload, hiff⟩ := find_decoded_iff (fun _ => ()) hparse
  refine ⟨o, hload, hiff.mpr fun name hmem hnul => ?_⟩
  rw [hasMember_iff hparse, map_singleton, mem_singleton] at hmem
  rw [hmem] at hnul
  exact absurd hnul (by decide)

/-- `{"a\u0000b":1}` -/
theorem cutShort_found :
    ∃ o, jsonValueParse (oneMember (bytes "a\\u0000b")) =
        .value (.object 1 [([97, 0, 98], .number ⟨[49], [], 0⟩)]) ∧
      load (fun _ => ()) (.object 1 [([97, 0, 98], .number ⟨[49], [], 0⟩)]) =
        some (.object o true) ∧
      o.objectFind (bytes "a") ≠ none ∧
      ¬HasMember (oneMember (bytes "a\\u0000b")) (bytes "a") := by
  have hname : Characters (0x20 ≤ ·) (bytes "a\\u0000b") [97, 0, 98] _ :=
    .plain (by decide) (by decide) (by decide) <|
      .unicode (h := bytes "0000") (c := '\x00') (.single ⟨rfl, by decide +kernel, by decide +kernel⟩) <|
        .plain (by decide) (by decide) (by decide) .nil
  have hparse := oneMember_parsed hname (by decide)
  obtain ⟨o, hload, hfind⟩ := load_find (fun _ => ()) hparse
  refine ⟨o, hparse, hload, ?_, ?_⟩
  · rw [hfind]
    exact ⟨[97, 0, 98], (hasMember_iff hparse).mpr (by simp), by decide⟩
  · rw [hasMember_iff hparse]
    decide

end MyWorkflow.Json
