import MyWorkflow.MultiMap
import MyWorkflow.StringUtil

set_option autoImplicit false

/-!
# Splitting a query

`URIParser::split_query_strict` and `URIParser::split_query`. A `std::map` is an association list
without repeated keys; nothing here depends on the order of its keys.
-/
namespace MyWorkflow.Uri
open List CString StringUtil MultiMap

abbrev AMP : UInt8 := 38
abbrev EQUALS : UInt8 := 61

abbrev ValuesMap := AList fun _ : Bytes => List Bytes

abbrev ValueMap := AList fun _ : Bytes => Bytes

def strictTurn (res : ValuesMap) (ele : Bytes) : ValuesMap :=
  if ele = [] then res
  else
    match split ele EQUALS with
    | [] => res
    | key :: vals =>
      if key = [] then res
      else
        match vals with
        | [] => push res key []
        | val :: _ => if val = [] then push res key [] else push res key val

def splitQueryStrict (query : Bytes) : ValuesMap :=
  if query = [] then ∅ else (split query AMP).foldl strictTurn ∅

def queryTurn (res : ValueMap) (ele : Bytes) : ValueMap :=
  if ele = [] then res
  else
    match split ele EQUALS with
    | [] => res
    | key :: vals =>
      if key = [] ∨ key ∈ res then res
      else
        match vals with
        | [] => res.insert key []
        | val :: _ => if val = [] then res.insert key [] else res.insert key val

def splitQuery (query : Bytes) : ValueMap :=
  if query = [] then ∅ else (split query AMP).foldl queryTurn ∅

/-! ## What a query says -/

/-- The text in front of the first `=`, and the text from there to the second. -/
def readPair (ele : Bytes) : Option (Bytes × Bytes) :=
  match split ele EQUALS with
  | key :: vals => if key = [] then none else some (key, vals.headD [])
  | [] => none

theorem readPair_nil : readPair [] = none := rfl

theorem strictTurn_eq (res : ValuesMap) (ele : Bytes) :
    strictTurn res ele = match readPair ele with
      | some (key, val) => push res key val
      | none => res := by
  by_cases hele : ele = []
  · rw [hele, readPair_nil]
    rfl
  · unfold strictTurn readPair
    rw [if_neg hele]
    cases split ele EQUALS with
    | nil => rfl
    | cons key vals =>
      by_cases hkey : key = []
      · simp [hkey]
      · cases vals with
        | nil => simp [hkey]
        | cons val more => by_cases hval : val = [] <;> simp [hkey, hval]

theorem queryTurn_eq (res : ValueMap) (ele : Bytes) :
    queryTurn res ele = match readPair ele with
      | some (key, val) => putNew res key val
      | none => res := by
  by_cases hele : ele = []
  · rw [hele, readPair_nil]
    rfl
  · unfold queryTurn readPair
    rw [if_neg hele]
    cases split ele EQUALS with
    | nil => rfl
    | cons key vals =>
      by_cases hkey : key = []
      · simp [hkey]
      · by_cases hmem : key ∈ res
        · simp [hkey, hmem, putNew]
        · cases vals with
          | nil => simp [hkey, hmem, putNew]
          | cons val more => by_cases hval : val = [] <;> simp [hkey, hmem, hval, putNew]

/-- What a turn keeps for each pair that it reads, the loop over all texts keeps. -/
theorem foldl_turn {M : Type} {turn : M → Bytes → M} {put : M → Bytes → Bytes → M}
    {P : M → List (Bytes × Bytes) → Prop}
    (hturn : ∀ res ele, turn res ele = match readPair ele with
      | some (key, val) => put res key val
      | none => res)
    (hput : ∀ {res pairs}, P res pairs → ∀ key val, P (put res key val) (pairs ++ [(key, val)]))
    {res : M} {pairs : List (Bytes × Bytes)} (h : P res pairs) (eles : List Bytes) :
    P (eles.foldl turn res) (pairs ++ eles.filterMap readPair) := by
  induction eles generalizing res pairs with
  | nil => simpa using h
  | cons ele eles ih =>
    rw [foldl_cons, hturn]
    cases hread : readPair ele with
    | none =>
      rw [filterMap_cons_none hread]
      exact ih h
    | some pair =>
      rw [filterMap_cons_some hread, append_cons]
      exact ih (hput h pair.1 pair.2)

def pairsOf (query : Bytes) : List (Bytes × Bytes) := (split query AMP).filterMap readPair

theorem splitQueryStrict_collects (query : Bytes) :
    Collects (splitQueryStrict query) (pairsOf query) := by
  unfold splitQueryStrict pairsOf
  split_ifs with hquery
  · rw [hquery]
    exact .empty
  · exact foldl_turn strictTurn_eq Collects.push Collects.empty _

theorem splitQuery_keepsFirst (query : Bytes) :
    KeepsFirst (splitQuery query) (pairsOf query) := by
  unfold splitQuery pairsOf
  split_ifs with hquery
  · rw [hquery]
    exact .empty
  · exact foldl_turn queryTurn_eq KeepsFirst.putNew KeepsFirst.empty _

def joinPair (pair : Bytes × Bytes) : Bytes := pair.1 ++ EQUALS :: pair.2

def joinQuery (pairs : List (Bytes × Bytes)) : Bytes := [AMP].intercalate (pairs.map joinPair)

def Joinable (pair : Bytes × Bytes) : Prop :=
  pair.1 ≠ [] ∧ AMP ∉ pair.1 ∧ EQUALS ∉ pair.1 ∧ AMP ∉ pair.2

instance (pair : Bytes × Bytes) : Decidable (Joinable pair) :=
  inferInstanceAs (Decidable (_ ∧ _ ∧ _ ∧ _))

def cutValue (val : Bytes) : Bytes := val.takeWhile (· != EQUALS)

theorem readPair_joinPair {pair : Bytes × Bytes} (h : Joinable pair) :
    readPair (joinPair pair) = some (pair.1, cutValue pair.2) := by
  obtain ⟨hne, -, hfree, -⟩ := h
  have hhead : (split pair.2 EQUALS).headD [] = cutValue pair.2 := by
    rw [headD_eq_head?_getD, head?_split]
    rfl
  rw [readPair, joinPair, split_append_cons _ hfree]
  simp only [if_neg hne, hhead]

theorem pairsOf_joinQuery {pairs : List (Bytes × Bytes)} (h : ∀ p ∈ pairs, Joinable p) :
    pairsOf (joinQuery pairs) = pairs.map fun p => (p.1, cutValue p.2) := by
  by_cases hne : pairs = []
  · rw [hne]
    rfl
  · have hfree : ∀ p ∈ pairs.map joinPair, AMP ∉ p := by
      intro p hp
      obtain ⟨pair, hmem, rfl⟩ := mem_map.mp hp
      obtain ⟨-, hk, -, hv⟩ := h pair hmem
      have hamp : AMP ≠ EQUALS := by decide
      simp [joinPair, hk, hv, hamp]
    rw [pairsOf, joinQuery, split_intercalate hfree (by simpa using hne), filterMap_map]
    have hread : ∀ p ∈ pairs, (readPair ∘ joinPair) p = some (p.1, cutValue p.2) :=
      fun p hp => readPair_joinPair (h p hp)
    rw [filterMap_congr hread]
    simp

theorem cutValue_eq_iff (val : Bytes) : cutValue val = val ↔ EQUALS ∉ val := by
  rw [cutValue, takeWhile_eq_self_iff]
  constructor
  · intro h hmem
    simpa using h EQUALS hmem
  · intro h c hc
    simp only [bne_iff_ne, ne_eq]
    rintro rfl
    exact h hc

theorem valuesOf_map_snd (k : Bytes) (pairs : List (Bytes × Bytes)) (f : Bytes → Bytes) :
    valuesOf k (pairs.map fun p => (p.1, f p.2)) = (valuesOf k pairs).map f := by
  simp only [valuesOf, filter_map, map_map]
  rfl

theorem Collects.unique {m : ValuesMap} {pairs pairs' : List (Bytes × Bytes)}
    (h : Collects m pairs) (h' : Collects m pairs') (k : Bytes) :
    valuesOf k pairs = valuesOf k pairs' := by
  have heq := (h k).symm.trans (h' k)
  by_cases hk : valuesOf k pairs = []
  · by_cases hk' : valuesOf k pairs' = []
    · rw [hk, hk']
    · simp [hk, hk'] at heq
  · by_cases hk' : valuesOf k pairs' = []
    · simp [hk, hk'] at heq
    · simpa [hk, hk'] using heq

/-- A query is split into the pairs it was joined from exactly if no value has a `=` in it. -/
theorem split_query_recovers_iff {pairs : List (Bytes × Bytes)} (h : ∀ p ∈ pairs, Joinable p) :
    (Collects (splitQueryStrict (joinQuery pairs)) pairs ∧
      KeepsFirst (splitQuery (joinQuery pairs)) pairs) ↔ ∀ p ∈ pairs, EQUALS ∉ p.2 := by
  have hstrict := splitQueryStrict_collects (joinQuery pairs)
  have hfirst := splitQuery_keepsFirst (joinQuery pairs)
  rw [pairsOf_joinQuery h] at hstrict hfirst
  constructor
  · rintro ⟨hcollects, -⟩ p hp
    have hvalues := Collects.unique hcollects hstrict p.1
    rw [valuesOf_map_snd] at hvalues
    have hmem : p.2 ∈ valuesOf p.1 pairs :=
      mem_map.mpr ⟨p, mem_filter.mpr ⟨hp, by simp⟩, rfl⟩
    have hcut : ∀ v ∈ valuesOf p.1 pairs, cutValue v = id v :=
      map_inj_left.mp (by rw [map_id, ← hvalues])
    exact (cutValue_eq_iff p.2).mp (hcut p.2 hmem)
  · intro hvalues
    have hsame : (pairs.map fun p => (p.1, cutValue p.2)) = pairs := by
      refine (map_inj_left.mpr ?_).trans (map_id pairs)
      intro p hp
      rw [(cutValue_eq_iff p.2).mpr (hvalues p hp)]
      rfl
    rw [hsame] at hstrict hfirst
    exact ⟨hstrict, hfirst⟩

def repeatedKey : List (Bytes × Bytes) :=
  [(bytes "a", bytes "1"), (bytes "b", []), (bytes "a", bytes "2")]

theorem repeatedKey_recovered : (splitQueryStrict (bytes "a=1&b=&a=2")).lookup (bytes "a") =
      some [bytes "1", bytes "2"] ∧
    (Collects (splitQueryStrict (joinQuery repeatedKey)) repeatedKey ∧
      KeepsFirst (splitQuery (joinQuery repeatedKey)) repeatedKey) :=
  ⟨by decide +kernel, (split_query_recovers_iff (by decide)).mpr (by decide)⟩

/-- A value with a `=` is cut there. -/
theorem padded_value_cut : Joinable (bytes "token", bytes "Zm9v==") ∧
    joinQuery [(bytes "token", bytes "Zm9v==")] = bytes "token=Zm9v==" ∧
    (splitQueryStrict (bytes "token=Zm9v==")).lookup (bytes "token") = some [bytes "Zm9v"] ∧
    (splitQuery (bytes "token=Zm9v==")).lookup (bytes "token") = some (bytes "Zm9v") := by
  refine ⟨by decide, by decide, by decide +kernel, by decide +kernel⟩

end MyWorkflow.Uri
