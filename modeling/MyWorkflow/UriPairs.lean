import MyWorkflow.UriCompose
import MyWorkflow.UriQuery
import MyWorkflow.UrlCodec

set_option autoImplicit false

namespace MyWorkflow.Uri
open List CString MultiMap StringUtil

def encodePair (pair : Bytes × Bytes) : Bytes × Bytes :=
  (urlEncodeComponent pair.1, urlEncodeComponent pair.2)

theorem encodeByte_plain (c : UInt8) : ∀ x ∈ encodeByte componentPlain c,
    x ≠ 0 ∧ x ≠ 35 ∧ x ≠ AMP ∧ x ≠ EQUALS := by
  have hall : ∀ c, (encodeByte componentPlain c).all (fun x => !([0, 35, AMP, EQUALS].contains x)) =
      true := forall_byte (by decide +kernel)
  intro x hx
  simpa using all_eq_true.mp (hall c) x hx

theorem component_plain (str : Bytes) :
    ∀ x ∈ urlEncodeComponent str, x ≠ 0 ∧ x ≠ 35 ∧ x ≠ AMP ∧ x ≠ EQUALS := by
  induction str with
  | nil => exact fun x hx => absurd hx not_mem_nil
  | cons c str ih =>
    intro x hx
    rcases mem_append.mp hx with hx | hx
    · exact encodeByte_plain c x hx
    · exact ih x hx

theorem component_injective : Function.Injective urlEncodeComponent := by
  intro s t h
  have hs := urlDecode_encodeWith componentPlain_harmless s
  have ht := urlDecode_encodeWith componentPlain_harmless t
  rw [← urlEncodeComponent, h] at hs
  exact Option.some.inj (hs.symm.trans ht)

theorem encodePair_joinable {pair : Bytes × Bytes} (h : pair.1 ≠ []) :
    Joinable (encodePair pair) := by
  refine ⟨fun hnil => h (component_injective hnil), ?_, ?_, ?_⟩
  · exact fun hx => (component_plain _ _ hx).2.2.1 rfl
  · exact fun hx => (component_plain _ _ hx).2.2.2 rfl
  · exact fun hx => (component_plain _ _ hx).2.2.1 rfl

theorem pairsOf_encoded {pairs : List (Bytes × Bytes)} (h : ∀ p ∈ pairs, p.1 ≠ []) :
    pairsOf (joinQuery (pairs.map encodePair)) = pairs.map encodePair := by
  rw [pairsOf_joinQuery, map_map]
  · refine map_congr_left ?_
    intro p _
    have hcut : cutValue (encodePair p).2 = (encodePair p).2 :=
      (cutValue_eq_iff _).mpr fun hx => (component_plain _ _ hx).2.2.2 rfl
    simp only [Function.comp, hcut]
  · intro q hq
    obtain ⟨p, hp, rfl⟩ := mem_map.mp hq
    exact encodePair_joinable (h p hp)

theorem valuesOf_encoded (k : Bytes) (pairs : List (Bytes × Bytes)) :
    valuesOf (urlEncodeComponent k) (pairs.map encodePair) =
      (valuesOf k pairs).map urlEncodeComponent := by
  have hkey : ∀ p : Bytes × Bytes, (encodePair p).1 = urlEncodeComponent k ↔ p.1 = k :=
    fun p => component_injective.eq_iff
  simp only [valuesOf, filter_map, map_map, Function.comp_def, hkey]
  rfl

theorem joinQuery_plain (pairs : List (Bytes × Bytes)) :
    ∀ x ∈ joinQuery (pairs.map encodePair), x ≠ 35 ∧ x ≠ 0 := by
  have hpair : ∀ p, ∀ x ∈ joinPair (encodePair p), x ≠ 35 ∧ x ≠ 0 := by
    intro p x hx
    rcases mem_append.mp hx with hx | hx
    · exact ⟨(component_plain _ x hx).2.1, (component_plain _ x hx).1⟩
    · rcases mem_cons.mp hx with rfl | hx
      · decide
      · exact ⟨(component_plain _ x hx).2.1, (component_plain _ x hx).1⟩
  induction pairs with
  | nil => exact fun x hx => absurd hx not_mem_nil
  | cons p pairs ih =>
    cases pairs with
    | nil => simpa [joinQuery, List.intercalate] using hpair p
    | cons q pairs =>
      have hjoin : joinQuery ((p :: q :: pairs).map encodePair) =
          joinPair (encodePair p) ++ AMP :: joinQuery ((q :: pairs).map encodePair) := by
        simp [joinQuery, List.intercalate]
      intro x hx
      rw [hjoin, mem_append, mem_cons] at hx
      rcases hx with hx | rfl | hx
      · exact hpair p x hx
      · decide
      · exact ih x hx

def Composed.withPairs (u : Composed) (pairs : List (Bytes × Bytes)) : Composed :=
  { u with
    query := some (joinQuery (pairs.map encodePair))
    query_plain := ⟨fun h => (joinQuery_plain pairs _ h).1 rfl,
      fun h => (joinQuery_plain pairs _ h).2 rfl⟩ }

/-- Pairs that go into the query of a URI, url-encoded, are read back from its text by `parse`, a
    split of the query and `url_decode`, whatever bytes they have. -/
theorem query_pairs_recovered (u : Composed) (pairs : List (Bytes × Bytes))
    (hkeys : ∀ p ∈ pairs, p.1 ≠ []) (hlen : (u.withPairs pairs).text.length ≤ INT_MAX)
    (uri : ParsedURI) : ∃ uri', parse (u.withPairs pairs).text uri = some (0, uri') ∧
      ∀ k, ((splitQueryStrict (uri'.query.getD [])).lookup (urlEncodeComponent k)).map
            (List.map urlDecode) =
          (if valuesOf k pairs = [] then none else some ((valuesOf k pairs).map some)) ∧
        ((splitQuery (uri'.query.getD [])).lookup (urlEncodeComponent k)).map urlDecode =
          (valuesOf k pairs).head?.map some := by
  refine ⟨_, by rw [Composed.parse_eq, if_pos hlen], ?_⟩
  have hquery : ((u.withPairs pairs).parsed uri).query.getD [] =
      joinQuery (pairs.map encodePair) := by
    by_cases hnil : joinQuery (pairs.map encodePair) = [] <;>
      simp [Composed.parsed, Composed.withPairs, present, hnil]
  have hdecode : urlDecode ∘ urlEncodeComponent = some :=
    funext fun s => urlDecode_encodeWith componentPlain_harmless s
  intro k
  have hstrict := splitQueryStrict_collects (joinQuery (pairs.map encodePair))
    (urlEncodeComponent k)
  have hfirst := splitQuery_keepsFirst (joinQuery (pairs.map encodePair)) (urlEncodeComponent k)
  rw [pairsOf_encoded hkeys, valuesOf_encoded] at hstrict hfirst
  rw [hquery, hstrict, hfirst]
  constructor
  · by_cases hvalues : valuesOf k pairs = []
    · simp [hvalues]
    · simp [hvalues, hdecode]
  · rw [List.head?_map, Option.map_map, hdecode]

def formPairs : List (Bytes × Bytes) :=
  [(bytes "a b", bytes "1=2&3"), (bytes "c", []), (bytes "a b", bytes "#")]

theorem formPairs_recovered :
    ((letters 0).withPairs formPairs).text = bytes "http://h/?a+b=1%3D2%263&c=&a+b=%23" ∧
    ∃ uri, parse ((letters 0).withPairs formPairs).text {} = some (0, uri) ∧
      ((splitQueryStrict (uri.query.getD [])).lookup (urlEncodeComponent (bytes "a b"))).map
        (List.map urlDecode) = some [some (bytes "1=2&3"), some (bytes "#")] := by
  obtain ⟨uri, hparse, h⟩ := query_pairs_recovered (letters 0) formPairs (by decide)
    (by decide +kernel) {}
  exact ⟨by decide +kernel, uri, hparse, (h (bytes "a b")).1⟩

end MyWorkflow.Uri
