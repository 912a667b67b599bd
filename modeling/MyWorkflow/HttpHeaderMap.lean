import MyWorkflow.HttpHeaderStore
import MyWorkflow.MultiMap

set_option autoImplicit false

/-!
# `HttpHeaderMap`

The log keeps every call with its answer.
-/
namespace MyWorkflow.Http
open List CString MultiMap Runs

inductive MapCall where
  | keyExists (key : Bytes)
  | get (key : Bytes)
  | getInto (key : Bytes)
  | getStrict (key : Bytes)
  | getStrictInto (key : Bytes)
deriving DecidableEq, Repr

/-- `none` is the answer `false` of an overload that leaves its result alone then. -/
inductive MapAnswer where
  | found (found : Bool)
  | value (value : Bytes)
  | valueInto (value : Option Bytes)
  | values (values : List Bytes)
  | valuesInto (values : Option (List Bytes))
deriving DecidableEq, Repr

structure HttpHeaderMap where
  headerMap : AList fun _ : Bytes => List Bytes
  log : List (MapCall × MapAnswer)

namespace HttpHeaderMap

def make (lines : List HeaderLine) : HttpHeaderMap where
  headerMap := lines.foldl (fun m line => push m (lower line.name) line.value) ∅
  log := []

/-- `none` where `it == header_map_.end() || it->second.empty()`. -/
def filled (m : HttpHeaderMap) (key : Bytes) : Option (List Bytes) :=
  match m.headerMap.lookup (lower key) with
  | none => none
  | some [] => none
  | some (value :: values) => some (value :: values)

def answer (m : HttpHeaderMap) : MapCall → MapAnswer
  | .keyExists key => .found (m.headerMap.lookup (lower key)).isSome
  | .get key => .value (((m.filled key).bind List.head?).getD [])
  | .getInto key => .valueInto ((m.filled key).bind List.head?)
  | .getStrict key => .values ((m.headerMap.lookup (lower key)).getD [])
  | .getStrictInto key => .valuesInto (m.filled key)

/-- The map behind a call: `operator[]` makes an entry where there is none. -/
def touched (m : HttpHeaderMap) : MapCall → AList fun _ : Bytes => List Bytes
  | .getStrict key =>
    if lower key ∈ m.headerMap then m.headerMap else m.headerMap.insert (lower key) []
  | _ => m.headerMap

def step (m : HttpHeaderMap) (call : MapCall) : Option HttpHeaderMap :=
  some ⟨m.touched call, m.log ++ [(call, m.answer call)]⟩

end HttpHeaderMap

def findHeader (lines : List HeaderLine) (name : Bytes) : Option Bytes :=
  match findFrom (HeaderLine.same name) 0 lines with
  | (k, true) => lines[k - 1]?.map HeaderLine.value
  | (_, false) => none

def valuesNamed (lines : List HeaderLine) (name : Bytes) : List Bytes :=
  (lines.filter fun line => lower line.name = lower name).map HeaderLine.value

def messageAnswer (lines : List HeaderLine) : MapCall → MapAnswer
  | .keyExists key => .found (findHeader lines key).isSome
  | .get key => .value ((findHeader lines key).getD [])
  | .getInto key => .valueInto (findHeader lines key)
  | .getStrict key => .values (valuesNamed lines key)
  | .getStrictInto key =>
    .valuesInto (if valuesNamed lines key = [] then none else some (valuesNamed lines key))

theorem findFrom_find? {α : Type} (same : α → Bool) (before lines : List α) :
    (match findFrom same before.length lines with
      | (k, true) => (before ++ lines)[k - 1]?
      | (_, false) => none) = lines.find? same := by
  induction lines generalizing before with
  | nil => rfl
  | cons line lines ih =>
    rw [findFrom, List.find?_cons]
    cases hline : same line with
    | true => simp
    | false =>
      have hnext := ih (before ++ [line])
      rw [length_append, append_assoc] at hnext
      exact hnext

theorem findHeader_eq {lines : List HeaderLine} (h0 : ∀ line ∈ lines, 0 ∉ line.name)
    (name : Bytes) : findHeader lines name = (valuesNamed lines name).head? := by
  have hsame : lines.filter (HeaderLine.same name) =
      lines.filter fun line => lower line.name = lower name := by
    refine filter_congr (fun line hline => ?_)
    rw [Bool.eq_iff_iff, HeaderLine.same_iff line (.inl (h0 line hline)), decide_eq_true_eq]
  have hfind := findFrom_find? (HeaderLine.same name) [] lines
  rw [← List.head?_filter, hsame] at hfind
  rw [valuesNamed, List.head?_map, ← hfind, findHeader]
  change _ = Option.map _ (match findFrom (HeaderLine.same name) 0 lines with
    | (k, true) => lines[k - 1]?
    | (_, false) => none)
  split <;> rfl

def StrictlyAsked (m : HttpHeaderMap) (name : Bytes) : Prop :=
  ∃ key answer, (.getStrict key, answer) ∈ m.log ∧ lower key = name

/-- Beside the headers of the message there are the empty entries that `get_strict` left. -/
def EntriesOf (lines : List HeaderLine) (m : HttpHeaderMap) : Prop :=
  ∀ name, (valuesNamed lines name ≠ [] →
      m.headerMap.lookup (lower name) = some (valuesNamed lines name)) ∧
    (valuesNamed lines name = [] →
      (m.headerMap.lookup (lower name) = some [] ∧ StrictlyAsked m (lower name)) ∨
      (m.headerMap.lookup (lower name) = none ∧ ¬StrictlyAsked m (lower name)))

theorem valuesOf_lines (lines : List HeaderLine) (name : Bytes) :
    valuesOf (lower name) (lines.map fun line => (lower line.name, line.value)) =
      valuesNamed lines name := by
  simp only [valuesOf, valuesNamed, filter_map, map_map]
  rfl

theorem foldl_push_collects {m : AList fun _ : Bytes => List Bytes} {pairs : List (Bytes × Bytes)}
    (h : Collects m pairs) (lines : List HeaderLine) :
    Collects (lines.foldl (fun m line => push m (lower line.name) line.value) m)
      (pairs ++ lines.map fun line => (lower line.name, line.value)) := by
  induction lines generalizing m pairs with
  | nil => simpa using h
  | cons line lines ih =>
    rw [foldl_cons, map_cons, append_cons]
    exact ih (h.push _ _)

theorem entriesOf_make (lines : List HeaderLine) : EntriesOf lines (.make lines) := by
  have hcollects := foldl_push_collects .empty lines
  have hempty : ∀ name, ¬StrictlyAsked (.make lines) name := by
    rintro name ⟨key, answer, hmem, -⟩
    cases hmem
  intro name
  have hlookup := hcollects (lower name)
  rw [nil_append, valuesOf_lines] at hlookup
  refine ⟨fun hne => ?_, fun hnil => .inr ⟨?_, hempty _⟩⟩
  · rw [if_neg hne] at hlookup
    exact hlookup
  · rw [if_pos hnil] at hlookup
    exact hlookup

theorem strictlyAsked_step {m m' : HttpHeaderMap} {call : MapCall} (h : m.step call = some m')
    (name : Bytes) : StrictlyAsked m' name ↔
      StrictlyAsked m name ∨ ∃ key, call = .getStrict key ∧ lower key = name := by
  cases h
  constructor
  · rintro ⟨key, answer, hmem, hkey⟩
    rcases mem_append.mp hmem with hmem | hmem
    · exact .inl ⟨key, answer, hmem, hkey⟩
    · cases mem_singleton.mp hmem
      exact .inr ⟨key, rfl, hkey⟩
  · rintro (⟨key, answer, hmem, hkey⟩ | ⟨key, rfl, hkey⟩)
    · exact ⟨key, answer, mem_append_left _ hmem, hkey⟩
    · exact ⟨key, _, mem_append_right _ mem_cons_self, hkey⟩

theorem lookup_touched (m : HttpHeaderMap) (call : MapCall) (name : Bytes) :
    (m.touched call).lookup name = m.headerMap.lookup name ∨
      (m.headerMap.lookup name = none ∧ (m.touched call).lookup name = some [] ∧
        ∃ key, call = .getStrict key ∧ lower key = name) := by
  cases call with
  | getStrict key =>
    rw [HttpHeaderMap.touched]
    split_ifs with hmem
    · exact .inl rfl
    · by_cases hkey : lower key = name
      · subst hkey
        exact .inr ⟨AList.lookup_eq_none.mpr hmem, AList.lookup_insert _, key, rfl, rfl⟩
      · exact .inl (AList.lookup_insert_ne (Ne.symm hkey))
  | keyExists | get | getInto | getStrictInto => exact .inl rfl

theorem lookup_touched_isSome (m : HttpHeaderMap) (key : Bytes) :
    (m.touched (.getStrict key)).lookup (lower key) ≠ none := by
  rw [HttpHeaderMap.touched]
  split_ifs with hmem
  · rw [Ne, AList.lookup_eq_none, not_not]
    exact hmem
  · rw [AList.lookup_insert]
    simp

theorem EntriesOf.step {lines : List HeaderLine} {m m' : HttpHeaderMap} {call : MapCall}
    (h : EntriesOf lines m) (hstep : m.step call = some m') : EntriesOf lines m' := by
  have hasked := strictlyAsked_step hstep
  cases hstep
  intro name
  obtain ⟨hfull, hempty⟩ := h name
  rcases lookup_touched m call (lower name) with hsame | ⟨hnone, hnew, key, rfl, hkey⟩
  · refine ⟨fun hne => hsame.trans (hfull hne), fun hnil => ?_⟩
    rcases hempty hnil with ⟨hentry, hold⟩ | ⟨hnone, hnot⟩
    · exact .inl ⟨hsame.trans hentry, (hasked _).mpr (.inl hold)⟩
    · refine .inr ⟨hsame.trans hnone, fun hnew => ?_⟩
      rcases (hasked _).mp hnew with hold | ⟨key, rfl, hkey⟩
      · exact hnot hold
      · refine lookup_touched_isSome m key ?_
        rw [hkey, hsame, hnone]
  · refine ⟨fun hne => ?_, fun _ => .inl ⟨hnew, (hasked _).mpr (.inr ⟨key, rfl, hkey⟩)⟩⟩
    rw [hfull hne] at hnone
    cases hnone

/-- `key_exists` is not asked for a name without a header that `get_strict` was asked for. -/
def Unspoiled (lines : List HeaderLine) (m : HttpHeaderMap) : MapCall → Prop
  | .keyExists key => valuesNamed lines key ≠ [] ∨ ¬StrictlyAsked m (lower key)
  | _ => True

theorem EntriesOf.filled {lines : List HeaderLine} {m : HttpHeaderMap} (h : EntriesOf lines m)
    (key : Bytes) : m.filled key =
      if valuesNamed lines key = [] then none else some (valuesNamed lines key) := by
  obtain ⟨hfull, hempty⟩ := h key
  unfold HttpHeaderMap.filled
  cases hvalues : valuesNamed lines key with
  | nil =>
    rcases hempty hvalues with ⟨hentry, -⟩ | ⟨hnone, -⟩
    · simp [hentry]
    · simp [hnone]
  | cons value values =>
    have hentry := hfull (by simp [hvalues])
    rw [hvalues] at hentry
    simp [hentry]

theorem EntriesOf.answer_iff {lines : List HeaderLine} {m : HttpHeaderMap} (h : EntriesOf lines m)
    (h0 : ∀ line ∈ lines, 0 ∉ line.name) (call : MapCall) :
    m.answer call = messageAnswer lines call ↔ Unspoiled lines m call := by
  have hfirst : ∀ key, (m.filled key).bind List.head? = findHeader lines key := by
    intro key
    rw [h.filled key, findHeader_eq h0]
    cases valuesNamed lines key <;> simp
  cases call with
  | keyExists key =>
    obtain ⟨hfull, hempty⟩ := h key
    simp only [HttpHeaderMap.answer, messageAnswer, findHeader_eq h0, MapAnswer.found.injEq,
      Unspoiled]
    by_cases hnil : valuesNamed lines key = []
    · rcases hempty hnil with ⟨hentry, hasked⟩ | ⟨hnone, hnot⟩
      · simp [hnil, hentry, hasked]
      · simp [hnil, hnone, hnot]
    · cases hvalues : valuesNamed lines key with
      | nil => exact absurd hvalues hnil
      | cons value values => simp [hfull hnil, hvalues]
  | get | getInto => simp [HttpHeaderMap.answer, messageAnswer, hfirst, Unspoiled]
  | getStrict key =>
    obtain ⟨hfull, hempty⟩ := h key
    simp only [HttpHeaderMap.answer, messageAnswer, MapAnswer.values.injEq, Unspoiled, iff_true]
    by_cases hnil : valuesNamed lines key = []
    · rcases hempty hnil with ⟨hentry, -⟩ | ⟨hnone, -⟩
      · rw [hentry, hnil]
        rfl
      · rw [hnone, hnil]
        rfl
    · rw [hfull hnil]
      rfl
  | getStrictInto key => simp [HttpHeaderMap.answer, messageAnswer, h.filled key, Unspoiled]

theorem entriesOf_of_reaches {lines : List HeaderLine}
    {allowed : HttpHeaderMap → MapCall → Prop} {m : HttpHeaderMap}
    (h : Reaches HttpHeaderMap.step allowed (.make lines) m) : EntriesOf lines m :=
  h.invariant (entriesOf_make lines) (fun _ _ _ hentries _ hstep => hentries.step hstep)

/-- The map answers like the message unless `key_exists` is asked for a name that `get_strict` has
    spoiled. -/
theorem header_map_answers_iff {lines : List HeaderLine} (h0 : ∀ line ∈ lines, 0 ∉ line.name) :
    (∀ m, Reaches HttpHeaderMap.step (Unspoiled lines) (.make lines) m →
      ∀ entry ∈ m.log, entry.2 = messageAnswer lines entry.1) ∧
    ∀ m call, Reachable HttpHeaderMap.step (.make lines) m →
      (m.answer call = messageAnswer lines call ↔ Unspoiled lines m call) := by
  refine ⟨fun m hm => ?_, fun m call hm => (entriesOf_of_reaches hm).answer_iff h0 call⟩
  have hinv : EntriesOf lines m ∧ ∀ entry ∈ m.log, entry.2 = messageAnswer lines entry.1 := by
    have hstart : EntriesOf lines (.make lines) ∧ ∀ entry ∈ (HttpHeaderMap.make lines).log,
        entry.2 = messageAnswer lines entry.1 :=
      ⟨entriesOf_make lines, fun entry hentry => by cases hentry⟩
    refine hm.invariant (P := fun m => EntriesOf lines m ∧ ∀ entry ∈ m.log,
      entry.2 = messageAnswer lines entry.1) hstart ?_
    rintro m call m' ⟨hentries, hlog⟩ hallowed hstep
    refine ⟨hentries.step hstep, ?_⟩
    cases hstep
    intro entry hentry
    rcases mem_append.mp hentry with hentry | hentry
    · exact hlog entry hentry
    · cases mem_singleton.mp hentry
      exact (hentries.answer_iff h0 call).mpr hallowed
  exact hinv.2

def twoHosts : List HeaderLine :=
  [.make (bytes "Host") (bytes "a"), .make (bytes "HOST") (bytes "b")]

theorem twoHosts_answers : (∀ line ∈ twoHosts, 0 ∉ line.name) ∧
    (HttpHeaderMap.make twoHosts).answer (.getStrict (bytes "host")) =
      messageAnswer twoHosts (.getStrict (bytes "host")) ∧
    messageAnswer twoHosts (.getStrict (bytes "host")) = .values [bytes "a", bytes "b"] :=
  ⟨by decide, ((header_map_answers_iff (by decide)).2 _ _ .start).mpr trivial, by decide⟩

theorem getStrict_spoils_keyExists :
    ∃ m, run HttpHeaderMap.step (.make []) [.getStrict (bytes "Via"), .keyExists (bytes "Via")] =
        some m ∧
      m.log = [(.getStrict (bytes "Via"), .values []), (.keyExists (bytes "Via"), .found true)] ∧
      findHeader [] (bytes "Via") = none :=
  ⟨_, rfl, by decide +kernel, rfl⟩

end MyWorkflow.Http
