import MyWorkflow.HttpParserResume

set_option autoImplicit false

/-!
# Folded header values

`unfolded` is what a folded value means: its lines without the blanks at their ends, joined by one
space, blank lines left out.
-/
namespace MyWorkflow.Http
open List CString Incremental

def trim (line : Bytes) : Bytes := (line.dropWhile isBlank).rdropWhile isBlank

def inked (lines : List Bytes) : List Bytes := (lines.map trim).filter (· ≠ [])

def unfolded (lines : List Bytes) : Bytes := List.intercalate [SP] (inked lines)

def rawText (lines : List Bytes) : Bytes := (lines.map (· ++ [CR, LF])).flatten

/-- The message has a field value at `ptr`: a first line, lines that start with a blank, and a
    byte behind them that is none. -/
structure RawField (ptr : Bytes) (first : Bytes) (conts : List Bytes) (rest : Bytes) : Prop where
  text : ptr = rawText (first :: conts) ++ rest
  lines : ∀ line ∈ first :: conts, CR ∉ line
  folds : ∀ line ∈ conts, ∃ c t, line = c :: t ∧ isBlank c = true
  ends : ∃ c t, rest = c :: t ∧ isBlank c = false

/-! ## Trimming at the right end -/

theorem rdropWhile_append (a b : Bytes) : (a ++ b).rdropWhile isBlank =
    if b.rdropWhile isBlank = [] then a.rdropWhile isBlank else a ++ b.rdropWhile isBlank := by
  simp only [List.rdropWhile, reverse_append, dropWhile_append, List.isEmpty_iff,
    reverse_eq_nil_iff]
  split
  · rfl
  · rw [reverse_append, reverse_reverse]

def Clean (text : Bytes) : Prop := text.rdropWhile isBlank = text

theorem clean_rdropWhile (text : Bytes) : Clean (text.rdropWhile isBlank) :=
  rdropWhile_idempotent isBlank text

def glue (text line : Bytes) : Bytes := (text ++ SP :: line.dropWhile isBlank).rdropWhile isBlank

theorem trim_clean (line : Bytes) : Clean (trim line) := clean_rdropWhile _

theorem joined_line (line : Bytes) : (SP :: line.dropWhile isBlank).rdropWhile isBlank =
    if trim line = [] then [] else SP :: trim line :=
  rdropWhile_append [SP] (line.dropWhile isBlank)

theorem glue_blank {text line : Bytes} (ht : Clean text) (hl : trim line = []) :
    glue text line = text := by
  rw [glue, rdropWhile_append, joined_line, if_pos hl, if_pos rfl, ht]

theorem glue_inked {text line : Bytes} (hl : trim line ≠ []) :
    glue text line = text ++ SP :: trim line := by
  rw [glue, rdropWhile_append, joined_line, if_neg hl, if_neg (cons_ne_nil _ _)]

theorem glue_clean (text line : Bytes) : Clean (glue text line) := clean_rdropWhile _

theorem foldl_glue (text : Bytes) (conts : List Bytes) (ht : Clean text) :
    conts.foldl glue text = text ++ ((inked conts).map (SP :: ·)).flatten := by
  induction conts generalizing text with
  | nil => simp [inked]
  | cons line conts ih =>
    rw [foldl_cons, ih _ (glue_clean text line)]
    by_cases hl : trim line = []
    · rw [glue_blank ht hl]
      simp [inked, hl]
    · rw [glue_inked hl]
      simp [inked, hl]

theorem intercalate_cons (text : Bytes) (lines : List Bytes) :
    List.intercalate [SP] (text :: lines) = text ++ (lines.map (SP :: ·)).flatten := by
  induction lines generalizing text with
  | nil => simp
  | cons line lines ih =>
    have hstep : List.intercalate [SP] (text :: line :: lines) =
        text ++ (SP :: List.intercalate [SP] (line :: lines)) := by
      simp [List.intercalate]
    rw [hstep, ih]
    simp

theorem foldl_glue_inked {first : Bytes} (conts : List Bytes) (hf : trim first ≠ []) :
    conts.foldl glue (trim first) = unfolded (first :: conts) := by
  have hinked : inked (first :: conts) = trim first :: inked conts := by simp [inked, hf]
  rw [foldl_glue _ _ (trim_clean first), unfolded, hinked, intercalate_cons]

theorem foldl_glue_blank {first : Bytes} (conts : List Bytes) (hf : trim first = []) :
    conts.foldl glue (trim first) =
      if inked conts = [] then [] else SP :: unfolded (first :: conts) := by
  have hinked : inked (first :: conts) = inked conts := by simp [inked, hf]
  rw [foldl_glue _ _ (trim_clean first), unfolded, hinked, hf]
  cases hc : inked conts with
  | nil => simp
  | cons line lines => simp [intercalate_cons]

theorem inked_eq_nil_iff (lines : List Bytes) : inked lines = [] ↔ ∀ line ∈ lines, trim line = [] := by
  simp [inked]

theorem foldl_glue_eq_iff (first : Bytes) (conts : List Bytes) :
    conts.foldl glue (trim first) = unfolded (first :: conts) ↔
      (trim first ≠ [] ∨ ∀ line ∈ conts, trim line = []) := by
  rw [← inked_eq_nil_iff]
  by_cases hf : trim first = []
  · have hinked : inked (first :: conts) = inked conts := by simp [inked, hf]
    rw [foldl_glue_blank conts hf]
    by_cases hc : inked conts = []
    · simp [hc, unfolded, hinked]
    · simp [hc, hf]
  · simp [hf, foldl_glue_inked]

/-! ## The loops of `__parse_header_value` -/

section Lines

variable {text line rest v : Bytes} {skipping : Bool} {used n : ℕ}

theorem scanValue_toCR (hl : CR ∉ line)
    (h : scanValue skipping text used (line ++ CR :: rest) = .value v n) :
    scanValue false (text ++ if skipping then line.dropWhile isBlank else line)
      (used + line.length) (CR :: rest) = .value v n := by
  induction line generalizing skipping text used with
  | nil =>
    have hb : ∀ s : Bool, (s && isBlank CR) = false := by decide
    have hcr : scanValue skipping text used (CR :: rest) = scanValue false text used (CR :: rest) := by
      rw [scanValue.eq_def, scanValue.eq_def false]
      simp only [hb]
    simpa [← hcr] using h
  | cons c line ih =>
    rw [mem_cons, not_or] at hl
    have hused : used + (c :: line).length = used + 1 + line.length := by
      rw [length_cons]
      omega
    rw [cons_append] at h
    rw [hused]
    by_cases hb : (skipping && isBlank c) = true
    · rw [scanValue_skip hb] at h
      have hnext := ih hl.2 h
      rw [Bool.and_eq_true] at hb
      simpa [hb.1, hb.2] using hnext
    · rw [Bool.not_eq_true] at hb
      obtain ⟨d, tail, hd⟩ : ∃ d tail, line ++ CR :: rest = d :: tail := by
        cases line with
        | nil => exact ⟨CR, rest, rfl⟩
        | cons d line => exact ⟨d, line ++ CR :: rest, rfl⟩
      have hfull : text.length ≠ headerValueMax := by
        intro hfull
        rw [scanValue_full hb hfull] at h
        cases h
      have hpos : nonPositive c = false := by
        by_contra hpos
        rw [hd, scanValue_reject hb (Ne.symm hl.1) (by simpa using hpos)] at h
        cases h
      rw [hd, scanValue_copy hb hfull (Ne.symm hl.1) hpos, ← hd] at h
      have hnext := ih hl.2 h
      have hcopied : (if skipping then (c :: line).dropWhile isBlank else c :: line) =
          c :: line := by
        cases skipping with
        | true => simp [show isBlank c = false by simpa using hb]
        | false => rfl
      rw [hcopied]
      simpa using hnext

theorem scanValue_field {first : Bytes} {conts : List Bytes} (raw : RawField line first conts rest)
    (h : scanValue true text used line = .value v n) :
    v = conts.foldl glue ((text ++ first.dropWhile isBlank).rdropWhile isBlank) ∧
      n = used + (rawText (first :: conts)).length := by
  obtain ⟨rfl, hlines, hfolds, e, rest, rfl, he⟩ := raw
  induction conts generalizing first text used with
  | nil =>
    have hraw : rawText [first] ++ e :: rest = first ++ CR :: LF :: e :: rest := by simp [rawText]
    rw [hraw] at h
    have hend := scanValue_toCR (hlines first (mem_cons_self ..)) h
    rw [if_pos rfl] at hend
    have hfull : (text ++ first.dropWhile isBlank).length ≠ headerValueMax := by
      intro hfull
      rw [scanValue_full (by decide) hfull] at hend
      cases hend
    rw [scanValue_end hfull he] at hend
    cases hend
    exact ⟨rfl, by simp [rawText]; omega⟩
  | cons cont conts ih =>
    obtain ⟨c, t, rfl, hc⟩ := hfolds cont (mem_cons_self ..)
    have hraw : rawText (first :: (c :: t) :: conts) ++ e :: rest =
        first ++ CR :: LF :: c :: (rawText (t :: conts) ++ e :: rest) := by simp [rawText]
    rw [hraw] at h
    have hfold := scanValue_toCR (hlines first (mem_cons_self ..)) h
    rw [if_pos rfl] at hfold
    have hfull : (text ++ first.dropWhile isBlank).length ≠ headerValueMax := by
      intro hfull
      rw [scanValue_full (by decide) hfull] at hfold
      cases hfold
    rw [scanValue_fold hfull hc] at hfold
    have hlines' : ∀ l ∈ t :: conts, CR ∉ l := by
      intro l hl
      obtain rfl | hl := mem_cons.mp hl
      · exact fun hcr => hlines _ (by simp) (mem_cons_of_mem c hcr)
      · exact hlines l (by simp [hl])
    obtain ⟨hv, hn⟩ := ih hlines' (fun l hl => hfolds l (mem_cons_of_mem _ hl)) hfold
    constructor
    · have hskip : (c :: t).dropWhile isBlank = t.dropWhile isBlank := by simp [hc]
      rw [hv, foldl_cons, glue, hskip]
      simp
    · rw [hn]
      simp [rawText]
      omega

theorem scanValue_raw (h : scanValue skipping text used line = .value v n) :
    ∃ first conts rest, RawField line first conts rest := by
  fun_induction scanValue skipping text used line with
  | case1 => cases h
  | case2 skipping text used c rest hb ih =>
    obtain ⟨first, conts, rest', raw⟩ := ih h
    obtain ⟨rfl, hlines, hfolds, hends⟩ := raw
    have hc : c ≠ CR := by
      rintro rfl
      exact absurd hb (by cases skipping <;> decide)
    refine ⟨c :: first, conts, rest', by simp [rawText], ?_, hfolds, hends⟩
    intro l hl
    obtain rfl | hl := mem_cons.mp hl
    · simp [hc.symm, hlines first]
    · exact hlines l (mem_cons_of_mem _ hl)
  | case3 | case4 | case5 => cases h
  | case6 skipping text used hl e rest he hb ih =>
    obtain ⟨first, conts, rest', raw⟩ := ih h
    obtain ⟨rfl, hlines, hfolds, hends⟩ := raw
    have hcr : CR ≠ e := by
      rintro rfl
      exact absurd he (by decide)
    refine ⟨[], (e :: first) :: conts, rest', by simp [rawText], ?_, ?_, hends⟩
    · intro l hl
      obtain rfl | hl := mem_cons.mp hl
      · simp
      obtain rfl | hl := mem_cons.mp hl
      · simp [hcr, hlines first]
      · exact hlines l (mem_cons_of_mem _ hl)
    · intro l hl
      obtain rfl | hl := mem_cons.mp hl
      · exact ⟨e, first, rfl, he⟩
      · exact hfolds l hl
  | case7 skipping text used hl e rest he hb =>
    exact ⟨[], [], e :: rest, by simp [rawText], by simp, by simp, e, rest, rfl, by simpa using he⟩
  | case8 | case9 | case10 => cases h
  | case11 skipping text used c hb hl hc d rest hp ih =>
    obtain ⟨first, conts, rest', raw⟩ := ih h
    obtain ⟨htext, hlines, hfolds, hends⟩ := raw
    refine ⟨c :: first, conts, rest', by simp [rawText, htext], ?_, hfolds, hends⟩
    intro l hl
    obtain rfl | hl := mem_cons.mp hl
    · simp [Ne.symm hc, hlines first]
    · exact hlines l (mem_cons_of_mem _ hl)

end Lines

/-! ## Stored values -/

theorem trim_head {line : Bytes} {c : UInt8} (h : c ∈ (trim line).head?) : isBlank c = false := by
  have hpre : trim line <+: line.dropWhile isBlank := rdropWhile_prefix isBlank _
  obtain ⟨t, ht⟩ := List.head?_eq_some_iff.mp h
  obtain ⟨u, hu⟩ := hpre
  rw [ht, cons_append] at hu
  have hhead := List.head?_dropWhile_not isBlank line
  rw [← hu] at hhead
  simpa using hhead

theorem trim_last {line : Bytes} {c : UInt8} (h : c ∈ (trim line).getLast?) : isBlank c = false := by
  rw [Option.mem_def, List.getLast?_eq_some_iff] at h
  obtain ⟨t, ht⟩ := h
  have hclean := trim_clean line
  rw [Clean, ht] at hclean
  by_contra hc
  rw [rdropWhile_concat_pos _ _ _ (by simpa using hc)] at hclean
  have hlen := ( rdropWhile_prefix isBlank t).length_le
  rw [hclean, length_append, length_singleton] at hlen
  omega

theorem inked_mem {lines : List Bytes} {text : Bytes} (h : text ∈ inked lines) :
    text ≠ [] ∧ ∃ line, text = trim line := by
  simp only [inked, mem_filter, mem_map, decide_eq_true_eq] at h
  obtain ⟨⟨line, -, rfl⟩, hne⟩ := h
  exact ⟨hne, line, rfl⟩

theorem unfolded_head {lines : List Bytes} {c : UInt8} (h : c ∈ (unfolded lines).head?) :
    isBlank c = false := by
  cases hi : inked lines with
  | nil => simp [unfolded, hi] at h
  | cons text texts =>
    obtain ⟨hne, line, rfl⟩ := inked_mem (hi ▸ mem_cons_self ..)
    rw [unfolded, hi, intercalate_cons, List.head?_append_of_ne_nil _ hne] at h
    exact trim_head h

theorem unfolded_last {lines : List Bytes} {c : UInt8} (h : c ∈ (unfolded lines).getLast?) :
    isBlank c = false := by
  obtain hi | ⟨texts, text, hi⟩ := eq_nil_or_concat (inked lines)
  · simp [unfolded, hi] at h
  · obtain ⟨hne, line, rfl⟩ := inked_mem (show text ∈ inked lines by simp [hi])
    cases texts with
    | nil =>
      rw [unfolded, hi] at h
      exact trim_last (by simpa using h)
    | cons text' texts =>
      rw [unfolded, hi, concat_eq_append, cons_append, intercalate_cons] at h
      have hsplit : text' ++ ((texts ++ [trim line]).map (SP :: ·)).flatten =
          text' ++ (texts.map (SP :: ·)).flatten ++ [SP] ++ trim line := by simp
      rw [hsplit, List.getLast?_append_of_ne_nil _ hne] at h
      exact trim_last h

structure Unfolds (value : Bytes) (lines : List Bytes) : Prop where
  text : value = unfolded lines
  front : ∀ c ∈ value.head?, isBlank c = false
  back : ∀ c ∈ value.getLast?, isBlank c = false

theorem unfolds_iff (value : Bytes) (lines : List Bytes) :
    Unfolds value lines ↔ value = unfolded lines := by
  constructor
  · exact Unfolds.text
  · rintro rfl
    exact ⟨rfl, fun _ => unfolded_head, fun _ => unfolded_last⟩

/-- A stored value unfolds its lines exactly if the first is not blank or all the others are. -/
theorem headerValue_unfolds_iff {ptr : Bytes} {p p' : ParseState}
    (h : parseHeaderValue ptr p = (.done, p')) :
    (∃ first conts rest, RawField ptr first conts rest) ∧
      ∀ first conts rest, RawField ptr first conts rest →
        ∃ line, p'.headerList = p.headerList ++ [line] ∧ line.name = p.namebuf ∧
          p'.headerOffset = p.headerOffset + (rawText (first :: conts)).length ∧
          (Unfolds line.value (first :: conts) ↔
            (trim first ≠ [] ∨ ∀ cont ∈ conts, trim cont = [])) := by
  unfold parseHeaderValue at h
  split at h
  · cases h
  · cases h
  · next value used hscan =>
    cases h
    refine ⟨scanValue_raw hscan, ?_⟩
    intro first conts rest raw
    obtain ⟨hvalue, hused⟩ := scanValue_field raw hscan
    refine ⟨HeaderLine.make p.namebuf value, ?_, HeaderLine.make_name .., ?_, ?_⟩
    · rw [httpParserAddHeader]
      exact checkMessageHeader_list ..
    · rw [hused, Nat.zero_add]
    · rw [HeaderLine.make_value, unfolds_iff, hvalue, nil_append]
      exact foldl_glue_eq_iff first conts

def atValue (name : Bytes) : ParseState :=
  { (httpParserInit false).toParseState with headerState := .headerValue, namebuf := name }

def foldedLines : List Bytes := [bytes "\t charset=utf-8 ", bytes "  "]

def foldedPtr : Bytes := rawText (bytes " text/plain; " :: foldedLines) ++ [CR, LF]

theorem foldedPtr_raw : RawField foldedPtr (bytes " text/plain; ") foldedLines [CR, LF] where
  text := rfl
  lines := by decide +kernel
  folds := by
    intro line hline
    simp only [foldedLines, mem_cons, not_mem_nil, or_false] at hline
    obtain rfl | rfl := hline
    · exact ⟨HT, bytes " charset=utf-8 ", by decide, by decide⟩
    · exact ⟨SP, bytes " ", by decide, by decide⟩
  ends := ⟨CR, [LF], rfl, by decide⟩

theorem eq_of_verdict {r : Verdict × ParseState} (h : r.1 = .done) : r = (.done, r.2) :=
  Prod.ext h rfl

theorem foldedPtr_accepted : parseHeaderValue foldedPtr (atValue (bytes "Content-Type")) =
    (.done, (parseHeaderValue foldedPtr (atValue (bytes "Content-Type"))).2) :=
  eq_of_verdict (by decide +kernel)

theorem foldedPtr_unfolds : ∃ line,
    (parseHeaderValue foldedPtr (atValue (bytes "Content-Type"))).2.headerList = [line] ∧
      Unfolds line.value (bytes " text/plain; " :: foldedLines) := by
  obtain ⟨line, hlist, -, -, hiff⟩ :=
    (headerValue_unfolds_iff foldedPtr_accepted).2 _ _ _ foldedPtr_raw
  exact ⟨line, hlist, hiff.mpr (.inl (by decide +kernel))⟩

/-- A length on a line of its own is stored with a space before it, and so it is not read. -/
theorem blankFirstLine_not_unfolded :
    RawField (bytes "\r\n 5\r\n\r\n") [] [bytes " 5"] [CR, LF] ∧
      (parseHeaderValue (bytes "\r\n 5\r\n\r\n") (atValue (bytes "Content-Length"))).1 = .done ∧
      (parseHeaderValue (bytes "\r\n 5\r\n\r\n")
        (atValue (bytes "Content-Length"))).2.headerList.map HeaderLine.value = [bytes " 5"] ∧
      (parseHeaderValue (bytes "\r\n 5\r\n\r\n")
        (atValue (bytes "Content-Length"))).2.contentLength = 0 ∧
      ¬ Unfolds (bytes " 5") [[], bytes " 5"] := by
  refine ⟨⟨by decide, by decide, ?_, ⟨CR, [LF], rfl, by decide⟩⟩, by decide +kernel,
    by decide +kernel, by decide +kernel, ?_⟩
  · intro line hline
    rw [mem_singleton] at hline
    subst hline
    exact ⟨SP, bytes "5", by decide, by decide⟩
  · rw [unfolds_iff]
    decide +kernel

end MyWorkflow.Http
