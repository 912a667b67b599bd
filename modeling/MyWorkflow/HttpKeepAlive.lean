import MyWorkflow.HttpHeaderStore
import MyWorkflow.StringUtil

set_option autoImplicit false

/-!
# Keep-Alive negotiation

`WFHttpServerTask::handle` notes what the request says about the connection, and `message_out`
computes from it how long the connection is kept. An `int` operation whose result is no `int`, and
`atoi` of a number that is none, are undefined: there is no result then.
-/
namespace MyWorkflow.Http.KeepAlive
open CString StringUtil

abbrev COMMA : UInt8 := 44
abbrev EQUALS : UInt8 := 61

abbrev CInt := { n : ℤ // -2 ^ 31 ≤ n ∧ n < 2 ^ 31 }

def toInt (n : ℤ) : Option CInt := if h : -2 ^ 31 ≤ n ∧ n < 2 ^ 31 then some ⟨n, h⟩ else none

def atoi (s : Bytes) : Option CInt := toInt (atol s)

def strcaseeq (a b : Bytes) : Bool := lower (strdup a) == lower (strdup b)

def keepaliveMax : CInt := ⟨300 * 1000, by decide⟩

structure ServerTask where
  resp : ParseState
  seq : ℤ
  keepAliveTimeo : CInt
  reqIsAlive : Bool
  reqHasKeepAliveHeader : Bool
  reqKeepAlive : Bytes

namespace ServerTask

def handle (req : ParseState) (task : ServerTask) : ServerTask :=
  let task := { task with reqIsAlive := req.keepAlive }
  if req.keepAlive && req.hasKeepAlive then
    match req.headerList.find? (HeaderLine.same (bytes "Keep-Alive")) with
    | some line => { task with reqHasKeepAliveHeader := true, reqKeepAlive := line.value }
    | none => { task with reqHasKeepAliveHeader := false }
  else task

end ServerTask

/-- `arr`: the key and the value of a parameter, "0" where there is none. -/
def paramParts (kv : Bytes) : List Bytes :=
  let arr := split kv EQUALS
  if arr.length < 2 then arr ++ [bytes "0"] else arr

def paramKey (kv : Bytes) : Bytes := strip ((paramParts kv)[0]?.getD [])

def paramVal (kv : Bytes) : Bytes := strip ((paramParts kv)[1]?.getD [])

/-- The loop over the parameters: `timeout` and `max` are the bits of `flag`, and a result in
    front of the end is a `break`. -/
def paramLoop (seq : ℤ) : Bool → Bool → CInt → List Bytes → Option CInt
  | _, _, timeo, [] => some timeo
  | timeout, max, timeo, kv :: params =>
    let key := paramKey kv
    let val := paramVal kv
    if !timeout && strcaseeq key (bytes "timeout") then
      match atoi val with
      | none => none
      | some n =>
        match toInt (1000 * n) with
        | none => none
        | some timeo => if max then some timeo else paramLoop seq true max timeo params
    else if !max && strcaseeq key (bytes "max") then
      match atoi val with
      | none => none
      | some n =>
        if seq ≥ n then some ⟨0, by decide⟩
        else if timeout then some timeo
        else paramLoop seq timeout true timeo params
    else paramLoop seq timeout max timeo params

def clamp (timeo : CInt) : CInt :=
  if timeo.val % 2 ^ 32 > keepaliveMax.val then keepaliveMax else timeo

namespace ServerTask

def isAlive (task : ServerTask) : Bool :=
  if task.resp.hasConnection then task.resp.keepAlive else task.reqIsAlive

def negotiate (task : ServerTask) : Option CInt :=
  if !task.isAlive then some ⟨0, by decide⟩
  else if task.reqHasKeepAliveHeader then
    (paramLoop task.seq false false task.keepAliveTimeo (split task.reqKeepAlive COMMA)).map clamp
  else some (clamp task.keepAliveTimeo)

/-- `message_out` from the question whether the connection is kept on. -/
def messageOut (task : ServerTask) : Option ServerTask :=
  match task.negotiate with
  | none => none
  | some timeo =>
    let task := { task with keepAliveTimeo := timeo }
    if task.resp.hasConnection then some task
    else
      let value := if timeo.val = 0 then bytes "close" else bytes "Keep-Alive"
      some { task with resp := httpParserAddHeader (bytes "Connection") value task.resp }

end ServerTask

def IsTimeout (kv : Bytes) : Bool := strcaseeq (paramKey kv) (bytes "timeout")

def IsMax (kv : Bytes) : Bool := strcaseeq (paramKey kv) (bytes "max")

def number (kv : Bytes) : ℤ := atol (paramVal kv)

theorem isMax_of_isTimeout {kv : Bytes} (h : IsTimeout kv = true) : IsMax kv = false := by
  have hne : lower (strdup (bytes "timeout")) ≠ lower (strdup (bytes "max")) := by decide
  simp only [IsTimeout, IsMax, strcaseeq, beq_iff_eq, beq_eq_false_iff_ne] at h ⊢
  rw [h]
  exact hne

theorem toInt_eq_some {n : ℤ} {k : CInt} : toInt n = some k ↔ n = k.val := by
  unfold toInt
  constructor
  · intro h
    split_ifs at h with hn
    cases h
    rfl
  · rintro rfl
    rw [dif_pos k.2]

theorem toInt_eq_none {n : ℤ} : toInt n = none ↔ ¬(-2 ^ 31 ≤ n ∧ n < 2 ^ 31) := by
  unfold toInt
  split_ifs with hn
  · exact ⟨fun h => absurd h (by simp), fun h => absurd hn h⟩
  · exact ⟨fun _ => hn, fun _ => rfl⟩

theorem scaled_eq (kv : Bytes) :
    ((atoi (paramVal kv)).bind fun n => toInt (1000 * n.val)) = toInt (1000 * number kv) := by
  cases h : atoi (paramVal kv) with
  | some n =>
    rw [atoi, toInt_eq_some] at h
    rw [Option.bind_some, number, h]
  | none =>
    rw [atoi, toInt_eq_none] at h
    rw [Option.bind_none, eq_comm, toInt_eq_none]
    change ¬(-2 ^ 31 ≤ number kv ∧ number kv < 2 ^ 31) at h
    omega

variable {seq : ℤ} {timeo : CInt}

theorem paramLoop_timeout {kv : Bytes} (max : Bool) (params : List Bytes)
    (ht : IsTimeout kv = true) : paramLoop seq false max timeo (kv :: params) =
      (toInt (1000 * number kv)).bind fun timeo =>
        if max then some timeo else paramLoop seq true max timeo params := by
  have hkey : strcaseeq (paramKey kv) (bytes "timeout") = true := ht
  rw [← scaled_eq kv]
  simp only [paramLoop, hkey]
  cases atoi (paramVal kv) with
  | none => rfl
  | some n =>
    simp only [Option.bind_some]
    cases toInt (1000 * n.val) <;> rfl

theorem paramLoop_max {kv : Bytes} (timeout : Bool) (params : List Bytes)
    (hm : IsMax kv = true) : paramLoop seq timeout false timeo (kv :: params) =
      (toInt (number kv)).bind fun n =>
        if n.val ≤ seq then some ⟨0, by decide⟩
        else if timeout then some timeo else paramLoop seq timeout true timeo params := by
  have hkey : strcaseeq (paramKey kv) (bytes "timeout") = false := by
    rw [← Bool.not_eq_true]
    exact fun ht => Bool.false_ne_true ((isMax_of_isTimeout ht).symm.trans hm)
  have hkey' : strcaseeq (paramKey kv) (bytes "max") = true := hm
  simp only [paramLoop, hkey, hkey', Bool.and_false]
  change (match atoi (paramVal kv) with | none => none | some n => _) =
    Option.bind (atoi (paramVal kv)) _
  cases atoi (paramVal kv) with
  | none => rfl
  | some n => simp

theorem paramLoop_maxSeen (params : List Bytes) :
    paramLoop seq false true timeo params =
      match params.find? IsTimeout with
      | none => some timeo
      | some kv => toInt (1000 * number kv) := by
  induction params with
  | nil => rfl
  | cons kv params ih =>
    cases hkv : IsTimeout kv with
    | false =>
      have hkey : strcaseeq (paramKey kv) (bytes "timeout") = false := hkv
      simp only [paramLoop, hkey, List.find?_cons, hkv]
      exact ih
    | true =>
      rw [paramLoop_timeout true params hkv, List.find?_cons, hkv]
      exact Option.bind_fun_some _

theorem paramLoop_timeoutSeen (params : List Bytes) :
    paramLoop seq true false timeo params =
      match params.find? IsMax with
      | none => some timeo
      | some kv => (toInt (number kv)).map fun n => if n.val ≤ seq then ⟨0, by decide⟩ else timeo := by
  induction params with
  | nil => rfl
  | cons kv params ih =>
    cases hkv : IsMax kv with
    | false =>
      have hkey : strcaseeq (paramKey kv) (bytes "max") = false := hkv
      simp only [paramLoop, hkey, List.find?_cons, hkv]
      exact ih
    | true =>
      rw [paramLoop_max true params hkv, List.find?_cons, hkv]
      simp only [Option.map_eq_bind, if_true, ← apply_ite some]
      rfl

def Fits (n : ℤ) : Prop := -2 ^ 31 ≤ n ∧ n < 2 ^ 31

instance (n : ℤ) : Decidable (Fits n) := inferInstanceAs (Decidable (_ ∧ _))

theorem toInt_of_fits {n : ℤ} (h : Fits n) : toInt n = some ⟨n, h⟩ := dif_pos h

theorem toInt_of_not_fits {n : ℤ} (h : ¬Fits n) : toInt n = none := dif_neg h

/-- A `max` that the sequence number has reached stands in front of any `timeout`. -/
def Stops (seq : ℤ) (params : List Bytes) : Prop :=
  ∃ kv, params.find? (fun kv => IsTimeout kv || IsMax kv) = some kv ∧ IsMax kv = true ∧
    number kv ≤ seq

def Readable (seq : ℤ) (params : List Bytes) : Prop :=
  (∀ kv, params.find? IsMax = some kv → Fits (number kv)) ∧
    ∀ kv, params.find? IsTimeout = some kv → Stops seq params ∨ Fits (1000 * number kv)

def asked (timeo : CInt) (params : List Bytes) : ℤ :=
  match params.find? IsTimeout with
  | none => timeo
  | some kv => 1000 * number kv

def requested (seq : ℤ) (timeo : CInt) (params : List Bytes) : ℤ :=
  match params.find? IsMax with
  | none => asked timeo params
  | some kv => if number kv ≤ seq then 0 else asked timeo params

theorem paramLoop_skip {kv : Bytes} (params : List Bytes) (ht : IsTimeout kv = false)
    (hm : IsMax kv = false) :
    paramLoop seq false false timeo (kv :: params) = paramLoop seq false false timeo params := by
  have hkey : strcaseeq (paramKey kv) (bytes "timeout") = false := ht
  have hkey' : strcaseeq (paramKey kv) (bytes "max") = false := hm
  simp [paramLoop, hkey, hkey']

theorem paramLoop_spec (seq : ℤ) (timeo : CInt) (params : List Bytes) :
    (Readable seq params ∧ ∃ r, paramLoop seq false false timeo params = some r ∧
      r.val = requested seq timeo params) ∨
    (¬Readable seq params ∧ paramLoop seq false false timeo params = none) := by
  induction params with
  | nil => exact .inl ⟨⟨by simp, by simp⟩, timeo, rfl, rfl⟩
  | cons kv params ih =>
    cases ht : IsTimeout kv with
    | true =>
      have hm := isMax_of_isTimeout ht
      have hstops : ¬Stops seq (kv :: params) := by
        rintro ⟨m, hfind, hmax, -⟩
        simp only [List.find?_cons, ht, hm, Bool.or_false, Option.some.injEq] at hfind
        rw [← hfind, hm] at hmax
        cases hmax
      have hread : Readable seq (kv :: params) ↔
          (∀ m, params.find? IsMax = some m → Fits (number m)) ∧ Fits (1000 * number kv) := by
        simp only [Readable, List.find?_cons, ht, hm, Option.some.injEq, hstops, false_or]
        simp
      rw [hread, paramLoop_timeout false params ht, requested, asked, List.find?_cons, hm,
        List.find?_cons, ht]
      by_cases hfits : Fits (1000 * number kv)
      · rw [toInt_of_fits hfits, Option.bind_some, if_neg Bool.false_ne_true,
          paramLoop_timeoutSeen]
        cases hmax : params.find? IsMax with
        | none => exact .inl ⟨⟨by simp, hfits⟩, _, rfl, rfl⟩
        | some m =>
          by_cases hn : Fits (number m)
          · refine .inl ⟨⟨by simpa using hn, hfits⟩, ?_⟩
            simp only [toInt_of_fits hn, Option.map_some]
            refine ⟨_, rfl, ?_⟩
            split_ifs <;> rfl
          · refine .inr ⟨fun h => hn (h.1 m rfl), ?_⟩
            simp only [toInt_of_not_fits hn, Option.map_none]
      · exact .inr ⟨fun h => hfits h.2, by rw [toInt_of_not_fits hfits, Option.bind_none]⟩
    | false =>
      cases hm : IsMax kv with
      | true =>
        have hstops : Stops seq (kv :: params) ↔ number kv ≤ seq := by
          simp [Stops, ht, hm]
        have hread : Readable seq (kv :: params) ↔ Fits (number kv) ∧
            ∀ t, params.find? IsTimeout = some t → number kv ≤ seq ∨ Fits (1000 * number t) := by
          simp only [Readable, List.find?_cons, ht, hm, Option.some.injEq, hstops]
          simp
        rw [hread, paramLoop_max false params hm, requested, asked, List.find?_cons, hm,
          List.find?_cons, ht]
        by_cases hfits : Fits (number kv)
        · rw [toInt_of_fits hfits, Option.bind_some]
          by_cases hn : number kv ≤ seq
          · exact .inl ⟨⟨hfits, fun _ _ => .inl hn⟩, by simp [hn]⟩
          · simp only [hn, if_false, false_or, paramLoop_maxSeen]
            cases htime : params.find? IsTimeout with
            | none => exact .inl ⟨⟨hfits, by simp⟩, _, rfl, rfl⟩
            | some t =>
              by_cases ht' : Fits (1000 * number t)
              · exact .inl ⟨⟨hfits, by simpa using ht'⟩, _, toInt_of_fits ht', rfl⟩
              · exact .inr ⟨fun h => ht' (h.2 t rfl), toInt_of_not_fits ht'⟩
        · exact .inr ⟨fun h => hfits h.1, by rw [toInt_of_not_fits hfits, Option.bind_none]⟩
      | false =>
        have hread : Readable seq (kv :: params) ↔ Readable seq params := by
          simp [Readable, Stops, ht, hm]
        have hreq : requested seq timeo (kv :: params) = requested seq timeo params := by
          simp [requested, asked, ht, hm]
        rw [hread, hreq, paramLoop_skip params ht hm]
        exact ih

theorem clamp_range (timeo : CInt) : 0 ≤ (clamp timeo).val ∧ (clamp timeo).val ≤ 300000 := by
  have hmax : keepaliveMax.val = 300000 := rfl
  unfold clamp
  split_ifs with h
  · omega
  · have hint := timeo.2
    omega

theorem clamp_of_nonneg {timeo : CInt} (h : 0 ≤ timeo.val) :
    (clamp timeo).val = min timeo.val 300000 := by
  have hmax : keepaliveMax.val = 300000 := rfl
  have hint := timeo.2
  unfold clamp
  split_ifs <;> omega

def ServerTask.params (task : ServerTask) : List Bytes := split task.reqKeepAlive COMMA

theorem negotiate_alive {task : ServerTask} (halive : task.isAlive = true)
    (hheader : task.reqHasKeepAliveHeader = true) : task.negotiate =
      (paramLoop task.seq false false task.keepAliveTimeo task.params).map clamp := by
  rw [ServerTask.negotiate, halive, hheader]
  rfl

theorem messageOut_timeo (task : ServerTask) :
    task.messageOut.map ServerTask.keepAliveTimeo = task.negotiate := by
  unfold ServerTask.messageOut
  cases task.negotiate with
  | none => rfl
  | some timeo =>
    simp only
    split_ifs <;> rfl

theorem find?_perm {p : Bytes → Bool} {params params' : List Bytes} (h : params'.Perm params)
    (hone : (params.filter p).length ≤ 1) : params'.find? p = params.find? p := by
  have hperm := h.filter p
  rw [← List.head?_filter, ← List.head?_filter]
  rcases hf : params.filter p with _ | ⟨kv, _ | ⟨kv', l⟩⟩
  · rw [hf] at hperm
    rw [hperm.eq_nil]
  · rw [hf] at hperm
    rw [List.perm_singleton.mp hperm]
  · rw [hf] at hone
    simp at hone

theorem requested_perm {seq : ℤ} {timeo : CInt} {params params' : List Bytes}
    (h : params'.Perm params) (htimeout : (params.filter IsTimeout).length ≤ 1)
    (hmax : (params.filter IsMax).length ≤ 1) :
    requested seq timeo params' = requested seq timeo params := by
  rw [requested, requested, asked, asked, find?_perm h htimeout, find?_perm h hmax]

def Negotiated (task : ServerTask) : Prop :=
  ∃ out, task.messageOut = some out ∧ 0 ≤ out.keepAliveTimeo.val ∧
    out.keepAliveTimeo.val ≤ 300000 ∧
    (∀ m, task.params.find? IsMax = some m → number m ≤ task.seq → out.keepAliveTimeo.val = 0) ∧
    ∀ t, (∀ m, task.params.find? IsMax = some m → task.seq < number m) →
      task.params.find? IsTimeout = some t → 0 ≤ number t → number t < 2 ^ 31 →
      out.keepAliveTimeo.val = min (1000 * number t) 300000

theorem requested_of_max {seq : ℤ} {timeo : CInt} {params : List Bytes} {m : Bytes}
    (hm : params.find? IsMax = some m) (hle : number m ≤ seq) : requested seq timeo params = 0 := by
  simp [requested, hm, hle]

theorem requested_of_timeout {seq : ℤ} {timeo : CInt} {params : List Bytes} {t : Bytes}
    (hm : ∀ m, params.find? IsMax = some m → seq < number m)
    (ht : params.find? IsTimeout = some t) : requested seq timeo params = 1000 * number t := by
  cases hmax : params.find? IsMax with
  | none => simp [requested, asked, hmax, ht]
  | some m =>
    have hlt := hm m hmax
    simp [requested, asked, hmax, ht, Int.not_le.mpr hlt]

/-- The negotiated keep-alive time is the one that the client's parameters ask for exactly if they are
    readable, and then their order does not matter. -/
theorem keep_alive_negotiated_iff {task : ServerTask} (halive : task.isAlive = true)
    (hheader : task.reqHasKeepAliveHeader = true) :
    (Negotiated task ↔ Readable task.seq task.params) ∧
    (Readable task.seq task.params → (task.params.filter IsTimeout).length ≤ 1 →
      (task.params.filter IsMax).length ≤ 1 → ∀ text, (split text COMMA).Perm task.params →
      Readable task.seq (split text COMMA) →
      ({ task with reqKeepAlive := text } : ServerTask).negotiate = task.negotiate) := by
  have hout := messageOut_timeo task
  rw [negotiate_alive halive hheader] at hout
  refine ⟨⟨?_, ?_⟩, ?_⟩
  · rintro ⟨out, hsome, -⟩
    rcases paramLoop_spec task.seq task.keepAliveTimeo task.params with ⟨hread, -⟩ | ⟨-, hnone⟩
    · exact hread
    · rw [hsome, hnone] at hout
      cases hout
  · intro hread
    rcases paramLoop_spec task.seq task.keepAliveTimeo task.params with ⟨-, r, hloop, hr⟩ | ⟨hnot, -⟩
    · rw [hloop, Option.map_some, Option.map_eq_some_iff] at hout
      obtain ⟨out, hsome, htimeo⟩ := hout
      obtain ⟨hlow, hhigh⟩ := clamp_range r
      refine ⟨out, hsome, ?_⟩
      rw [htimeo]
      refine ⟨hlow, hhigh, ?_, ?_⟩
      · intro m hm hle
        rw [requested_of_max hm hle] at hr
        rw [clamp_of_nonneg (by omega), hr]
        rfl
      · intro t hm ht hpos _
        rw [requested_of_timeout hm ht] at hr
        rw [clamp_of_nonneg (by omega), hr]
    · exact absurd hread hnot
  · intro hread htimeout hmax text hperm hread'
    have halive' : ({ task with reqKeepAlive := text } : ServerTask).isAlive = true := halive
    have htask : ({ task with reqKeepAlive := text } : ServerTask).negotiate =
        (paramLoop task.seq false false task.keepAliveTimeo (split text COMMA)).map clamp :=
      negotiate_alive halive' hheader
    rw [htask, negotiate_alive halive hheader]
    rcases paramLoop_spec task.seq task.keepAliveTimeo task.params with ⟨-, r, hloop, hr⟩ | ⟨hnot, -⟩
    · rcases paramLoop_spec task.seq task.keepAliveTimeo (split text COMMA) with
        ⟨-, r', hloop', hr'⟩ | ⟨hnot, -⟩
      · have heq : r' = r := by
          apply Subtype.ext
          rw [hr, hr', requested_perm hperm htimeout hmax]
        rw [hloop, hloop', heq]
      · exact absurd hread' hnot
    · exact absurd hread hnot

def requestTask (text : Bytes) (seq : ℤ) : ServerTask where
  resp := (httpParserInit true).toParseState
  seq := seq
  keepAliveTimeo := ⟨60 * 1000, by decide⟩
  reqIsAlive := true
  reqHasKeepAliveHeader := true
  reqKeepAlive := text

theorem fiveSeconds_negotiated : (requestTask (bytes "timeout=5, max=100") 3).negotiate =
      some ⟨5000, by decide⟩ ∧ Negotiated (requestTask (bytes "timeout=5, max=100") 3) := by
  have hmax : (requestTask (bytes "timeout=5, max=100") 3).params.find? IsMax =
      some (bytes " max=100") := by decide +kernel
  have htimeout : (requestTask (bytes "timeout=5, max=100") 3).params.find? IsTimeout =
      some (bytes "timeout=5") := by decide +kernel
  refine ⟨by decide +kernel, (keep_alive_negotiated_iff rfl rfl).1.mpr ⟨?_, ?_⟩⟩
  · intro kv hkv
    rw [hmax] at hkv
    cases hkv
    decide +kernel
  · intro kv hkv
    rw [htimeout] at hkv
    cases hkv
    exact .inr (by decide +kernel)

/-- The product leaves `int`; computed modulo `2 ^ 32` it would be 704 milliseconds. -/
theorem longTimeout_overflows :
    (requestTask (bytes "timeout=4294968") 0).isAlive = true ∧
    (requestTask (bytes "timeout=4294968") 0).params.find? IsTimeout =
      some (bytes "timeout=4294968") ∧
    number (bytes "timeout=4294968") = 4294968 ∧ ¬Fits (1000 * 4294968) ∧
    (requestTask (bytes "timeout=4294968") 0).negotiate = none ∧
    (requestTask (bytes "timeout=4294968") 0).messageOut.isNone = true := by
  refine ⟨rfl, ?_, ?_, ?_, ?_, ?_⟩
  all_goals decide +kernel

end MyWorkflow.Http.KeepAlive
