import Mathlib.Data.List.Basic
import Mathlib.Tactic.Common

set_option autoImplicit false

/-!
# Reading messages

`__poller_handle_read` and `__poller_append_message` over any kind of message. `malloc` does not
fail. A node remembers, beyond the source, how many bytes its messages took and which were
reported.
-/
namespace MyWorkflow.PollerRead
open List

inductive Ret (ε : Type) where
  | again
  | done
  | error (errno : ε)
deriving DecidableEq, Repr

/-- What `read` returns; no bytes are the end of the stream. -/
inductive ReadResult (ε : Type) where
  | data (buf : List UInt8)
  | eagain
  | error (errno : ε)

structure ReadNode (μ : Type) where
  message : Option μ
  consumed : ℕ
  delivered : List (ℕ × μ)

def ReadNode.start {μ : Type} : ReadNode μ := ⟨none, 0, []⟩

variable {μ ε : Type} (create : ℕ → Except ε μ) (append : List UInt8 → μ → Ret ε × ℕ × μ)

def current (node : ReadNode μ) : Except ε μ :=
  match node.message with
  | some msg => .ok msg
  | none => create node.delivered.length

def appendMessage (buf : List UInt8) (node : ReadNode μ) : Ret ε × ℕ × ReadNode μ :=
  match current create node with
  | .error e => (.error e, buf.length, node)
  | .ok msg =>
    match append buf msg with
    | (.done, n, msg) =>
      (.done, n, ⟨none, node.consumed + n, node.delivered ++ [(node.consumed + n, msg)]⟩)
    | (.again, n, msg) => (.again, n, ⟨some msg, node.consumed + n, node.delivered⟩)
    | (.error e, n, msg) => (.error e, n, { node with message := some msg })

def drain : ℕ → List UInt8 → ReadNode μ → Option (Except ε Unit × ReadNode μ)
  | 0, _, _ => none
  | rounds + 1, buf, node =>
    match appendMessage create append buf node with
    | (.error e, _, node) => some (.error e, node)
    | (_, n, node) =>
      if n < buf.length then drain rounds (buf.drop n) node else some (.ok (), node)

/-- The results of `read`, one after the other, and the state the node ends in, if it does. Rounds
    that each take a byte are no more than there are bytes. -/
def handleRead : List (ReadResult ε) → ReadNode μ → Option (Option (Except ε Unit) × ReadNode μ)
  | [], node => some (none, node)
  | .eagain :: reads, node => handleRead reads node
  | .error e :: _, node => some (some (.error e), node)
  | .data buf :: reads, node =>
    if buf = [] then some (some (.ok ()), node)
    else
      match drain create append buf.length buf node with
      | none => none
      | some (.error e, node) => some (some (.error e), node)
      | some (.ok _, node) => handleRead reads node

def received : List (ReadResult ε) → List UInt8
  | [] => []
  | .data buf :: reads => buf ++ received reads
  | _ :: reads => received reads

def Open : List (ReadResult ε) → Prop
  | [] => True
  | .data buf :: reads => buf ≠ [] ∧ Open reads
  | .eagain :: reads => Open reads
  | .error _ :: _ => False

variable {create append}

theorem appendMessage_delivered {buf : List UInt8} {node node' : ReadNode μ} {ret : Ret ε} {n : ℕ}
    (h : appendMessage create append buf node = (ret, n, node')) :
    node.delivered <+: node'.delivered := by
  unfold appendMessage at h
  split at h
  · cases h
    exact prefix_rfl
  · split at h
    · cases h
      exact prefix_append _ _
    · cases h
      exact prefix_rfl
    · cases h
      exact prefix_rfl

theorem drain_delivered {rounds : ℕ} {buf : List UInt8} {node node' : ReadNode μ}
    {r : Except ε Unit} (h : drain create append rounds buf node = some (r, node')) :
    node.delivered <+: node'.delivered := by
  induction rounds generalizing buf node with
  | zero => cases h
  | succ rounds ih =>
    rcases hcall : appendMessage create append buf node with ⟨ret, n, node₁⟩
    have hone := appendMessage_delivered hcall
    simp only [drain, hcall] at h
    cases ret with
    | error e =>
      cases h
      exact hone
    | again =>
      dsimp only at h
      split_ifs at h
      · exact hone.trans (ih h)
      · cases h
        exact hone
    | done =>
      dsimp only at h
      split_ifs at h
      · exact hone.trans (ih h)
      · cases h
        exact hone

theorem handleRead_delivered {reads : List (ReadResult ε)} {node node' : ReadNode μ}
    {r : Option (Except ε Unit)} (h : handleRead create append reads node = some (r, node')) :
    node.delivered <+: node'.delivered := by
  induction reads generalizing node with
  | nil =>
    cases h
    exact prefix_rfl
  | cons read reads ih =>
    cases read with
    | eagain => exact ih h
    | error e =>
      cases h
      exact prefix_rfl
    | data buf =>
      simp only [handleRead] at h
      split_ifs at h
      · cases h
        exact prefix_rfl
      · split at h
        · cases h
        next hdrain =>
          cases h
          exact drain_delivered hdrain
        next hdrain => exact (drain_delivered hdrain).trans (ih h)

/-- Messages that take at least one of the bytes they get; `I` is kept as long as they want more. -/
structure Progress (create : ℕ → Except ε μ) (append : List UInt8 → μ → Ret ε × ℕ × μ)
    (I : μ → Prop) : Prop where
  create : ∀ k msg, create k = .ok msg → I msg
  takes : ∀ buf msg ret n msg', I msg → buf ≠ [] → append buf msg = (ret, n, msg') →
    (∃ e, ret = .error e) ∨ 0 < n
  again : ∀ buf msg n msg', I msg → append buf msg = (.again, n, msg') → I msg'

variable {I : μ → Prop}

def Fed (I : μ → Prop) (node : ReadNode μ) : Prop := ∀ msg, node.message = some msg → I msg

theorem Fed.current {node : ReadNode μ} {msg : μ} (hI : Progress create append I)
    (hnode : Fed I node) (h : current create node = .ok msg) : I msg := by
  unfold PollerRead.current at h
  split at h
  next msg' hmsg =>
    cases h
    exact hnode msg hmsg
  · exact hI.create _ _ h

theorem Fed.appended {buf : List UInt8} {node node' : ReadNode μ} {ret : Ret ε} {n : ℕ}
    (hI : Progress create append I) (hnode : Fed I node) (hbuf : buf ≠ [])
    (h : appendMessage create append buf node = (ret, n, node')) :
    (∃ e, ret = .error e) ∨ 0 < n ∧ Fed I node' := by
  unfold appendMessage at h
  split at h
  next e _ =>
    cases h
    exact .inl ⟨e, rfl⟩
  next msg hcurrent =>
    have hmsg := hnode.current hI hcurrent
    split at h
    next m msg' happend =>
      cases h
      refine .inr ⟨?_, (by rintro _ ⟨⟩)⟩
      obtain ⟨e, he⟩ | hn := hI.takes _ _ _ _ _ hmsg hbuf happend
      · cases he
      · exact hn
    next m msg' happend =>
      cases h
      refine .inr ⟨?_, fun msg₁ heq => ?_⟩
      · obtain ⟨e, he⟩ | hn := hI.takes _ _ _ _ _ hmsg hbuf happend
        · cases he
        · exact hn
      · cases heq
        exact hI.again _ _ _ _ hmsg happend
    next e _ _ _ =>
      cases h
      exact .inl ⟨e, rfl⟩

theorem Fed.drain {rounds : ℕ} {buf : List UInt8} {node : ReadNode μ}
    (hI : Progress create append I) (hnode : Fed I node) (hbuf : buf ≠ [])
    (hrounds : buf.length ≤ rounds) :
    ∃ r node', drain create append rounds buf node = some (r, node') ∧
      (r = .ok () → Fed I node') := by
  induction rounds generalizing buf node with
  | zero =>
    have hpos := length_pos_iff.mpr hbuf
    omega
  | succ rounds ih =>
    rcases hcall : appendMessage create append buf node with ⟨ret, n, node₁⟩
    have hnext : (∃ e, ret = .error e) ∨ 0 < n ∧ Fed I node₁ := hnode.appended hI hbuf hcall
    cases ret with
    | error e => exact ⟨.error e, node₁, by simp only [PollerRead.drain, hcall], (by simp)⟩
    | again | done =>
      obtain ⟨e, he⟩ | ⟨hn, hfed⟩ := hnext
      · cases he
      · by_cases hlt : n < buf.length
        · have hrest : buf.drop n ≠ [] := by
            rw [ne_eq, drop_eq_nil_iff]
            omega
          obtain ⟨r, node', hdrain, hr⟩ := ih hfed hrest (by rw [length_drop]; omega)
          refine ⟨r, node', ?_, hr⟩
          simp only [PollerRead.drain, hcall]
          rw [if_pos hlt]
          exact hdrain
        · refine ⟨.ok (), node₁, ?_, fun _ => hfed⟩
          simp only [PollerRead.drain, hcall]
          rw [if_neg hlt]

theorem Fed.handleRead {reads : List (ReadResult ε)} {node : ReadNode μ}
    (hI : Progress create append I) (hnode : Fed I node) :
    ∃ r node', handleRead create append reads node = some (r, node') := by
  induction reads generalizing node with
  | nil => exact ⟨none, node, rfl⟩
  | cons read reads ih =>
    cases read with
    | eagain => exact ih hnode
    | error e => exact ⟨some (.error e), node, rfl⟩
    | data buf =>
      by_cases hbuf : buf = []
      · exact ⟨some (.ok ()), node, by rw [PollerRead.handleRead, if_pos hbuf]⟩
      · obtain ⟨r, node', hdrain, hfed⟩ := hnode.drain hI hbuf (Nat.le_refl _)
        cases r with
        | error e =>
          refine ⟨some (.error e), node', ?_⟩
          rw [PollerRead.handleRead, if_neg hbuf, hdrain]
        | ok u =>
          obtain ⟨r', node'', hrest⟩ := ih (hfed rfl)
          refine ⟨r', node'', ?_⟩
          rw [PollerRead.handleRead, if_neg hbuf, hdrain]
          exact hrest

end MyWorkflow.PollerRead
