import MyWorkflow.Chains
import MyWorkflow.Runs

set_option autoImplicit false

/-!
# The message queue

A section under `put_mutex` is one step. So is one under `get_mutex`, but for the one of
`msgqueue_get` that waits in `__msgqueue_swap`, which is cut there. A wait ends in any state in
which its loop would end.
-/
namespace MyWorkflow.MessageQueue
open Function List Chains Runs

abbrev MsgId := ℕ

inductive Head where
  | head1
  | head2
deriving DecidableEq, Repr

inductive GetMutex where
  | free
  | swapping
  | popping
  | putHead (m : MsgId)
deriving DecidableEq, Repr

inductive Event where
  | put (m : MsgId)
  | putHead (m : MsgId)
  | got (m : MsgId)
  | gotNull
  | setNonblock (nonblock : Bool)
deriving DecidableEq, Repr

structure Queue where
  msgMax : UInt64
  msgCnt : ℕ
  nonblock : Bool
  next : Cell Head MsgId → Option MsgId
  getHead : Head
  putHead : Head
  putTail : Cell Head MsgId
  getMutex : GetMutex
  waiting : List MsgId
  live : List MsgId
  log : List Event

def Queue.init (maxlen : UInt64) : Queue where
  msgMax := maxlen
  msgCnt := 0
  nonblock := false
  next := fun _ => none
  getHead := .head1
  putHead := .head2
  putTail := .head .head2
  getMutex := .free
  waiting := []
  live := []
  log := []

namespace Queue

def record (e : Event) (q : Queue) : Queue := { q with log := e :: q.log }

def Full (q : Queue) : Prop := (q.msgMax - 1).toNat < q.msgCnt ∧ q.nonblock = false

instance (q : Queue) : Decidable q.Full := inferInstanceAs (Decidable (_ ∧ _))

def first (q : Queue) : Option MsgId := q.next (.head q.getHead)

def append (m : MsgId) (q : Queue) : Queue :=
  { q with
    next := update (update q.next (.link m) none) q.putTail (some m)
    putTail := .link m
    msgCnt := q.msgCnt + 1 }

def pushGet (m : MsgId) (q : Queue) : Queue :=
  { q with
    next := update (update q.next (.link m) q.first) (.head q.getHead) (some m) }

def pushPut (m : MsgId) (q : Queue) : Queue :=
  let link := q.next (.head q.putHead)
  { q with
    next := update (update q.next (.link m) link) (.head q.putHead) (some m)
    putTail := if link = none then .link m else q.putTail
    msgCnt := q.msgCnt + 1 }

def pop (m : MsgId) (q : Queue) : Queue :=
  { q with
    next := update q.next (.head q.getHead) (q.next (.link m))
    getMutex := .free
    live := q.live.erase m
    log := .got m :: q.log }

def swap (q : Queue) : Queue :=
  { q with
    getHead := q.putHead
    putHead := q.getHead
    putTail := .head q.getHead
    msgCnt := 0 }

end Queue

inductive Action where
  | setNonblock (nonblock : Bool)
  | put (m : MsgId)
  | putHead (m : MsgId)
  | putHeadLocked (m : MsgId)
  | putHeadWoken (m : MsgId)
  | get
  | swap
  | pop
deriving DecidableEq, Repr

def step (q : Queue) : Action → Option Queue
  | .setNonblock nonblock => some ({ q with nonblock := nonblock }.record (.setNonblock nonblock))
  | .put m =>
    if m ∉ q.live ∧ ¬q.Full then
      some ({ q.append m with live := m :: q.live }.record (.put m))
    else none
  | .putHead m =>
    if m ∈ q.live then none
    else
      let q := { q with live := m :: q.live }
      match q.first with
      | some _ => if q.getMutex = .free then some { q with getMutex := .putHead m } else none
      | none =>
        if q.Full then some { q with waiting := m :: q.waiting }
        else some ((q.pushPut m).record (.putHead m))
  | .putHeadLocked m =>
    if q.getMutex = .putHead m then
      some ({ q.pushGet m with getMutex := .free }.record (.putHead m))
    else none
  | .putHeadWoken m =>
    if m ∈ q.waiting ∧ ¬q.Full then
      some ({ q.pushPut m with waiting := q.waiting.erase m }.record (.putHead m))
    else none
  | .get =>
    if q.getMutex = .free then
      match q.first with
      | some m => some (q.pop m)
      | none => some { q with getMutex := .swapping }
    else none
  | .swap =>
    if q.getMutex = .swapping ∧ ¬(q.msgCnt = 0 ∧ q.nonblock = false) then
      if 0 < q.msgCnt then some { q.swap with getMutex := .popping }
      else some ({ q.swap with getMutex := .free }.record .gotNull)
    else none
  | .pop =>
    if q.getMutex = .popping then q.first.map fun m => q.pop m else none

structure Deque where
  msgs : List MsgId
  nonblock : Bool
deriving DecidableEq, Repr

def Deque.step (d : Deque) : Event → Option Deque
  | .put m => some { d with msgs := d.msgs ++ [m] }
  | .putHead m => some { d with msgs := m :: d.msgs }
  | .got m => if d.msgs.head? = some m then some { d with msgs := d.msgs.tail } else none
  | .gotNull => if d.msgs = [] ∧ d.nonblock = true then some d else none
  | .setNonblock nonblock => some { d with nonblock := nonblock }

def replay : List Event → Option Deque
  | [] => some ⟨[], false⟩
  | e :: log => (replay log).bind fun d => d.step e

def Queue.transit (q : Queue) : List MsgId :=
  q.waiting ++ match q.getMutex with
    | .putHead m => [m]
    | _ => []

structure Shape (q : Queue) (g p : List MsgId) : Prop where
  get : Linked q.next (.head q.getHead) g
  put : Linked q.next (.head q.putHead) p
  heads : q.getHead ≠ q.putHead
  live : q.live.Perm (g ++ p ++ q.transit)
  nodup : q.live.Nodup
  cnt : q.msgCnt = p.length
  tail : q.putTail = lastCell (.head q.putHead) p
  swapping : q.getMutex = .swapping → g = []
  popping : q.getMutex = .popping → g ≠ []

variable {q q' : Queue} {g p : List MsgId} {m : MsgId} {a : Action}

theorem Shape.parts (S : Shape q g p) : g.Nodup ∧ p.Nodup ∧ (∀ x ∈ g, x ∉ p) ∧
    ∀ x ∈ q.transit, x ∉ g ∧ x ∉ p := by
  have hn := S.live.nodup_iff.mp S.nodup
  rw [nodup_append, nodup_append] at hn
  obtain ⟨⟨hg, hp, hgp⟩, -, ht⟩ := hn
  refine ⟨hg, hp, fun x hx hxp => hgp x hx x hxp rfl, ?_⟩
  intro x hx
  refine ⟨fun hxg => ?_, fun hxp => ?_⟩
  · exact ht x (mem_append_left _ hxg) x hx rfl
  · exact ht x (mem_append_right _ hxp) x hx rfl

theorem Shape.fresh (S : Shape q g p) (hm : m ∉ q.live) : m ∉ g ∧ m ∉ p ∧ m ∉ q.transit := by
  rw [S.live.mem_iff, mem_append, mem_append] at hm
  tauto

theorem Shape.first (S : Shape q g p) : q.first = g.head? := S.get.next_eq

theorem head_ne_link (r : Head) (l : List MsgId) :
    ∀ x ∈ l, (Cell.head r : Cell Head MsgId) ≠ .link x := by
  intro x _
  simp

theorem link_ne (hm : m ∉ p) : ∀ x ∈ p, (Cell.link m : Cell Head MsgId) ≠ .link x := by
  intro x hx heq
  cases heq
  exact hm hx

theorem Shape.linked_append (S : Shape q g p) (hg : m ∉ g) (hp : m ∉ p) :
    Linked (q.append m).next (.head q.getHead) g ∧
      Linked (q.append m).next (.head q.putHead) (p ++ [m]) := by
  obtain ⟨-, hpn, hgp, -⟩ := S.parts
  constructor
  · refine (S.get.frame (by simp) (link_ne hg) none).frame ?_ ?_ _
    · rw [S.tail]
      rcases lastCell_mem (.head q.putHead) p with heq | ⟨x, -, heq⟩
      · simpa [heq] using S.heads.symm
      · simp [heq]
    · intro y hy
      rw [S.tail]
      rcases lastCell_mem (.head q.putHead) p with heq | ⟨x, hx, heq⟩
      · simp [heq]
      · rw [heq]
        exact link_ne (fun hxg => hgp x hxg hx) y hy
  · rw [Queue.append, S.tail]
    exact S.put.append hp (by simp) hpn (head_ne_link _ _)

theorem Shape.linked_pushPut (S : Shape q g p) (hg : m ∉ g) (hp : m ∉ p) :
    Linked (q.pushPut m).next (.head q.getHead) g ∧
      Linked (q.pushPut m).next (.head q.putHead) (m :: p) := by
  constructor
  · refine (S.get.frame (by simp) (link_ne hg) _).frame ?_ (head_ne_link _ _) _
    simpa using S.heads.symm
  · exact S.put.push hp (by simp) (head_ne_link _ _)

theorem Shape.linked_pushGet (S : Shape q g p) (hg : m ∉ g) (hp : m ∉ p) :
    Linked (q.pushGet m).next (.head q.getHead) (m :: g) ∧
      Linked (q.pushGet m).next (.head q.putHead) p := by
  constructor
  · exact S.get.push hg (by simp) (head_ne_link _ _)
  · refine (S.put.frame (by simp) (link_ne hp) _).frame ?_ (head_ne_link _ _) _
    simpa using S.heads

theorem Shape.linked_pop (S : Shape q (m :: g) p) :
    Linked (q.pop m).next (.head q.getHead) g ∧ Linked (q.pop m).next (.head q.putHead) p := by
  constructor
  · exact S.get.pop (head_ne_link _ _)
  · refine S.put.frame ?_ (head_ne_link _ _) _
    simpa using S.heads

theorem tail_pushPut (S : Shape q g p) :
    (q.pushPut m).putTail = lastCell (.head q.putHead) (m :: p) := by
  simp only [Queue.pushPut, S.put.next_eq, S.tail]
  cases p with
  | nil | cons => rfl

/-- A call of `msgqueue_put_head` that has waited for room finds no message in the list of the
    consumers. -/
def Allowed (q : Queue) : Action → Prop
  | .putHeadWoken _ => q.first = none
  | _ => True

instance (q : Queue) (a : Action) : Decidable (Allowed q a) :=
  match a with
  | .putHeadWoken _ => inferInstanceAs (Decidable (q.first = none))
  | .setNonblock _ | .put _ | .putHead _ | .putHeadLocked _ | .get | .swap | .pop => isTrue trivial

def Does (q q' : Queue) (s s' : List MsgId) (ok : Prop) : Prop :=
  q'.log = q.log ∧ q'.nonblock = q.nonblock ∧ s' = s ∧ ok ∨
    ∃ e, q'.log = e :: q.log ∧
      (Deque.step ⟨s, q.nonblock⟩ e = some ⟨s', q'.nonblock⟩ ↔ ok)

theorem perm_insert {l a b : List MsgId} (h : l.Perm (a ++ b)) : (m :: l).Perm (a ++ m :: b) :=
  (h.cons m).trans perm_middle.symm

theorem Shape.insertPut (S : Shape q g p) (hg : m ∉ g) (hp : m ∉ p) (hlive : m ∉ q.live) :
    Shape (({ q with live := m :: q.live }.pushPut m).record (.putHead m)) g (m :: p) where
  get := (S.linked_pushPut hg hp).1
  put := (S.linked_pushPut hg hp).2
  heads := S.heads
  live := by
    rw [append_assoc, cons_append]
    refine perm_insert ?_
    rw [← append_assoc]
    exact S.live
  nodup := S.nodup.cons hlive
  cnt := by
    rw [length_cons, ← S.cnt]
    rfl
  tail := by
    have htail : (q.pushPut m).putTail = lastCell (.head q.putHead) (m :: p) := tail_pushPut S
    exact htail
  swapping := S.swapping
  popping := S.popping

theorem Shape.putHead (S : Shape q g p) (h : step q (.putHead m) = some q') :
    ∃ g' p', Shape q' g' p' ∧ Does q q' (g ++ p) (g' ++ p') True := by
  by_cases hlive : m ∈ q.live
  · simp [MessageQueue.step, hlive] at h
  obtain ⟨hg, hp, ht⟩ := S.fresh hlive
  have hfirst : ({ q with live := m :: q.live } : Queue).first = g.head? := S.first
  cases g with
  | nil =>
    simp only [MessageQueue.step, if_neg hlive, hfirst, List.head?_nil] at h
    split_ifs at h with hfull
    · cases h
      exact ⟨[], p, { S with live := perm_insert S.live, nodup := S.nodup.cons hlive },
        .inl ⟨rfl, rfl, rfl, trivial⟩⟩
    · cases h
      refine ⟨[], m :: p, S.insertPut hg hp hlive, .inr ⟨.putHead m, rfl, ?_⟩⟩
      exact iff_of_true rfl trivial
  | cons x g =>
    simp only [MessageQueue.step, if_neg hlive, hfirst, List.head?_cons] at h
    split_ifs at h with hfree
    cases h
    refine ⟨x :: g, p, { S with
      live := ?_, nodup := S.nodup.cons hlive, swapping := by simp, popping := by simp },
      .inl ⟨rfl, rfl, rfl, trivial⟩⟩
    have hperm := S.live
    rw [Queue.transit, hfree, append_nil] at hperm
    rw [Queue.transit, ← append_assoc]
    exact perm_insert (by rwa [append_nil])

theorem Shape.takeOut (S : Shape q (m :: g) p) (hfree : q.transit = q.waiting) :
    Shape (q.pop m) g p := by
  obtain ⟨hget, hput⟩ := S.linked_pop
  have hmem : m ∈ q.live := S.live.mem_iff.mpr (by simp)
  refine ⟨hget, hput, S.heads, ?_, S.nodup.erase m, S.cnt, S.tail, by simp [Queue.pop],
    by simp [Queue.pop]⟩
  have hperm := (perm_cons_erase hmem).symm.trans S.live
  rw [hfree, cons_append, cons_append] at hperm
  have htransit : (q.pop m).transit = q.waiting := append_nil _
  rw [htransit]
  exact hperm.cons_inv

theorem Shape.step (S : Shape q g p) (h : step q a = some q') :
    ∃ g' p', Shape q' g' p' ∧ Does q q' (g ++ p) (g' ++ p') (Allowed q a) := by
  cases a with
  | setNonblock nonblock =>
    cases h
    exact ⟨g, p, { S with }, .inr ⟨.setNonblock nonblock, rfl, iff_of_true rfl trivial⟩⟩
  | put m =>
    obtain ⟨hguard, rfl⟩ := of_guard h
    obtain ⟨hg, hp, ht⟩ := S.fresh hguard.1
    obtain ⟨hget, hput⟩ := S.linked_append hg hp
    refine ⟨g, p ++ [m], ⟨hget, hput, S.heads, ?_, S.nodup.cons hguard.1, ?_, ?_, S.swapping,
      S.popping⟩, .inr ⟨.put m, rfl, iff_of_true ?_ trivial⟩⟩
    · rw [← append_assoc, append_assoc (g ++ p), singleton_append]
      exact perm_insert S.live
    · rw [length_append, ← S.cnt]
      rfl
    · exact (lastCell_concat _ _ _).symm
    · rw [← append_assoc]
      rfl
  | putHead m => exact S.putHead h
  | putHeadLocked m =>
    obtain ⟨hmutex, rfl⟩ := of_guard h
    have hmem : m ∈ q.transit := by simp [Queue.transit, hmutex]
    obtain ⟨hg, hp⟩ := S.parts.2.2.2 m hmem
    obtain ⟨hget, hput⟩ := S.linked_pushGet hg hp
    refine ⟨m :: g, p, ⟨hget, hput, S.heads, ?_, S.nodup, S.cnt, S.tail, by simp [Queue.record],
      by simp⟩, .inr ⟨.putHead m, rfl, iff_of_true rfl trivial⟩⟩
    have hperm := S.live
    rw [Queue.transit, hmutex, ← append_assoc] at hperm
    refine hperm.trans ?_
    rw [Queue.transit, Queue.record]
    simp only [append_nil, cons_append]
    exact perm_append_singleton m _
  | putHeadWoken m =>
    obtain ⟨hguard, rfl⟩ := of_guard h
    have hmem : m ∈ q.transit := mem_append_left _ hguard.1
    obtain ⟨hg, hp⟩ := S.parts.2.2.2 m hmem
    obtain ⟨hget, hput⟩ := S.linked_pushPut hg hp
    refine ⟨g, m :: p, ⟨hget, hput, S.heads, ?_, S.nodup, ?_, tail_pushPut S, S.swapping,
      S.popping⟩, .inr ⟨.putHead m, rfl, ?_⟩⟩
    · refine S.live.trans ?_
      have hwaiting := (perm_cons_erase hguard.1).append_right
        (match q.getMutex with | .putHead m => [m] | _ => [])
      rw [append_assoc, append_assoc, cons_append]
      refine (List.Perm.append_left g ((List.Perm.append_left p hwaiting).trans ?_))
      exact perm_middle
    · rw [length_cons, ← S.cnt]
      rfl
    · -- the message stands behind the list of the consumers
      rw [Allowed, S.first, List.head?_eq_none_iff]
      simp only [Deque.step, Option.some.injEq, Deque.mk.injEq]
      constructor
      · rintro ⟨heq, -⟩
        cases g with
        | nil => rfl
        | cons x g =>
          have hx := (List.cons.inj heq).1
          exact absurd (hx ▸ mem_cons_self) hg
      · rintro rfl
        exact ⟨rfl, rfl⟩
  | get =>
    simp only [MessageQueue.step, S.first] at h
    split_ifs at h with hfree
    have htransit : q.transit = q.waiting := by rw [Queue.transit, hfree, append_nil]
    cases g with
    | nil =>
      cases h
      refine ⟨[], p, { S with live := ?_, swapping := fun _ => rfl, popping := by simp },
        .inl ⟨rfl, rfl, rfl, trivial⟩⟩
      have hperm := S.live
      rw [htransit] at hperm
      rwa [Queue.transit, append_nil]
    | cons m g =>
      cases h
      exact ⟨g, p, S.takeOut htransit, .inr ⟨.got m, rfl, iff_of_true (if_pos rfl) trivial⟩⟩
  | swap =>
    simp only [MessageQueue.step] at h
    have hswapped : ∀ mutex, (mutex = .popping ∨ mutex = .free) → q.getMutex = .swapping →
        (mutex = .popping → p ≠ []) → Shape { q.swap with getMutex := mutex } p [] := by
      intro mutex hmutex hswapping hne
      obtain rfl := S.swapping hswapping
      refine ⟨S.put, S.get, S.heads.symm, ?_, S.nodup, rfl, rfl, ?_, hne⟩
      · have hperm := S.live
        rw [Queue.transit, hswapping] at hperm
        rcases hmutex with rfl | rfl
        · simpa [Queue.transit, Queue.swap] using hperm
        · simpa [Queue.transit, Queue.swap] using hperm
      · rcases hmutex with rfl | rfl
        · simp
        · simp
    split_ifs at h with hguard hcnt
    · cases h
      obtain rfl := S.swapping hguard.1
      have hne : p ≠ [] := by
        rintro rfl
        rw [S.cnt] at hcnt
        exact Nat.lt_irrefl _ hcnt
      refine ⟨p, [], hswapped _ (.inl rfl) hguard.1 (fun _ => hne), .inl ⟨rfl, rfl, ?_, trivial⟩⟩
      rw [append_nil, nil_append]
    · cases h
      obtain rfl := S.swapping hguard.1
      have hzero : q.msgCnt = 0 := Nat.eq_zero_of_not_pos hcnt
      obtain rfl : p = [] := length_eq_zero_iff.mp (S.cnt ▸ hzero)
      have hnonblock : q.nonblock = true := by
        have hnot := hguard.2
        simpa [hzero] using hnot
      have S' := hswapped .free (.inr rfl) hguard.1 (by simp)
      refine ⟨[], [], { S' with }, .inr ⟨.gotNull, rfl, ?_⟩⟩
      exact iff_of_true (if_pos ⟨rfl, hnonblock⟩) trivial
  | pop =>
    simp only [MessageQueue.step, S.first] at h
    split_ifs at h with hpopping
    have htransit : q.transit = q.waiting := by rw [Queue.transit, hpopping, append_nil]
    cases g with
    | nil => cases h
    | cons m g =>
      cases h
      exact ⟨g, p, S.takeOut htransit, .inr ⟨.got m, rfl, iff_of_true (if_pos rfl) trivial⟩⟩

def Refines (q : Queue) (g p : List MsgId) : Prop := replay q.log = some ⟨g ++ p, q.nonblock⟩

theorem Does.refines {g' p' : List MsgId} {ok : Prop} (R : Refines q g p)
    (h : Does q q' (g ++ p) (g' ++ p') ok) : Refines q' g' p' ↔ ok := by
  rw [Refines] at R ⊢
  rcases h with ⟨hlog, hnonblock, heq, hok⟩ | ⟨e, hlog, hstep⟩
  · rw [hlog, R, hnonblock, heq]
    exact iff_of_true rfl hok
  · rw [hlog, replay, R]
    exact hstep

theorem Shape.init (maxlen : UInt64) : Shape (.init maxlen) [] [] :=
  ⟨rfl, rfl, by simp [Queue.init], .nil, nodup_nil, rfl, rfl, fun _ => rfl,
    by simp [Queue.init]⟩

theorem reaches_shape {maxlen : UInt64} (hq : Reaches step Allowed (.init maxlen) q) :
    ∃ g p, Shape q g p ∧ Refines q g p := by
  refine hq.invariant (P := fun q => ∃ g p, Shape q g p ∧ Refines q g p)
    ⟨[], [], Shape.init maxlen, rfl⟩ ?_
  rintro q a q' ⟨g, p, S, R⟩ ha hstep
  obtain ⟨g', p', S', hdoes⟩ := S.step hstep
  exact ⟨g', p', S', (hdoes.refines R).mpr ha⟩

/-- The two lists are one double-ended queue in every run in which a call of `msgqueue_put_head`
    that has waited for room finds no message in the list of the consumers. A step that does not
    meet this does something else. -/
theorem msgqueue_refines_deque {maxlen : UInt64} (hq : Reaches step Allowed (.init maxlen) q) :
    ∃ g p, Linked q.next (.head q.getHead) g ∧ Linked q.next (.head q.putHead) p ∧
      replay q.log = some ⟨g ++ p, q.nonblock⟩ ∧ q.msgCnt = p.length ∧
      q.putTail = lastCell (.head q.putHead) p ∧
      (q.getMutex = .popping → ∃ q', step q .pop = some q') ∧
      ∀ a q', step q a = some q' → ∃ g' p', Linked q'.next (.head q'.getHead) g' ∧
        Linked q'.next (.head q'.putHead) p' ∧
        (replay q'.log = some ⟨g' ++ p', q'.nonblock⟩ ↔ Allowed q a) := by
  obtain ⟨g, p, S, R⟩ := reaches_shape hq
  refine ⟨g, p, S.get, S.put, R, S.cnt, S.tail, ?_, ?_⟩
  · intro hpopping
    cases g with
    | nil => exact absurd rfl (S.popping hpopping)
    | cons m g =>
      refine ⟨q.pop m, ?_⟩
      simp [step, hpopping, S.first]
  · intro a q' hstep
    obtain ⟨g', p', S', hdoes⟩ := S.step hstep
    exact ⟨g', p', S'.get, S'.put, hdoes.refines R⟩

def headRun : List Action :=
  [.put 0, .put 1, .get, .swap, .pop, .putHead 2, .putHeadLocked 2, .get]

theorem headRun_order : ∃ q, guardedRun step Allowed (.init 3) headRun = some q ∧
    replay q.log = some ⟨[1], false⟩ ∧ q.log.head? = some (.got 2) ∧
    ∃ g p, g ++ p = [1] ∧ Linked q.next (.head q.getHead) g := by
  obtain ⟨q, hrun, hlog, hreplay⟩ : ∃ q, guardedRun step Allowed (.init 3) headRun = some q ∧
      q.log.head? = some (.got 2) ∧ replay q.log = some ⟨[1], false⟩ := ⟨_, rfl, rfl, rfl⟩
  obtain ⟨g, p, hget, -, hseq, -⟩ :=
    msgqueue_refines_deque (reaches_of_guardedRun headRun .start hrun)
  have hmsgs : [1] = g ++ p := congrArg Deque.msgs (Option.some.inj (hreplay.symm.trans hseq))
  exact ⟨q, hrun, hreplay, hlog, g, p, hmsgs.symm, hget⟩

/-- The messages before it move to the list of the consumers, and it does not look there again. -/
theorem put_head_behind : ∃ q, Reachable step (.init 2) q ∧
    q.log = [.putHead 2, .got 0, .put 1, .put 0] ∧ Linked q.next (.head q.getHead) [1] ∧
    Linked q.next (.head q.putHead) [2] ∧ replay q.log = some ⟨[2, 1], false⟩ := by
  obtain ⟨q, hrun, hrest⟩ : ∃ q, run step (.init 2)
      [.put 0, .put 1, .putHead 2, .get, .swap, .pop, .putHeadWoken 2] = some q ∧
      q.log = [.putHead 2, .got 0, .put 1, .put 0] ∧ Linked q.next (.head q.getHead) [1] ∧
      Linked q.next (.head q.putHead) [2] ∧ replay q.log = some ⟨[2, 1], false⟩ :=
    ⟨_, rfl, rfl, ⟨rfl, rfl⟩, ⟨rfl, rfl⟩, rfl⟩
  exact ⟨q, reachable_of_run _ .start hrun, hrest⟩

end MyWorkflow.MessageQueue
