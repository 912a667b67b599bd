import MyWorkflow.JsonParser
import MyWorkflow.Rings
import MyWorkflow.Runs
import MyWorkflow.RedBlack

set_option autoImplicit false

/-!
# JSON objects

A member stands in the list of its object and in a search tree by name. A pointer to a member, to
its name or to its value is the id of the member: `malloc` gives any id that is not in use. A node of
the tree is its member, of which a search sees the name; no name ever changes. A pointer that is not
one of the object's, and an `int` that would pass `INT_MAX`, leave what C defines; allocation never
fails.
-/
namespace MyWorkflow.Json
open Function List CString Rings Runs RedBlack SearchTree

/-- `strcmp`: bytes count as unsigned, and a text comes before what continues it. -/
def strcmp (a b : Bytes) : Ordering := List.compareLex compare (strdup a) (strdup b)

abbrev MemberId := ℕ

structure JsonMember (ν : Type) where
  name : Bytes
  value : ν
deriving DecidableEq, Repr

structure Key where
  id : MemberId
  name : Bytes
deriving DecidableEq, Repr

structure JsonObject (ν : Type) where
  head : Rings.Ring MemberId
  root : RbRoot Key
  size : ℕ
  memb : MemberId → Option (JsonMember ν)

namespace JsonObject

variable {ν : Type}

def empty : JsonObject ν := ⟨.init, .empty, 0, fun _ => none⟩

def insertRoot (key : Key) (root : RbRoot Key) : RbRoot Key :=
  root.insert (fun e => strcmp key.name e.name == .lt) key

def insertJsonMember (key : Key) (pos : Option MemberId) (o : JsonObject ν) :
    JsonObject ν :=
  { o with
    root := insertRoot key o.root
    head := o.head.add key.id pos }

def allocate (m : MemberId) (name : Bytes) (value : ν) (o : JsonObject ν) :
    Option (JsonObject ν) :=
  if (o.memb m).isNone then
    some { o with memb := update o.memb m (some ⟨name, value⟩) }
  else none

/-- One round of `__parse_json_members`; the name is what the buffer holds. -/
def parseMember (o : JsonObject ν) : MemberId × Bytes × ν → Option (JsonObject ν)
  | (m, name, value) => do
    let o ← o.allocate m name value
    return o.insertJsonMember ⟨m, name⟩ (o.head.prev none)

def parseJsonObject (ms : List (MemberId × Bytes × ν)) : Option (JsonObject ν) :=
  if ms.length ≤ intMax then
    (ms.foldlM (parseMember) (empty)).map fun o => { o with size := ms.length }
  else none

def objectInsert (m : MemberId) (name : Bytes) (value : ν) (pos : Option MemberId)
    (o : JsonObject ν) : Option (JsonObject ν) :=
  if strlen name < intMax ∧ o.size < intMax then do
    let o ← o.allocate m (strdup name) value
    let o := o.insertJsonMember ⟨m, strdup name⟩ pos
    return { o with size := o.size + 1 }
  else none

def objectAppend (m : MemberId) (name : Bytes) (value : ν) (o : JsonObject ν) :
    Option (JsonObject ν) := o.objectInsert m name value (o.head.prev none)

def Known (o : JsonObject ν) (val : Option MemberId) : Bool :=
  val.all fun x => (o.memb x).isSome

def objectInsertAfter (val : Option MemberId) (m : MemberId) (name : Bytes) (value : ν)
    (o : JsonObject ν) : Option (JsonObject ν) :=
  if o.Known val then o.objectInsert m name value val else none

def objectInsertBefore (val : Option MemberId) (m : MemberId) (name : Bytes) (value : ν)
    (o : JsonObject ν) : Option (JsonObject ν) :=
  if o.Known val then o.objectInsert m name value (o.head.prev val) else none

/-- What remains of the object; the value is moved out of the member. -/
def objectRemove (m : MemberId) (o : JsonObject ν) :
    Option (JsonObject ν × ν) :=
  match o.memb m with
  | none => none
  | some memb =>
    some ({ head := o.head.del m
            root := RbRoot.erase ⟨m, memb.name⟩ o.root
            size := o.size - 1
            memb := update o.memb m none }, memb.value)

def moveJsonObject (o : JsonObject ν) : JsonObject ν :=
  { o with head := o.head.splice }

def objectFind (name : Bytes) (o : JsonObject ν) : Option MemberId :=
  (search (fun e => strcmp name e.name) (o.root.nodes)).map Key.id

def objectSize (o : JsonObject ν) : ℕ := o.size

def objectNext (pos : Option MemberId) (o : JsonObject ν) : Option MemberId :=
  o.head.next pos

def objectPrev (pos : Option MemberId) (o : JsonObject ν) : Option MemberId :=
  o.head.prev pos

def forEach (o : JsonObject ν) : ℕ → Option MemberId → List MemberId
  | 0, _ => []
  | n + 1, pos =>
    match o.objectNext pos with
    | none => []
    | some m => m :: forEach o n (some m)

def forEachPrev (o : JsonObject ν) : ℕ → Option MemberId → List MemberId
  | 0, _ => []
  | n + 1, pos =>
    match o.objectPrev pos with
    | none => []
    | some m => m :: forEachPrev o n (some m)

end JsonObject

inductive ObjectOp (ν : Type) where
  | append (m : MemberId) (name : Bytes) (value : ν)
  | insertAfter (val : Option MemberId) (m : MemberId) (name : Bytes) (value : ν)
  | insertBefore (val : Option MemberId) (m : MemberId) (name : Bytes) (value : ν)
  | remove (m : MemberId)
  | move

def objectStep {ν : Type} (o : JsonObject ν) :
    ObjectOp ν → Option (JsonObject ν)
  | .append m name value => o.objectAppend m name value
  | .insertAfter val m name value => o.objectInsertAfter val m name value
  | .insertBefore val m name value => o.objectInsertBefore val m name value
  | .remove m => (o.objectRemove m).map Prod.fst
  | .move => some (o.moveJsonObject)

/-! ## The order of names -/

theorem strcmp_eq_iff {a b : Bytes} : strcmp a b = .eq ↔ strdup a = strdup b := by
  unfold strcmp
  exact Std.LawfulEqCmp.compare_eq_iff_eq

instance : Std.TransCmp strcmp where
  eq_swap := by
    intro a b
    unfold strcmp
    exact Std.OrientedCmp.eq_swap
  isLE_trans := by
    intro a b c hab hbc
    unfold strcmp at hab hbc ⊢
    exact Std.TransCmp.isLE_trans hab hbc

theorem strcmp_swap (a b : Bytes) : strcmp a b = (strcmp b a).swap := Std.OrientedCmp.eq_swap

def NameLe (a b : Bytes) : Prop := strcmp a b ≠ .gt

theorem NameLe.isLE {a b : Bytes} (h : NameLe a b) : (strcmp a b).isLE = true := by
  unfold NameLe at h
  revert h
  cases strcmp a b <;> simp

theorem NameLe.of_lt {a b c : Bytes} (h : strcmp a b = .lt) (h' : NameLe b c) :
    strcmp a c = .lt := Std.TransCmp.lt_of_lt_of_isLE h h'.isLE

theorem NameLe.of_gt {a b c : Bytes} (h : strcmp c b = .gt) (h' : NameLe a b) :
    strcmp c a = .gt := by
  rw [Std.OrientedCmp.gt_iff_lt] at h ⊢
  exact Std.TransCmp.lt_of_isLE_of_lt h'.isLE h

theorem nameLe_of_lt {a b : Bytes} (h : strcmp a b = .lt) : NameLe a b := by
  rw [NameLe, h]
  decide

theorem nameLe_of_not_lt {a b : Bytes} (h : strcmp a b ≠ .lt) : NameLe b a := by
  rw [NameLe, strcmp_swap]
  revert h
  cases strcmp a b <;> simp

/-! ## Index and list -/

theorem insertRoot_spec {root : RbRoot Key} (key : Key)
    (hs : root.list.Pairwise fun a b => NameLe a.name b.name) :
    (JsonObject.insertRoot key root).list.Perm (key :: root.list) ∧
      (JsonObject.insertRoot key root).list.Pairwise fun a b => NameLe a.name b.name := by
  have hbelow : root.list.Pairwise fun a b =>
      (strcmp key.name a.name == .lt) = true → (strcmp key.name b.name == .lt) = true := by
    refine hs.imp fun {a b} hab h => ?_
    rw [beq_iff_eq] at h ⊢
    exact NameLe.of_lt h hab
  obtain ⟨pre, post, hin, hpre, hpost, hin', -⟩ := root.insert_spec hbelow key
  rw [JsonObject.insertRoot, hin', hin]
  refine ⟨perm_middle, ?_⟩
  rw [hin, pairwise_append] at hs
  obtain ⟨hspre, hspost, hcross⟩ := hs
  refine pairwise_append.mpr ⟨hspre, pairwise_cons.mpr ⟨?_, hspost⟩, ?_⟩
  · intro e he
    exact nameLe_of_lt (by simpa using hpost e he)
  · intro x hx y hy
    obtain rfl | hy := mem_cons.mp hy
    · exact nameLe_of_not_lt (by simpa using hpre x hx)
    · exact hcross x hx y hy

namespace JsonObject

variable {ν : Type} {o o' : JsonObject ν} {l : List MemberId}

/-- `l` is the list of the members: list and tree are about the same members. -/
structure Indexed (o : JsonObject ν) (l : List MemberId) : Prop where
  ring : o.head.Holds l
  live : ∀ m, o.memb m ≠ none ↔ m ∈ l
  nodup : (o.root.list).Nodup
  nodes : ∀ key, key ∈ o.root.list ↔ ∃ memb, o.memb key.id = some memb ∧
    memb.name = key.name
  sorted : (o.root.list).Pairwise fun a b => NameLe a.name b.name

structure Inv (o : JsonObject ν) (l : List MemberId) : Prop extends Indexed o l where
  size : o.size = l.length

theorem Indexed.setSize (h : Indexed o l) (n : ℕ) : Indexed { o with size := n } l :=
  { h with }

theorem indexed_empty : Indexed (empty : JsonObject ν) [] :=
  ⟨Ring.holds_init, fun m => by simp [empty], .nil, fun key => by simp [empty], .nil⟩

theorem Indexed.insert {a b : List MemberId} {m : MemberId} {name : Bytes} {value : ν}
    {o₁ : JsonObject ν} (h : Indexed o (a ++ b))
    (halloc : o.allocate m name value = some o₁) :
    Indexed (o₁.insertJsonMember ⟨m, name⟩ a.getLast?) (a ++ m :: b) ∧
      o₁.memb = update o.memb m (some ⟨name, value⟩) ∧ m ∉ a ++ b ∧
      o₁.head = o.head := by
  unfold allocate at halloc
  split_ifs at halloc with hfresh
  cases halloc
  rw [Option.isNone_iff_eq_none] at hfresh
  have hnew : m ∉ a ++ b := fun hmem => (h.live m).mpr hmem hfresh
  have hkey : (⟨m, name⟩ : Key) ∉ o.root.list := by
    intro hmem
    obtain ⟨memb, hmemb, -⟩ := (h.nodes _).mp hmem
    rw [hfresh] at hmemb
    cases hmemb
  obtain ⟨hperm, hsorted⟩ := insertRoot_spec ⟨m, name⟩ h.sorted
  refine ⟨⟨h.ring.add hnew, live_add h.live _, ?_, ?_, hsorted⟩, rfl, hnew, rfl⟩
  · exact hperm.nodup_iff.mpr (nodup_cons.mpr ⟨hkey, h.nodup⟩)
  · intro key
    change key ∈ (insertRoot ⟨m, name⟩ o.root).list ↔
      ∃ memb, update o.memb m (some ⟨name, value⟩) key.id = some memb ∧ _
    rw [hperm.mem_iff, mem_cons]
    obtain ⟨e, text⟩ := key
    by_cases he : e = m
    · have hno : (⟨e, text⟩ : Key) ∉ o.root.list := by
        rw [h.nodes, he, hfresh]
        simp
      rw [he, update_self] at *
      simp [hno, eq_comm]
    · rw [h.nodes, update_of_ne he]
      simp [he]

theorem Inv.remove {m : MemberId} {value : ν} (h : Inv o l)
    (hremove : o.objectRemove m = some (o', value)) :
    ∃ a b, l = a ++ m :: b ∧ Inv o' (a ++ b) ∧ o'.memb = update o.memb m none ∧
      ∃ name, o.memb m = some ⟨name, value⟩ := by
  unfold objectRemove at hremove
  split at hremove
  · cases hremove
  next memb hmemb =>
  cases hremove
  have hmem : m ∈ l := (h.live m).mp (by rw [hmemb]; simp)
  obtain ⟨a, b, rfl⟩ := append_of_mem hmem
  refine ⟨a, b, rfl, ⟨⟨h.ring.del, live_del h.ring.nodup h.live, ?_, ?_, ?_⟩, ?_⟩, rfl, memb.name,
    hmemb⟩
  · change ((RbRoot.erase _ o.root).list).Nodup
    rw [RbRoot.list_erase]
    exact h.nodup.erase _
  · intro key
    change key ∈ (RbRoot.erase _ o.root).list ↔
      ∃ memb, update o.memb m none key.id = some memb ∧ _
    rw [RbRoot.list_erase, h.nodup.mem_erase_iff, h.nodes]
    obtain ⟨e, text⟩ := key
    by_cases he : e = m
    · rw [he, update_self, hmemb]
      simp only [reduceCtorEq, false_and, exists_false, iff_false]
      rintro ⟨hne, memb', hsome, rfl⟩
      cases hsome
      exact hne rfl
    · rw [update_of_ne he]
      simp [he]
  · change ((RbRoot.erase _ o.root).list).Pairwise _
    rw [RbRoot.list_erase]
    exact h.sorted.sublist erase_sublist
  · change o.size - 1 = _
    rw [h.size, length_append, length_append, length_cons]
    omega

theorem Inv.move (h : Inv o l) : Inv (o.moveJsonObject) l :=
  ⟨⟨h.ring.splice, h.live, h.nodup, h.nodes, h.sorted⟩, h.size⟩

/-! ## One step -/

theorem objectInsert_eq_some {m : MemberId} {name : Bytes} {value : ν} {pos : Option MemberId}
    (h : o.objectInsert m name value pos = some o') :
    ∃ o₁, o.allocate m (strdup name) value = some o₁ ∧ o.size < intMax ∧
      o' = { o₁.insertJsonMember ⟨m, strdup name⟩ pos with size := o.size + 1 } := by
  unfold objectInsert at h
  split_ifs at h with hlen
  obtain ⟨o₁, halloc, h⟩ := Option.bind_eq_some_iff.mp h
  refine ⟨o₁, halloc, hlen.2, ?_⟩
  have hsize : o₁.size = o.size := by
    unfold allocate at halloc
    split_ifs at halloc
    cases halloc
    rfl
  cases h
  rw [← hsize]
  rfl

def Placed (l : List MemberId) : ObjectOp ν → List MemberId → Prop
  | .append m _ _, l' => l' = l ++ [m]
  | .insertAfter none m _ _, l' => l' = m :: l
  | .insertAfter (some x) m _ _, l' => ∃ a b, l = a ++ x :: b ∧ l' = a ++ x :: m :: b
  | .insertBefore none m _ _, l' => l' = l ++ [m]
  | .insertBefore (some x) m _ _, l' => ∃ a b, l = a ++ x :: b ∧ l' = a ++ m :: x :: b
  | .remove m, l' => ∃ a b, l = a ++ m :: b ∧ l' = a ++ b
  | .move, l' => l' = l

def Written (o : JsonObject ν) : ObjectOp ν → (MemberId → Option (JsonMember ν)) → Prop
  | .append m name value, memb | .insertAfter _ m name value, memb
  | .insertBefore _ m name value, memb =>
    o.memb m = none ∧ memb = update o.memb m (some ⟨strdup name, value⟩)
  | .remove m, memb => o.memb m ≠ none ∧ memb = update o.memb m none
  | .move, memb => memb = o.memb

theorem Inv.objectInsert {a b : List MemberId} {m : MemberId} {name : Bytes} {value : ν}
    {pos : Option MemberId} (h : Inv o (a ++ b)) (hpos : pos = a.getLast?)
    (hinsert : o.objectInsert m name value pos = some o') :
    Inv o' (a ++ m :: b) ∧ o.memb m = none ∧
      o'.memb = update o.memb m (some ⟨strdup name, value⟩) := by
  obtain ⟨o₁, halloc, -, rfl⟩ := objectInsert_eq_some hinsert
  obtain ⟨hindexed, hmemb, hnew, -⟩ := h.toIndexed.insert halloc
  rw [hpos]
  refine ⟨⟨hindexed.setSize _, ?_⟩, ?_, hmemb⟩
  · change o.size + 1 = (a ++ m :: b).length
    rw [h.size, length_append, length_append, length_cons]
    omega
  · by_contra hlive
    exact hnew ((h.live m).mp hlive)

theorem Indexed.prev_none (h : Indexed o l) : o.head.prev none = l.getLast? := by
  have hlinked := h.ring.linked
  rw [← append_nil l] at hlinked
  have hprev := hlinked.prev_eq
  rwa [Ring.lastOr_none] at hprev

theorem Inv.append {m : MemberId} {name : Bytes} {value : ν} (h : Inv o l)
    (hinsert : o.objectInsert m name value (o.head.prev none) = some o') :
    Inv o' (l ++ [m]) ∧ o.memb m = none ∧
      o'.memb = update o.memb m (some ⟨strdup name, value⟩) := by
  have hprev := h.prev_none
  rw [← append_nil l] at h
  exact h.objectInsert hprev hinsert

theorem Inv.known {x : MemberId} (h : Inv o l) (hknown : o.Known (some x) = true) :
    ∃ a b, l = a ++ x :: b := by
  apply append_of_mem
  rw [← h.live x]
  rw [Known, Option.all_some, Option.isSome_iff_ne_none] at hknown
  exact hknown

theorem Inv.step {op : ObjectOp ν} (h : Inv o l) (hstep : objectStep o op = some o') :
    ∃ l', Inv o' l' ∧ Placed l op l' ∧ Written o op o'.memb := by
  cases op with
  | append m name value =>
    obtain ⟨hinv, hwritten⟩ := h.append hstep
    exact ⟨_, hinv, rfl, hwritten⟩
  | insertAfter val m name value =>
    simp only [objectStep, objectInsertAfter] at hstep
    split_ifs at hstep with hknown
    cases val with
    | none =>
      obtain ⟨hinv, hwritten⟩ := Inv.objectInsert (a := []) h rfl hstep
      exact ⟨_, hinv, rfl, hwritten⟩
    | some x =>
      obtain ⟨a, b, rfl⟩ := h.known hknown
      have hsplit : a ++ x :: b = (a ++ [x]) ++ b := by simp
      rw [hsplit] at h
      obtain ⟨hinv, hwritten⟩ := h.objectInsert (by simp) hstep
      exact ⟨_, hinv, ⟨a, b, rfl, by simp⟩, hwritten⟩
  | insertBefore val m name value =>
    simp only [objectStep, objectInsertBefore] at hstep
    split_ifs at hstep with hknown
    cases val with
    | none =>
      obtain ⟨hinv, hwritten⟩ := h.append hstep
      exact ⟨_, hinv, rfl, hwritten⟩
    | some x =>
      obtain ⟨a, b, rfl⟩ := h.known hknown
      have hprev := h.ring.linked.prev_eq
      rw [Ring.lastOr_none] at hprev
      obtain ⟨hinv, hwritten⟩ := h.objectInsert hprev hstep
      exact ⟨_, hinv, ⟨a, b, rfl, rfl⟩, hwritten⟩
  | remove m =>
    obtain ⟨⟨o₁, value⟩, hremove, hfst⟩ := Option.map_eq_some_iff.mp hstep
    cases hfst
    obtain ⟨a, b, hl, hinv, hmemb, name, hlive⟩ := h.remove hremove
    exact ⟨_, hinv, ⟨a, b, hl, rfl⟩, by rw [hlive]; simp, hmemb⟩
  | move =>
    cases hstep
    exact ⟨l, h.move, rfl, rfl⟩

/-! ## Parsed objects -/

theorem Indexed.parse {ms : List (MemberId × Bytes × ν)} (h : Indexed o l)
    (hparse : ms.foldlM (parseMember) o = some o') :
    Indexed o' (l ++ ms.map Prod.fst) ∧
      (∀ m ∈ l, o'.memb m = o.memb m) ∧
      ∀ p ∈ ms, o'.memb p.1 = some ⟨p.2.1, p.2.2⟩ := by
  induction ms generalizing o l with
  | nil =>
    cases hparse
    simpa using h
  | cons p ms ih =>
    obtain ⟨m, name, value⟩ := p
    rw [foldlM_cons] at hparse
    obtain ⟨o₂, hmember, hrest⟩ := Option.bind_eq_some_iff.mp hparse
    obtain ⟨o₁, halloc, hinsert⟩ := Option.bind_eq_some_iff.mp hmember
    cases hinsert
    have h' := h
    rw [← append_nil l] at h'
    obtain ⟨hindexed, hmemb, hnew, hhead⟩ := h'.insert halloc
    rw [append_nil] at hnew
    rw [hhead, h.prev_none] at hrest
    obtain ⟨hall, hkept, hread⟩ := ih hindexed hrest
    have hwritten : ∀ e, (o₁.insertJsonMember ⟨m, name⟩ l.getLast?).memb e =
        update o.memb m (some ⟨name, value⟩) e := fun e => congrFun hmemb e
    refine ⟨by simpa using hall, fun e he => ?_, fun q hq => ?_⟩
    · rw [hkept e (mem_append_left _ he), hwritten, update_of_ne]
      rintro rfl
      exact hnew he
    · obtain rfl | hq := mem_cons.mp hq
      · rw [hkept m (by simp), hwritten, update_self]
      · exact hread q hq

theorem inv_parseJsonObject {ms : List (MemberId × Bytes × ν)}
    (h : parseJsonObject ms = some o) :
    Inv o (ms.map Prod.fst) ∧ ∀ p ∈ ms, o.memb p.1 = some ⟨p.2.1, p.2.2⟩ := by
  unfold parseJsonObject at h
  split_ifs at h
  obtain ⟨o₁, hparse, rfl⟩ := Option.map_eq_some_iff.mp h
  obtain ⟨hindexed, -, hread⟩ := indexed_empty.parse hparse
  exact ⟨⟨hindexed.setSize _, by simp⟩, hread⟩

/-! ## Reading an object -/

def Named (o : JsonObject ν) (k : Bytes) (m : MemberId) : Prop :=
  ∃ memb, o.memb m = some memb ∧ strdup memb.name = strdup k

theorem Indexed.find_none_iff (h : Indexed o l) (k : Bytes) :
    o.objectFind k = none ↔ ∀ m ∈ l, ¬o.Named k m := by
  have hs := h.sorted.imp fun {a b} hab =>
    (⟨fun hlt => NameLe.of_lt hlt hab, fun hgt => NameLe.of_gt hgt hab⟩ :
      (strcmp k a.name = .lt → strcmp k b.name = .lt) ∧
      (strcmp k b.name = .gt → strcmp k a.name = .gt))
  rw [objectFind, Option.map_eq_none_iff, search_eq_none_iff hs]
  constructor
  · rintro hnone m - ⟨memb, hmemb, hname⟩
    have hkey := (h.nodes ⟨m, memb.name⟩).mpr ⟨memb, hmemb, rfl⟩
    exact hnone _ hkey (strcmp_eq_iff.mpr hname.symm)
  · intro hnone key hkey hcmp
    obtain ⟨memb, hmemb, hname⟩ := (h.nodes key).mp hkey
    have hlive := (h.live key.id).mp (by rw [hmemb]; simp)
    refine hnone key.id hlive ⟨memb, hmemb, ?_⟩
    rw [hname]
    exact (strcmp_eq_iff.mp hcmp).symm

theorem Indexed.find_some (h : Indexed o l) {k : Bytes} {m : MemberId}
    (hfind : o.objectFind k = some m) : m ∈ l ∧ o.Named k m := by
  obtain ⟨key, hsearch, rfl⟩ := Option.map_eq_some_iff.mp hfind
  obtain ⟨hkey, hcmp⟩ := search_eq_some hsearch
  obtain ⟨memb, hmemb, hname⟩ := (h.nodes key).mp hkey
  refine ⟨(h.live key.id).mp (by rw [hmemb]; simp), memb, hmemb, ?_⟩
  rw [hname]
  exact (strcmp_eq_iff.mp hcmp).symm

theorem forEach_eq (o : JsonObject ν) (n : ℕ) (pos : Option MemberId) :
    o.forEach n pos = o.head.forward n pos := by
  induction n generalizing pos with
  | zero => rfl
  | succ n ih =>
    rw [forEach, Ring.forward, objectNext]
    cases o.head.next pos with
    | none => rfl
    | some m => exact congrArg (m :: ·) (ih (some m))

theorem forEachPrev_eq (o : JsonObject ν) (n : ℕ) (pos : Option MemberId) :
    o.forEachPrev n pos = o.head.backward n pos := by
  induction n generalizing pos with
  | zero => rfl
  | succ n ih =>
    rw [forEachPrev, Ring.backward, objectPrev]
    cases o.head.prev pos with
    | none => rfl
    | some m => exact congrArg (m :: ·) (ih (some m))

structure Agrees (o : JsonObject ν) (l : List MemberId) : Prop where
  nodup : l.Nodup
  live : ∀ m, o.memb m ≠ none ↔ m ∈ l
  size : o.objectSize = l.length
  forward : ∀ n, l.length ≤ n → o.forEach n none = l
  backward : ∀ n, l.length ≤ n → o.forEachPrev n none = l.reverse
  find_none : ∀ k, o.objectFind k = none ↔ ∀ m ∈ l, ¬o.Named k m
  find_some : ∀ k m, o.objectFind k = some m → m ∈ l ∧ o.Named k m

theorem Inv.agrees (h : Inv o l) : Agrees o l where
  nodup := h.ring.nodup
  live := h.live
  size := h.size
  forward := fun n hn => (forEach_eq o n none).trans (h.ring.forward_eq hn)
  backward := fun n hn => (forEachPrev_eq o n none).trans (h.ring.backward_eq hn)
  find_none := h.find_none_iff
  find_some := fun _ _ hfind => h.find_some hfind

/-- What C defines: a new member, a pointer to one of the object, room for the count and for
    `len + 1` in an `int`. -/
def Defined (o : JsonObject ν) : ObjectOp ν → Prop
  | .append m name _ => o.memb m = none ∧ strlen name < intMax ∧ o.size < intMax
  | .insertAfter val m name _ | .insertBefore val m name _ =>
    (∀ x, val = some x → o.memb x ≠ none) ∧
      o.memb m = none ∧ strlen name < intMax ∧ o.size < intMax
  | .remove m => o.memb m ≠ none
  | .move => True

theorem objectInsert_isSome_iff {m : MemberId} {name : Bytes} {value : ν}
    {pos : Option MemberId} (o : JsonObject ν) :
    (o.objectInsert m name value pos).isSome ↔
      o.memb m = none ∧ strlen name < intMax ∧ o.size < intMax := by
  unfold objectInsert allocate
  by_cases hlen : strlen name < intMax ∧ o.size < intMax
  · rw [if_pos hlen]
    cases hm : o.memb m with
    | none => simp [hlen]
    | some memb => simp
  · rw [if_neg hlen]
    simp [hlen]

theorem known_iff (o : JsonObject ν) (val : Option MemberId) :
    o.Known val = true ↔ ∀ x, val = some x → o.memb x ≠ none := by
  cases val with
  | none => simp [Known]
  | some x => simp [Known, Option.isSome_iff_ne_none]

theorem objectStep_isSome_iff (o : JsonObject ν) (op : ObjectOp ν) :
    (objectStep o op).isSome ↔ o.Defined op := by
  cases op with
  | append m name value => exact objectInsert_isSome_iff o
  | insertAfter val m name value =>
    simp only [objectStep, objectInsertAfter, Defined]
    rw [← known_iff]
    split_ifs with hknown
    · simp [hknown, objectInsert_isSome_iff]
    · simp [hknown]
  | insertBefore val m name value =>
    simp only [objectStep, objectInsertBefore, Defined]
    rw [← known_iff]
    split_ifs with hknown
    · simp [hknown, objectInsert_isSome_iff]
    · simp [hknown]
  | remove m =>
    simp only [objectStep, objectRemove, Defined]
    cases hm : o.memb m <;> simp
  | move => simp [objectStep, Defined]

end JsonObject

open JsonObject

/-- List, index and count are about the same members, and every insertion puts its member where it
    says. -/
theorem object_index_agrees {ν : Type} {ms : List (MemberId × Bytes × ν)}
    {o₀ o : JsonObject ν} (hparse : parseJsonObject ms = some o₀)
    (hrun : Reachable (objectStep) o₀ o) :
    Agrees o₀ (ms.map Prod.fst) ∧ (∀ p ∈ ms, o₀.memb p.1 = some ⟨p.2.1, p.2.2⟩) ∧
    ∃ l, Agrees o l ∧ ∀ op : ObjectOp ν, ((objectStep o op).isSome ↔ o.Defined op) ∧
      ∀ o', objectStep o op = some o' →
        ∃ l', Agrees o' l' ∧ Placed l op l' ∧ Written o op o'.memb := by
  obtain ⟨hinit, hread⟩ := inv_parseJsonObject hparse
  have hinv : ∃ l, Inv o l := by
    refine hrun.invariant (P := fun o => ∃ l, Inv o l) ⟨_, hinit⟩ ?_
    rintro s op s' ⟨l, h⟩ - hstep
    obtain ⟨l', h', -⟩ := h.step hstep
    exact ⟨l', h'⟩
  obtain ⟨l, h⟩ := hinv
  refine ⟨hinit.agrees, hread, l, h.agrees, fun op => ⟨objectStep_isSome_iff o op, ?_⟩⟩
  intro o' hstep
  obtain ⟨l', h', hplaced, hwritten⟩ := h.step hstep
  exact ⟨l', h'.agrees, hplaced, hwritten⟩

/-- The text `{"k": 1}`, then a second `k` in front of the first and an `a` behind it. -/
theorem repeatedName_agrees :
    ∃ o₀ o : JsonObject ℕ,
      parseJsonObject [(0, bytes "k", 1)] = some o₀ ∧
      run (objectStep) o₀
        [.insertBefore (some 0) 1 (bytes "k") 2, .append 2 (bytes "a") 3] = some o ∧
      ∃ l, Agrees o l ∧ o.forEach 3 none = [1, 0, 2] := by
  obtain ⟨o₀, hparse⟩ := Option.isSome_iff_exists.mp
    (by decide : (parseJsonObject (ν := ℕ) [(0, bytes "k", 1)]).isSome = true)
  have hrun : ∃ o, run (objectStep) o₀
      [.insertBefore (some 0) 1 (bytes "k") 2, .append 2 (bytes "a") 3] = some o ∧
      o.forEach 3 none = [1, 0, 2] := by
    cases hparse
    exact ⟨_, rfl, by decide⟩
  obtain ⟨o, hrun, hlist⟩ := hrun
  obtain ⟨-, -, l, hl, -⟩ := object_index_agrees hparse
    (reachable_of_run _ .start hrun)
  exact ⟨o₀, o, hparse, hrun, l, hl, hlist⟩

/-- A name of `INT_MAX` letters: `memcpy(memb->name, name, len + 1)` overflows. -/
theorem longName_undefined :
    strlen (List.replicate intMax 97) = intMax ∧ 0 ∉ List.replicate intMax (97 : UInt8) ∧
      objectStep (JsonObject.empty)
        (.append 0 (List.replicate intMax 97) ()) = none := by
  have hlen : strlen (List.replicate intMax 97) = intMax := by
    rw [strlen, takeWhile_replicate, if_pos (by decide), length_replicate]
  refine ⟨hlen, ?_, ?_⟩
  · rw [mem_replicate]
    exact fun h => absurd h.2 (by decide)
  · rw [objectStep, objectAppend, objectInsert, if_neg]
    rw [hlen]
    exact fun h => lt_irrefl _ h.1

end MyWorkflow.Json
