import MyWorkflow.JsonStore
import MyWorkflow.JsonValues

set_option autoImplicit false

namespace MyWorkflow.Json
open Function List CString Rings Runs RedBlack SearchTree JsonObject

theorem forall_update {β : Type} {f : ℕ → Option β} {m : ℕ} {x : β} {P : β → Prop}
    (hold : ∀ e y, f e = some y → P y) (hnew : P x) :
    ∀ e y, update f m (some x) e = some y → P y := by
  intro e y he
  by_cases hem : e = m
  · rw [hem, update_self] at he
    cases he
    exact hnew
  · rw [update_of_ne hem] at he
    exact hold e y he

theorem forall_erase {β : Type} {f : ℕ → Option β} {m : ℕ} {P : β → Prop}
    (hold : ∀ e y, f e = some y → P y) :
    ∀ e y, update f m none e = some y → P y := by
  intro e y he
  by_cases hem : e = m
  · rw [hem, update_self] at he
    cases he
  · rw [update_of_ne hem] at he
    exact hold e y he

namespace JsonArray

variable {ν : Type} {a a' : JsonArray ν} {l : List ℕ}

structure Linked (a : JsonArray ν) (l : List ℕ) : Prop where
  ring : a.head.Holds l
  live : ∀ m, a.elem m ≠ none ↔ m ∈ l

structure Inv (a : JsonArray ν) (l : List ℕ) : Prop extends Linked a l where
  size : a.size = l.length

theorem Linked.setSize (h : Linked a l) (n : ℕ) : Linked { a with size := n } l := ⟨h.ring, h.live⟩

theorem linked_empty : Linked (empty : JsonArray ν) [] :=
  ⟨Ring.holds_init, fun m => by simp [empty]⟩

theorem Linked.insert {b c : List ℕ} {m : ℕ} {value : ν} (h : Linked a (b ++ c))
    (hinsert : a.insertElement m value b.getLast? = some a') :
    Linked a' (b ++ m :: c) ∧ a'.elem = update a.elem m (some value) ∧
      a'.size = a.size := by
  unfold insertElement at hinsert
  split_ifs at hinsert with hfresh
  cases hinsert
  rw [Option.isNone_iff_eq_none] at hfresh
  have hnew : m ∉ b ++ c := fun hmem => (h.live m).mpr hmem hfresh
  exact ⟨⟨h.ring.add hnew, live_add h.live value⟩, rfl, rfl⟩

theorem Linked.prev_none (h : Linked a l) : a.head.prev none = l.getLast? := by
  have hlinked := h.ring.linked
  rw [← append_nil l] at hlinked
  have hprev := hlinked.prev_eq
  rwa [Ring.lastOr_none] at hprev

theorem Inv.remove {m : ℕ} {value : ν} (h : Inv a l) (hremove : a.arrayRemove m = some (a', value)) :
    ∃ b c, l = b ++ m :: c ∧ Inv a' (b ++ c) ∧ a'.elem = update a.elem m none ∧
      a.elem m = some value := by
  obtain ⟨value, helem, heq⟩ := Option.map_eq_some_iff.mp hremove
  cases heq
  have hmem : m ∈ l := (h.live m).mp (by rw [helem]; simp)
  obtain ⟨b, c, rfl⟩ := append_of_mem hmem
  refine ⟨b, c, rfl, ⟨⟨h.ring.del, live_del h.ring.nodup h.live⟩, ?_⟩, rfl, helem⟩
  change a.size - 1 = _
  rw [h.size, length_append, length_append, length_cons]
  omega

theorem Inv.move (h : Inv a l) : Inv a.moveJsonArray l := ⟨⟨h.ring.splice, h.live⟩, h.size⟩

theorem Inv.setValue {m : ℕ} {v v' : ν} (h : Inv a l) (hv : a.elem m = some v) :
    Inv { a with elem := update a.elem m (some v') } l :=
  ⟨⟨h.ring, live_set hv h.live v'⟩, h.size⟩

theorem Inv.pos {place : Place} (h : Inv a l)
    (hval : place.val.all (fun x => (a.elem x).isSome) = true) :
    ∃ b c, l = b ++ c ∧ place.pos a.head = b.getLast? := by
  have hsome : ∀ x, (a.elem x).isSome = true → ∃ b c, l = b ++ x :: c := by
    intro x hx
    rw [Option.isSome_iff_ne_none] at hx
    exact append_of_mem ((h.live x).mp hx)
  have hlast : ∃ b c, l = b ++ c ∧ a.head.prev none = b.getLast? :=
    ⟨l, [], (append_nil l).symm, h.prev_none⟩
  cases place with
  | append => exact hlast
  | after val =>
    cases val with
    | none => exact ⟨[], l, rfl, rfl⟩
    | some x =>
      obtain ⟨b, c, rfl⟩ := hsome x hval
      exact ⟨b ++ [x], c, by simp, by simp [Place.pos]⟩
  | before val =>
    cases val with
    | none => exact hlast
    | some x =>
      obtain ⟨b, c, rfl⟩ := hsome x hval
      have hprev := h.ring.linked.prev_eq
      rw [Ring.lastOr_none] at hprev
      exact ⟨b, x :: c, rfl, hprev⟩

theorem Inv.put {place : Place} {m : ℕ} {value : ν} (h : Inv a l)
    (hput : arrayPut place m value a = some a') :
    ∃ l', Inv a' l' ∧ a'.elem = update a.elem m (some value) := by
  unfold arrayPut at hput
  split_ifs at hput with hval
  obtain ⟨b, c, rfl, hpos⟩ := h.pos hval
  unfold arrayInsert at hput
  split_ifs at hput
  obtain ⟨a₁, hinsert, rfl⟩ := Option.map_eq_some_iff.mp hput
  rw [hpos] at hinsert
  obtain ⟨hlinked, helem, hsize⟩ := h.toLinked.insert hinsert
  refine ⟨_, ⟨hlinked.setSize _, ?_⟩, helem⟩
  change a₁.size + 1 = _
  rw [hsize, h.size, length_append, length_append, length_cons]
  omega

theorem Linked.parse (es : List (ℕ × ν)) (h : Linked a l) (hn : (l ++ es.map Prod.fst).Nodup) :
    ∃ a', es.foldlM parseElement a = some a' ∧ Linked a' (l ++ es.map Prod.fst) ∧
      (∀ m ∈ l, a'.elem m = a.elem m) ∧ ∀ e ∈ es, a'.elem e.1 = some e.2 := by
  induction es generalizing a l with
  | nil => exact ⟨a, rfl, by simpa using h, fun _ _ => rfl, by simp⟩
  | cons e es ih =>
    obtain ⟨m, value⟩ := e
    have hnew : m ∉ l := by
      rw [map_cons, nodup_middle, nodup_cons, mem_append] at hn
      exact fun hmem => hn.1 (.inl hmem)
    have hfree : a.elem m = none := by
      by_contra hlive
      exact hnew ((h.live m).mp hlive)
    obtain ⟨a₁, hround⟩ : ∃ a₁, a.parseElement (m, value) = some a₁ := by
      simp [parseElement, insertElement, hfree]
    have hround' := hround
    rw [parseElement, h.prev_none] at hround'
    rw [← append_nil l] at h
    obtain ⟨hlinked, helem, -⟩ := h.insert (by simpa using hround')
    obtain ⟨a', hrest, hall, hkept, hread⟩ := ih hlinked (by simpa using hn)
    refine ⟨a', ?_, by simpa using hall, fun x hx => ?_, fun p hp => ?_⟩
    · rw [foldlM_cons, hround]
      exact hrest
    · rw [hkept x (mem_append_left _ hx), helem, update_of_ne]
      rintro rfl
      exact hnew hx
    · obtain rfl | hp := mem_cons.mp hp
      · rw [hkept m (by simp), helem, update_self]
      · exact hread p hp

end JsonArray

section Roots

variable {ν : Type} {o o' : JsonObject ν} {l : List MemberId}

def buildRoot (keys : List Key) : RbRoot Key :=
  keys.foldl (fun root key => insertRoot key root) .empty

def keysOf (memb : MemberId → Option (JsonMember ν)) (l : List MemberId) : List Key :=
  l.map fun m => ⟨m, ((memb m).map JsonMember.name).getD []⟩

theorem keysOf_congr {ν' : Type} {memb : MemberId → Option (JsonMember ν)}
    {memb' : MemberId → Option (JsonMember ν')}
    (h : ∀ m ∈ l, (memb' m).map JsonMember.name = (memb m).map JsonMember.name) :
    keysOf memb' l = keysOf memb l := by
  refine map_congr_left fun m hm => ?_
  rw [h m hm]

theorem keysOf_snoc {memb : MemberId → Option (JsonMember ν)} {m : MemberId} {name : Bytes}
    {value : ν} (hm : m ∉ l) :
    keysOf (update memb m (some ⟨name, value⟩)) (l ++ [m]) =
      keysOf memb l ++ [⟨m, name⟩] := by
  have hold : keysOf (update memb m (some ⟨name, value⟩)) l = keysOf memb l := by
    refine keysOf_congr fun e he => ?_
    rw [update_of_ne]
    rintro rfl
    exact hm he
  rw [← hold]
  simp [keysOf]

theorem keysOf_setValue {memb : MemberId → Option (JsonMember ν)} {m : MemberId} {name : Bytes}
    {v v' : ν} (hm : memb m = some ⟨name, v⟩) :
    keysOf (update memb m (some ⟨name, v'⟩)) l = keysOf memb l := by
  refine keysOf_congr fun e _ => ?_
  by_cases hem : e = m
  · rw [hem, update_self, hm]
    rfl
  · rw [update_of_ne hem]

theorem buildRoot_snoc (keys : List Key) (key : Key) :
    buildRoot (keys ++ [key]) = insertRoot key (buildRoot keys) := by
  simp [buildRoot]

theorem parseMember_root {ms : List (MemberId × Bytes × ν)}
    (h : ms.foldlM (parseMember) o = some o') :
    o'.root = (ms.map fun p => (⟨p.1, p.2.1⟩ : Key)).foldl
      (fun root key => insertRoot key root) o.root := by
  induction ms generalizing o with
  | nil =>
    cases h
    rfl
  | cons p ms ih =>
    obtain ⟨m, name, value⟩ := p
    rw [foldlM_cons] at h
    obtain ⟨o₂, hmember, hrest⟩ := Option.bind_eq_some_iff.mp h
    obtain ⟨o₁, halloc, hinsert⟩ := Option.bind_eq_some_iff.mp hmember
    have hroot : o₁.root = o.root := by
      unfold allocate at halloc
      split_ifs at halloc
      cases halloc
      rfl
    cases hinsert
    rw [ih hrest, map_cons, foldl_cons, ← hroot]
    rfl

theorem parseMember_defined {ms : List (MemberId × Bytes × ν)} (hn : (ms.map Prod.fst).Nodup)
    (hnew : ∀ p ∈ ms, o.memb p.1 = none) : ∃ o', ms.foldlM (parseMember) o = some o' := by
  induction ms generalizing o with
  | nil => exact ⟨o, rfl⟩
  | cons p ms ih =>
    obtain ⟨m, name, value⟩ := p
    rw [map_cons, nodup_cons] at hn
    have hfree : (o.memb m).isNone = true := by
      rw [hnew (m, name, value) mem_cons_self]
      rfl
    obtain ⟨o₁, hround, hmemb⟩ : ∃ o₁, parseMember o (m, name, value) = some o₁ ∧
        o₁.memb = update o.memb m (some ⟨name, value⟩) := by
      rw [parseMember, allocate, if_pos hfree]
      exact ⟨_, rfl, rfl⟩
    have hrest : ∀ p ∈ ms, o₁.memb p.1 = none := by
      intro p hp
      rw [hmemb, update_of_ne]
      · exact hnew p (mem_cons_of_mem _ hp)
      · rintro heq
        exact hn.1 (mem_map.mpr ⟨p, hp, heq⟩)
    obtain ⟨o', ho'⟩ := ih hn.2 hrest
    refine ⟨o', ?_⟩
    rw [foldlM_cons, hround]
    exact ho'

theorem parseMember_built {ms : List (MemberId × Bytes × ν)} (hn : (ms.map Prod.fst).Nodup) :
    ∃ o, ms.foldlM (parseMember) (JsonObject.empty) = some o ∧
      Indexed o (ms.map Prod.fst) ∧ (∀ p ∈ ms, o.memb p.1 = some ⟨p.2.1, p.2.2⟩) ∧
      o.root = buildRoot (keysOf o.memb (ms.map Prod.fst)) := by
  obtain ⟨o, ho⟩ := parseMember_defined (o := JsonObject.empty) hn (fun p _ => rfl)
  obtain ⟨hindexed, -, hread⟩ := indexed_empty.parse ho
  rw [nil_append] at hindexed
  refine ⟨o, ho, hindexed, hread, ?_⟩
  have hkeys : keysOf o.memb (ms.map Prod.fst) = ms.map fun p => (⟨p.1, p.2.1⟩ : Key) := by
    rw [keysOf, map_map]
    refine map_congr_left fun p hp => ?_
    rw [comp_apply, hread p hp]
    rfl
  rw [hkeys]
  exact parseMember_root ho

theorem parseJsonObject_built {ms : List (MemberId × Bytes × ν)}
    (hn : (ms.map Prod.fst).Nodup) (hlen : ms.length ≤ intMax) :
    ∃ o, parseJsonObject ms = some o ∧ JsonObject.Inv o (ms.map Prod.fst) ∧
      (∀ p ∈ ms, o.memb p.1 = some ⟨p.2.1, p.2.2⟩) ∧
      o.root = buildRoot (keysOf o.memb (ms.map Prod.fst)) := by
  obtain ⟨o, ho, hindexed, hread, hroot⟩ := parseMember_built hn
  refine ⟨{ o with size := ms.length }, ?_, ⟨hindexed.setSize _, ?_⟩, hread, hroot⟩
  · rw [parseJsonObject, if_pos hlen, ho]
    rfl
  · exact (length_map Prod.fst).symm

theorem JsonObject.Inv.setValue {m : MemberId} {name : Bytes} {v v' : ν} (h : JsonObject.Inv o l)
    (hv : o.memb m = some ⟨name, v⟩) :
    JsonObject.Inv { o with memb := update o.memb m (some ⟨name, v'⟩) } l := by
  refine ⟨⟨h.ring, live_set hv h.live _, h.nodup, fun key => ?_, h.sorted⟩, h.size⟩
  rw [h.nodes key]
  change _ ↔ ∃ memb, update o.memb m (some ⟨name, v'⟩) key.id = some memb ∧ _
  by_cases he : key.id = m
  · rw [he, update_self, hv]
    simp
  · rw [update_of_ne he]

end Roots

variable {δ : Type}

inductive Sound : StoredValue δ → Prop where
  | string {buffer : Bytes} (length : strlen buffer < intMax) : Sound (.string buffer)
  | number (value : δ) : Sound (.number value)
  | object {obj : JsonObject (StoredValue δ)} {appended : Bool}
      {l : List MemberId} (inv : JsonObject.Inv obj l)
      (values : ∀ m memb, obj.memb m = some memb → Sound memb.value)
      (built : appended = Bool.true → obj.root = buildRoot (keysOf obj.memb l)) :
      Sound (.object obj appended)
  | array {arr : JsonArray (StoredValue δ)} {l : List ℕ} (inv : arr.Inv l)
      (values : ∀ m value, arr.elem m = some value → Sound value) : Sound (.array arr)
  | true : Sound .true
  | false : Sound .false
  | null : Sound .null

theorem strlen_strdup (s : Bytes) : strlen (strdup s) = strlen s := by
  unfold strlen strdup
  rw [takeWhile_idem]

theorem sound_emptyObject :
    Sound (.object (JsonObject.empty) Bool.true : StoredValue δ) := by
  refine .object (l := []) ⟨indexed_empty, rfl⟩ ?_ fun _ => rfl
  intro m memb h
  cases h

theorem sound_emptyArray : Sound (.array .empty : StoredValue δ) := by
  refine .array (l := []) ⟨JsonArray.linked_empty, rfl⟩ ?_
  intro m value h
  cases h

theorem Sound.move {v : StoredValue δ} (h : Sound v) : Sound (moveJsonValue v) := by
  cases h with
  | object inv values built => exact .object inv.move values built
  | array inv values => exact .array inv.move values
  | string length => exact .string length
  | number value => exact .number value
  | true => exact .true
  | false => exact .false
  | null => exact .null

def Keeps (f : StoredValue δ →
    Option (StoredValue δ × Option (StoredValue δ))) : Prop :=
  ∀ v v' taken, Sound v → f v = some (v', taken) → Sound v' ∧ ∀ w, taken = some w → Sound w

theorem objectStep_put {o o' : JsonObject (StoredValue δ)} {place : Place}
    {m : MemberId} {name : Bytes} {value : StoredValue δ}
    (h : objectStep o (place.objectOp m name value) = some o') :
    o.objectInsert m name value (place.pos o.head) = some o' := by
  cases place with
  | append => exact h
  | after val =>
    simp only [Place.objectOp, objectStep, objectInsertAfter] at h
    split_ifs at h
    exact h
  | before val =>
    simp only [Place.objectOp, objectStep, objectInsertBefore] at h
    split_ifs at h
    exact h

theorem objectInsert_root {o o' : JsonObject (StoredValue δ)} {pos : Option MemberId}
    {m : MemberId} {name : Bytes} {value : StoredValue δ}
    (h : o.objectInsert m name value pos = some o') :
    o'.root = insertRoot ⟨m, strdup name⟩ o.root := by
  obtain ⟨o₁, halloc, -, rfl⟩ := objectInsert_eq_some h
  unfold allocate at halloc
  split_ifs at halloc
  cases halloc
  rfl

theorem objectStep_put_memb {o o' : JsonObject (StoredValue δ)} {place : Place}
    {l : List MemberId} {m : MemberId} {name : Bytes} {value : StoredValue δ} (h : JsonObject.Inv o l)
    (hstep : objectStep o (place.objectOp m name value) = some o') :
    (∃ l', JsonObject.Inv o' l') ∧ o.memb m = none ∧
      o'.memb = update o.memb m (some ⟨strdup name, value⟩) := by
  obtain ⟨l', hinv, -, hwritten⟩ := h.step hstep
  cases place with
  | append | after | before => exact ⟨⟨l', hinv⟩, hwritten⟩

theorem putMember_keeps {place : Place} {m : MemberId} {name : Bytes}
    {value : StoredValue δ} (hvalue : Sound value) :
    Keeps (putMember place m name value) := by
  intro v v' taken hv h
  cases hv with
  | object inv values built =>
    rename_i obj appended l
    obtain ⟨obj', hstep, heq⟩ := Option.map_eq_some_iff.mp h
    cases heq
    obtain ⟨⟨l', hinv⟩, hfree, hmemb⟩ := objectStep_put_memb inv hstep
    have hinsert := objectStep_put hstep
    have hvalues : ∀ e memb, obj'.memb e = some memb → Sound memb.value := by
      rw [hmemb]
      exact forall_update values hvalue
    refine ⟨?_, by simp⟩
    by_cases hpos : place.pos obj.head = obj.head.prev none
    · -- the new member is the last one of the list
      rw [hpos] at hinsert
      obtain ⟨hlast, -⟩ := inv.append hinsert
      refine .object hlast hvalues fun hflag => ?_
      rw [Bool.and_eq_true] at hflag
      have hnew : m ∉ l := fun hmem => (inv.live m).mpr hmem hfree
      rw [objectInsert_root hinsert, built hflag.1, hmemb, keysOf_snoc hnew, buildRoot_snoc]
    · refine .object hinv hvalues fun hflag => ?_
      rw [Bool.and_eq_true, beq_iff_eq] at hflag
      exact absurd hflag.2 hpos
  | _ => cases h

theorem takeMember_keeps (m : MemberId) :
    Keeps (takeMember m : StoredValue δ → _) := by
  intro v v' taken hv h
  cases hv with
  | object inv values built =>
    rename_i obj appended l
    obtain ⟨⟨obj', value⟩, hremove, heq⟩ := Option.map_eq_some_iff.mp h
    cases heq
    obtain ⟨a, b, -, hinv, hmemb, name, hm⟩ := inv.remove hremove
    refine ⟨.object hinv ?_ (by simp), ?_⟩
    · rw [hmemb]
      exact forall_erase values
    · intro w hw
      cases hw
      exact (values m _ hm).move
  | _ => cases h

theorem putElement_keeps {place : Place} {m : ℕ} {value : StoredValue δ}
    (hvalue : Sound value) : Keeps (putElement place m value) := by
  intro v v' taken hv h
  cases hv with
  | array inv values =>
    obtain ⟨arr', hput, heq⟩ := Option.map_eq_some_iff.mp h
    cases heq
    obtain ⟨l', hinv, helem⟩ := inv.put hput
    refine ⟨.array hinv ?_, by simp⟩
    rw [helem]
    exact forall_update values hvalue
  | _ => cases h

theorem takeElement_keeps (m : ℕ) : Keeps (takeElement m : StoredValue δ → _) := by
  intro v v' taken hv h
  cases hv with
  | array inv values =>
    obtain ⟨⟨arr', value⟩, hremove, heq⟩ := Option.map_eq_some_iff.mp h
    cases heq
    obtain ⟨a, b, -, hinv, helem, hm⟩ := inv.remove hremove
    refine ⟨.array hinv ?_, ?_⟩
    · rw [helem]
      exact forall_erase values
    · intro w hw
      cases hw
      exact (values m _ hm).move
  | _ => cases h

theorem Keeps.editAt {f : StoredValue δ →
    Option (StoredValue δ × Option (StoredValue δ))} (hf : Keeps f)
    (path : List ℕ) : Keeps (editAt f path) := by
  induction path with
  | nil => exact hf
  | cons m path ih =>
    intro v v' taken hv h
    cases hv with
    | object inv values built =>
      rename_i obj appended l
      obtain ⟨⟨name, w⟩, hm, h⟩ := Option.bind_eq_some_iff.mp h
      obtain ⟨⟨w', taken'⟩, hedit, heq⟩ := Option.bind_eq_some_iff.mp h
      cases heq
      obtain ⟨hw', htaken⟩ := ih w w' taken (values m _ hm) hedit
      refine ⟨.object (inv.setValue hm) ?_ fun hflag => ?_, htaken⟩
      · exact forall_update values hw'
      · exact (built hflag).trans (congrArg (buildRoot) (keysOf_setValue hm).symm)
    | array inv values =>
      rename_i arr l
      obtain ⟨w, hm, h⟩ := Option.bind_eq_some_iff.mp h
      obtain ⟨⟨w', taken'⟩, hedit, heq⟩ := Option.bind_eq_some_iff.mp h
      cases heq
      obtain ⟨hw', htaken⟩ := ih w w' taken (values m _ hm) hedit
      exact ⟨.array (inv.setValue hm) (forall_update values hw'), htaken⟩
    | _ => cases h

theorem Characters.buffer_le {plain : UInt8 → Prop} {t u : Bytes} {n : ℕ}
    (h : Characters plain t u n) : u.length ≤ n := by
  induction h with
  | nil => exact le_rfl
  | plain _ _ _ _ ih =>
    simp only [length_cons]
    omega
  | escape _ _ ih =>
    simp only [length_cons]
    omega
  | @unicode h t u k n c hex _ ih =>
    have hutf8 := Char.utf8Size_le_four c
    have hk : 4 ≤ k := by
      cases hex with
      | single => exact le_rfl
      | surrogates => omega
    rw [length_append, String.length_utf8EncodeChar]
    omega

inductive Bounded : JsonValue → Prop where
  | string {buffer : Bytes} (h : buffer.length < intMax) : Bounded (.string buffer)
  | number (n : JsonNumber) : Bounded (.number n)
  | object {size : ℕ} {members : List (Bytes × JsonValue)} (length : members.length ≤ intMax)
      (values : ∀ p ∈ members, Bounded p.2) : Bounded (.object size members)
  | array {size : ℕ} {elements : List JsonValue} (length : elements.length ≤ intMax)
      (values : ∀ v ∈ elements, Bounded v) : Bounded (.array size elements)
  | true : Bounded .true
  | false : Bounded .false
  | null : Bounded .null

theorem scalar_bounded {t : Bytes} {v : JsonValue} (h : Scalar InInt t v) : Bounded v := by
  cases h with
  | string h =>
    obtain ⟨u, n, -, hchars, hn⟩ := h
    have hle := hchars.buffer_le
    have hlt := (inInt_string n).mp hn
    exact .string (by omega)
  | number _ => exact .number _
  | true => exact .true
  | false => exact .false
  | null => exact .null

theorem Items.forall {α : Type} {R : Bytes → α → Prop} {P : α → Prop} {close : UInt8} {t : Bytes}
    {size : ℕ} {as : List α} (h : Items InInt R close t (size, as))
    (hP : ∀ u a, R u a → P a) : as.length ≤ intMax ∧ ∀ a ∈ as, P a := by
  cases h with
  | none _ => exact ⟨Nat.zero_le _, by simp⟩
  | some _ h hfits => exact ⟨hfits, h.forall hP⟩

theorem value_bounded (room : ℕ) : ∀ t v, Value InInt room t v → Bounded v := by
  induction room with
  | zero =>
    intro t v h
    exact scalar_bounded h
  | succ room ih =>
    rintro t v (h | h)
    · exact scalar_bounded h
    · cases h with
      | object h =>
        obtain ⟨hlen, hall⟩ := h.forall (P := fun p => Bounded p.2) (by
          rintro u _ ⟨-, -, -, hv⟩
          exact ih _ _ hv)
        exact .object hlen hall
      | array h =>
        obtain ⟨hlen, hall⟩ := h.forall ih
        exact .array hlen hall

theorem strlen_le_length (s : Bytes) : strlen s ≤ s.length :=
  ( takeWhile_prefix _).length_le

variable {evaluate : JsonNumber → δ}

theorem loadMembers_spec {members : List (Bytes × JsonValue)} (n : ℕ)
    (h : ∀ p ∈ members, ∃ w, load evaluate p.2 = some w ∧ Sound w) :
    ∃ ms, loadMembers evaluate members n = some ms ∧
      ms.map Prod.fst = List.range' n members.length ∧
      ms.map (fun p => p.2.1) = members.map Prod.fst ∧ ∀ p ∈ ms, Sound p.2.2 := by
  induction members generalizing n with
  | nil => exact ⟨[], by rw [loadMembers], rfl, rfl, by simp⟩
  | cons p members ih =>
    obtain ⟨name, value⟩ := p
    obtain ⟨hhead, htail⟩ := forall_mem_cons.mp h
    obtain ⟨w, hw, hsound⟩ := hhead
    obtain ⟨ms, hms, hids, hnames, hall⟩ := ih (n + 1) htail
    refine ⟨(n, name, w) :: ms, ?_, ?_, ?_, ?_⟩
    · rw [loadMembers, hw, hms]
      rfl
    · rw [map_cons, hids]
      rfl
    · rw [map_cons, hnames]
      rfl
    · exact forall_mem_cons.mpr ⟨hsound, hall⟩

theorem loadElements_spec {elements : List JsonValue} (n : ℕ)
    (h : ∀ v ∈ elements, ∃ w, load evaluate v = some w ∧ Sound w) :
    ∃ es, loadElements evaluate elements n = some es ∧
      es.map Prod.fst = List.range' n elements.length ∧ ∀ e ∈ es, Sound e.2 := by
  induction elements generalizing n with
  | nil => exact ⟨[], by rw [loadElements], rfl, by simp⟩
  | cons v elements ih =>
    obtain ⟨hhead, htail⟩ := forall_mem_cons.mp h
    obtain ⟨w, hw, hsound⟩ := hhead
    obtain ⟨es, hes, hids, hall⟩ := ih (n + 1) htail
    refine ⟨(n, w) :: es, ?_, ?_, ?_⟩
    · rw [loadElements, hw, hes]
      rfl
    · rw [map_cons, hids]
      rfl
    · exact forall_mem_cons.mpr ⟨hsound, hall⟩

theorem loadObject_spec (evaluate : JsonNumber → δ) (size : ℕ)
    {members : List (Bytes × JsonValue)}
    (hlen : members.length ≤ intMax)
    (h : ∀ p ∈ members, ∃ w, load evaluate p.2 = some w ∧ Sound w) :
    ∃ ms o, load evaluate (.object size members) = some (.object o Bool.true) ∧
      Sound (.object o Bool.true) ∧ parseJsonObject ms = some o ∧
      ms.map (fun p => p.2.1) = members.map Prod.fst := by
  obtain ⟨ms, hms, hids, hnamed, hall⟩ := loadMembers_spec 0 h
  have hn : (ms.map Prod.fst).Nodup := by
    rw [hids]
    exact nodup_range'
  have hlen' : ms.length ≤ intMax := by
    have := congrArg List.length hnamed
    rw [length_map, length_map] at this
    omega
  obtain ⟨o, ho, hinv, hread, hroot⟩ := parseJsonObject_built hn hlen'
  have hmemb : ∀ m memb, o.memb m = some memb → ∃ p ∈ ms, memb = ⟨p.2.1, p.2.2⟩ := by
    intro m memb hm
    obtain ⟨p, hp, rfl⟩ := mem_map.mp ((hinv.live m).mp (by rw [hm]; simp))
    rw [hread p hp] at hm
    cases hm
    exact ⟨p, hp, rfl⟩
  refine ⟨ms, o, ?_, .object hinv ?_ fun _ => hroot, ho, hnamed⟩
  · rw [load, hms]
    simp [ho]
  · intro m memb hm
    obtain ⟨p, hp, rfl⟩ := hmemb m memb hm
    exact hall p hp

theorem loadArray_spec {size : ℕ} {elements : List JsonValue} (hlen : elements.length ≤ intMax)
    (h : ∀ v ∈ elements, ∃ w, load evaluate v = some w ∧ Sound w) :
    ∃ w, load evaluate (.array size elements) = some w ∧ Sound w := by
  obtain ⟨es, hes, hids, hall⟩ := loadElements_spec 0 h
  have hn : (es.map Prod.fst).Nodup := by
    rw [hids]
    exact nodup_range'
  have hlen' : es.length ≤ intMax := by
    have := congrArg List.length hids
    rw [length_map, length_range'] at this
    omega
  obtain ⟨a, ha, hlinked, -, hread⟩ := JsonArray.linked_empty.parse es (by simpa using hn)
  rw [nil_append] at hlinked
  refine ⟨.array { a with size := es.length }, ?_, .array ⟨hlinked.setSize _, by simp⟩ ?_⟩
  · rw [load, hes]
    simp [JsonArray.parseJsonArray, hlen', ha]
  · intro m value hm
    change a.elem m = some value at hm
    obtain ⟨e, he, rfl⟩ := mem_map.mp ((hlinked.live m).mp (by rw [hm]; simp))
    rw [hread e he] at hm
    cases hm
    exact hall e he

theorem Bounded.load_sound {v : JsonValue} (h : Bounded v) :
    ∃ w, load evaluate v = some w ∧ Sound w := by
  induction h with
  | string h => exact ⟨_, by rw [load], .string ((strlen_le_length _).trans_lt h)⟩
  | number n => exact ⟨_, by rw [load], .number _⟩
  | object length _ ih =>
    obtain ⟨ms, o, hload, hsound, -⟩ := loadObject_spec evaluate _ length ih
    exact ⟨_, hload, hsound⟩
  | array length _ ih => exact loadArray_spec length ih
  | true => exact ⟨_, by rw [load], .true⟩
  | false => exact ⟨_, by rw [load], .false⟩
  | null => exact ⟨_, by rw [load], .null⟩

theorem load_parsed (evaluate : JsonNumber → δ) {text : Bytes} {v : JsonValue}
    (h : jsonValueParse text = .value v) :
    ∃ w, load evaluate v = some w ∧ Sound w := by
  obtain ⟨w, t, w', -, -, hvalue, -⟩ := (jsonValueParse_iff text v).mp h
  exact (value_bounded _ _ _ hvalue).load_sound

end MyWorkflow.Json
