import MyWorkflow.JsonSound

set_option autoImplicit false

namespace MyWorkflow.Json
open List CString Rings Runs RedBlack SearchTree JsonObject

/-! ## Loops with entries that are all there -/

section Loops

variable {α β γ : Type} {l : List α}

theorem mapM_congr_left {f g : α → Option β} (h : ∀ x ∈ l, g x = f x) : l.mapM g = l.mapM f := by
  induction l with
  | nil => rfl
  | cons x l ih =>
    obtain ⟨hx, hl⟩ := forall_mem_cons.mp h
    rw [mapM_cons, mapM_cons, hx, ih hl]

theorem mapM_defined {f : α → Option β} (h : ∀ x ∈ l, ∃ y, f x = some y) :
    ∃ ys, l.mapM f = some ys := by
  induction l with
  | nil => exact ⟨[], rfl⟩
  | cons x l ih =>
    obtain ⟨⟨y, hy⟩, hl⟩ := forall_mem_cons.mp h
    obtain ⟨ys, hys⟩ := ih hl
    refine ⟨y :: ys, ?_⟩
    rw [mapM_cons, hy, hys]
    rfl

def entries (f : α → Option β) (l : List α) : List (α × β) :=
  l.filterMap fun x => (f x).map (x, ·)

theorem entries_fst {f : α → Option β} (h : ∀ x ∈ l, ∃ y, f x = some y) :
    (entries f l).map Prod.fst = l := by
  induction l with
  | nil => rfl
  | cons x l ih =>
    obtain ⟨⟨y, hy⟩, hl⟩ := forall_mem_cons.mp h
    rw [entries, filterMap_cons_some (b := (x, y)) (by rw [hy]; rfl), map_cons]
    exact congrArg (x :: ·) (ih hl)

theorem mem_entries {f : α → Option β} {x : α} {y : β} (hx : x ∈ l) (hy : f x = some y) :
    (x, y) ∈ entries f l :=
  mem_filterMap.mpr ⟨x, hx, by rw [hy]; rfl⟩

theorem foldlM_entries {f : α → Option β} {g : γ → α × β → Option γ}
    (h : ∀ x ∈ l, ∃ y, f x = some y) (init : γ) :
    l.foldlM (fun dest x => (f x).bind fun y => g dest (x, y)) init = (entries f l).foldlM g init := by
  induction l generalizing init with
  | nil => rfl
  | cons x l ih =>
    obtain ⟨⟨y, hy⟩, hl⟩ := forall_mem_cons.mp h
    rw [entries, filterMap_cons_some (b := (x, y)) (by rw [hy]; rfl), foldlM_cons,
      foldlM_cons, hy]
    exact bind_congr fun dest => ih hl dest

theorem defined_of_foldlM {f : α → Option β} {g : γ → α × β → Option γ} {init r : γ}
    (h : l.foldlM (fun dest x => (f x).bind fun y => g dest (x, y)) init = some r) :
    ∀ x ∈ l, ∃ y, f x = some y := by
  induction l generalizing init with
  | nil => simp
  | cons x l ih =>
    rw [foldlM_cons] at h
    obtain ⟨dest, hx, hl⟩ := Option.bind_eq_some_iff.mp h
    obtain ⟨y, hy, -⟩ := Option.bind_eq_some_iff.mp hx
    exact forall_mem_cons.mpr ⟨⟨y, hy⟩, ih hl⟩

end Loops

/-! ## One container -/

variable {δ : Type}

theorem read_object {o : JsonObject (StoredValue δ)} {b : Bool} {l : List MemberId}
    (h : JsonObject.Inv o l) : StoredValue.read (.object o b) =
      (l.mapM fun m => readMember (o.memb m)).map (.object o.size) := by
  have hlist := h.ring.forward_eq (n := o.size + 1) (by rw [h.size]; omega)
  rw [StoredValue.read, hlist]

theorem read_array {a : JsonArray (StoredValue δ)} {l : List ℕ} (h : a.Inv l) :
    StoredValue.read (.array a) =
      (l.mapM fun m => readElement (a.elem m)).map (.array a.size) := by
  have hlist := h.ring.forward_eq (n := a.size + 1) (by rw [h.size]; omega)
  rw [StoredValue.read, hlist]

theorem copy_object {o : JsonObject (StoredValue δ)} {l : List MemberId} (b : Bool)
    (h : JsonObject.Inv o l) (hcopy : ∀ m ∈ l, ∃ e, copyMember (o.memb m) = some e) :
    ∃ o', copyJsonValue (.object o b) = some (.object o' Bool.true) ∧ JsonObject.Inv o' l ∧
      (∀ m, o'.memb m = copyMember (o.memb m)) ∧
      o'.root = buildRoot (keysOf o'.memb l) := by
  have hlist := h.ring.forward_eq (n := o.size + 1) (by rw [h.size]; omega)
  let ms := (entries (fun m => copyMember (o.memb m)) l).map
    fun p => (p.1, p.2.name, p.2.value)
  have hids : ms.map Prod.fst = l := by
    rw [map_map]
    exact entries_fst hcopy
  obtain ⟨dest, hdest, hindexed, hread, hroot⟩ :=
    parseMember_built (hids.symm ▸ h.ring.nodup)
  rw [hids] at hindexed hroot
  refine ⟨{ dest with size := o.size }, ?_, ⟨hindexed.setSize _, h.size⟩, ?_, hroot⟩
  · have hloop := foldlM_entries (g := fun dest (p : MemberId × JsonMember (StoredValue δ)) =>
      parseMember dest (p.1, p.2.name, p.2.value)) hcopy (JsonObject.empty)
    rw [foldlM_map] at hdest
    rw [hdest] at hloop
    rw [copyJsonValue, hlist]
    exact congrArg _ hloop
  · intro m
    change dest.memb m = _
    by_cases hm : m ∈ l
    · obtain ⟨e, he⟩ := hcopy m hm
      rw [he, hread _ (mem_map.mpr ⟨_, mem_entries hm he, rfl⟩)]
    · have hnone : o.memb m = none := by
        by_contra hlive
        exact hm ((h.live m).mp hlive)
      have hnone' : dest.memb m = none := by
        by_contra hlive
        exact hm ((hindexed.live m).mp hlive)
      rw [hnone, hnone', copyMember]

theorem copy_array {a : JsonArray (StoredValue δ)} {l : List ℕ} (h : a.Inv l)
    (hcopy : ∀ m ∈ l, ∃ v, copyElement (a.elem m) = some v) :
    ∃ a', copyJsonValue (.array a) = some (.array a') ∧ a'.Inv l ∧
      ∀ m, a'.elem m = copyElement (a.elem m) := by
  have hlist := h.ring.forward_eq (n := a.size + 1) (by rw [h.size]; omega)
  have hids := entries_fst hcopy
  obtain ⟨dest, hdest, hlinked, -, hread⟩ := JsonArray.linked_empty.parse
    (entries (fun m => copyElement (a.elem m)) l) (by rw [hids]; exact h.ring.nodup)
  rw [hids, nil_append] at hlinked
  refine ⟨{ dest with size := a.size }, ?_, ⟨hlinked.setSize _, h.size⟩, ?_⟩
  · have hloop := foldlM_entries (g := JsonArray.parseElement) hcopy JsonArray.empty
    rw [hdest] at hloop
    rw [copyJsonValue, hlist]
    exact congrArg _ hloop
  · intro m
    change dest.elem m = _
    by_cases hm : m ∈ l
    · obtain ⟨v, hv⟩ := hcopy m hm
      rw [hv, hread _ (mem_entries hm hv)]
    · have hnone : a.elem m = none := by
        by_contra hlive
        exact hm ((h.live m).mp hlive)
      have hnone' : dest.elem m = none := by
        by_contra hlive
        exact hm ((hlinked.live m).mp hlive)
      rw [hnone, hnone', copyElement]

/-! ## Whole values -/

theorem copyMember_some {name : Bytes} {value value' : StoredValue δ}
    (hname : strlen name < intMax) (hcopy : copyJsonValue value = some value') :
    copyMember (some ⟨name, value⟩) = some ⟨strdup name, value'⟩ := by
  rw [copyMember, if_pos hname, hcopy]
  rfl

theorem strdup_strdup (s : Bytes) : strdup (strdup s) = strdup s := takeWhile_idem

structure CopyOf (v v' : StoredValue δ) : Prop where
  copied : copyJsonValue v = some v'
  sound : Sound v'
  reads : ∃ r, StoredValue.read v = some r ∧ StoredValue.read v' = some r

theorem copyOf_object {o : JsonObject (StoredValue δ)} {b : Bool}
    {l : List MemberId} (h : JsonObject.Inv o l)
    (hnames : ∀ m memb, o.memb m = some memb → strlen memb.name < intMax)
    (hvalues : ∀ m memb, o.memb m = some memb → ∃ v', CopyOf memb.value v') :
    ∃ o', CopyOf (.object o b) (.object o' Bool.true) ∧ JsonObject.Inv o' l ∧
      (∀ m name value, o.memb m = some ⟨name, value⟩ →
        ∃ value', o'.memb m = some ⟨strdup name, value'⟩ ∧ CopyOf value value') ∧
      o'.root = buildRoot (keysOf o'.memb l) := by
  have hmember : ∀ m ∈ l, ∃ name value value', o.memb m = some ⟨name, value⟩ ∧
      CopyOf value value' ∧ copyMember (o.memb m) = some ⟨strdup name, value'⟩ := by
    intro m hm
    obtain ⟨⟨name, value⟩, hmemb⟩ := Option.ne_none_iff_exists'.mp ((h.live m).mpr hm)
    obtain ⟨value', hcopy⟩ := hvalues m _ hmemb
    refine ⟨name, value, value', hmemb, hcopy, ?_⟩
    rw [hmemb]
    exact copyMember_some (hnames m _ hmemb) hcopy.copied
  obtain ⟨o', hcopy, hinv, hmemb, hroot⟩ := copy_object b h (by
    intro m hm
    obtain ⟨name, value, value', -, -, he⟩ := hmember m hm
    exact ⟨_, he⟩)
  have hall : ∀ m name value, o.memb m = some ⟨name, value⟩ →
      ∃ value', o'.memb m = some ⟨strdup name, value'⟩ ∧ CopyOf value value' := by
    intro m name value hm
    obtain ⟨name₁, value₁, value', hm₁, hvalue, he⟩ :=
      hmember m ((h.live m).mp (by rw [hm]; simp))
    rw [hm] at hm₁
    cases hm₁
    exact ⟨value', (hmemb m).trans he, hvalue⟩
  refine ⟨o', ⟨hcopy, .object hinv ?_ fun _ => hroot, ?_⟩, hinv, hall, hroot⟩
  · intro m memb' hm
    obtain ⟨name, value, value', -, hvalue, he⟩ := hmember m ((hinv.live m).mp (by rw [hm]; simp))
    rw [hmemb m, he] at hm
    cases hm
    exact hvalue.sound
  · have hread : ∀ m ∈ l, ∃ r, readMember (o.memb m) = some r ∧
        readMember (o'.memb m) = some r := by
      intro m hm
      obtain ⟨name, value, value', hold, hvalue, he⟩ := hmember m hm
      obtain ⟨r, hr, hr'⟩ := hvalue.reads
      refine ⟨(strdup name, r), ?_, ?_⟩
      · rw [hold, readMember, hr]
        rfl
      · rw [hmemb m, he, readMember, hr', strdup_strdup]
        rfl
    obtain ⟨rs, hrs⟩ := mapM_defined (f := fun m => readMember (o.memb m)) (by
      intro m hm
      obtain ⟨r, hr, -⟩ := hread m hm
      exact ⟨r, hr⟩)
    have hsame : (l.mapM fun m => readMember (o'.memb m)) = some rs := by
      rw [← hrs]
      refine mapM_congr_left fun m hm => ?_
      obtain ⟨r, hr, hr'⟩ := hread m hm
      rw [hr, hr']
    refine ⟨.object o.size rs, ?_, ?_⟩
    · rw [read_object h, hrs]
      rfl
    · rw [read_object hinv, hsame, hinv.size, ← h.size]
      rfl

theorem copyOf_array {a : JsonArray (StoredValue δ)} {l : List ℕ} (h : a.Inv l)
    (hvalues : ∀ m value, a.elem m = some value → ∃ v', CopyOf value v') :
    ∃ a', CopyOf (.array a) (.array a') ∧ a'.Inv l ∧
      ∀ m value, a.elem m = some value →
        ∃ value', a'.elem m = some value' ∧ CopyOf value value' := by
  have helement : ∀ m ∈ l, ∃ value value', a.elem m = some value ∧
      CopyOf value value' ∧ copyElement (a.elem m) = some value' := by
    intro m hm
    obtain ⟨value, helem⟩ := Option.ne_none_iff_exists'.mp ((h.live m).mpr hm)
    obtain ⟨value', hcopy⟩ := hvalues m _ helem
    refine ⟨value, value', helem, hcopy, ?_⟩
    rw [helem, copyElement]
    exact hcopy.copied
  obtain ⟨a', hcopy, hinv, helem⟩ := copy_array h (by
    intro m hm
    obtain ⟨value, value', -, -, he⟩ := helement m hm
    exact ⟨_, he⟩)
  have hall : ∀ m value, a.elem m = some value →
      ∃ value', a'.elem m = some value' ∧ CopyOf value value' := by
    intro m value hm
    obtain ⟨value₁, value', hm₁, hvalue, he⟩ := helement m ((h.live m).mp (by rw [hm]; simp))
    rw [hm] at hm₁
    cases hm₁
    exact ⟨value', (helem m).trans he, hvalue⟩
  refine ⟨a', ⟨hcopy, .array hinv ?_, ?_⟩, hinv, hall⟩
  · intro m value' hm
    obtain ⟨value, value₁, -, hvalue, he⟩ := helement m ((hinv.live m).mp (by rw [hm]; simp))
    rw [helem m, he] at hm
    cases hm
    exact hvalue.sound
  · have hread : ∀ m ∈ l, ∃ r, readElement (a.elem m) = some r ∧
        readElement (a'.elem m) = some r := by
      intro m hm
      obtain ⟨value, value', hold, hvalue, he⟩ := helement m hm
      obtain ⟨r, hr, hr'⟩ := hvalue.reads
      refine ⟨r, ?_, ?_⟩
      · rw [hold, readElement, hr]
      · rw [helem m, he, readElement, hr']
    obtain ⟨rs, hrs⟩ := mapM_defined (f := fun m => readElement (a.elem m)) (by
      intro m hm
      obtain ⟨r, hr, -⟩ := hread m hm
      exact ⟨r, hr⟩)
    have hsame : (l.mapM fun m => readElement (a'.elem m)) = some rs := by
      rw [← hrs]
      refine mapM_congr_left fun m hm => ?_
      obtain ⟨r, hr, hr'⟩ := hread m hm
      rw [hr, hr']
    refine ⟨.array a.size rs, ?_, ?_⟩
    · rw [read_array h, hrs]
      rfl
    · rw [read_array hinv, hsame, hinv.size, ← h.size]
      rfl

/-- No object in the value has a name of `INT_MAX` bytes, which a parsed one can have. -/
def ShortNames (v : StoredValue δ) : Prop :=
  ∀ path o appended, valueAt path v = some (.object o appended) →
    ∀ m memb, o.memb m = some memb → strlen memb.name < intMax

theorem ShortNames.child {v w : StoredValue δ} {m : ℕ} (h : ShortNames v)
    (hm : child m v = some w) : ShortNames w := by
  intro path o appended ho
  refine h (m :: path) o appended ?_
  rw [valueAt, hm]
  exact ho

theorem ShortNames.member {o : JsonObject (StoredValue δ)} {b : Bool}
    {m : MemberId} {memb : JsonMember (StoredValue δ)} (h : ShortNames (.object o b))
    (hm : o.memb m = some memb) : ShortNames memb.value :=
  h.child (by rw [Json.child, hm]; rfl)

theorem Sound.copyOf {v : StoredValue δ} (h : Sound v) (hshort : ShortNames v) :
    ∃ v', CopyOf v v' := by
  induction h with
  | @string buffer length =>
    refine ⟨.string (strdup buffer), ?_, .string ?_, .string (strdup buffer), ?_, ?_⟩
    · rw [copyJsonValue, if_pos length]
    · rw [strlen_strdup]
      exact length
    · rw [StoredValue.read]
    · rw [StoredValue.read, strdup_strdup]
  | number value =>
    exact ⟨.number value, by rw [copyJsonValue], .number value, .number value,
      by rw [StoredValue.read], by rw [StoredValue.read]⟩
  | object inv _ _ ih =>
    obtain ⟨o', hcopy, -⟩ := copyOf_object inv (hshort [] _ _ rfl) fun m memb hm =>
      ih m memb hm (hshort.member hm)
    exact ⟨_, hcopy⟩
  | array inv _ ih =>
    obtain ⟨a', hcopy, -⟩ := copyOf_array inv fun m value hm => ih m value hm (hshort.child hm)
    exact ⟨_, hcopy⟩
  | true =>
    exact ⟨.true, by rw [copyJsonValue], .true, .true, by rw [StoredValue.read],
      by rw [StoredValue.read]⟩
  | false =>
    exact ⟨.false, by rw [copyJsonValue], .false, .false, by rw [StoredValue.read],
      by rw [StoredValue.read]⟩
  | null =>
    exact ⟨.null, by rw [copyJsonValue], .null, .null, by rw [StoredValue.read],
      by rw [StoredValue.read]⟩

theorem Sound.shortNames {v v' : StoredValue δ} (h : Sound v)
    (hcopy : copyJsonValue v = some v') : ShortNames v := by
  induction h generalizing v' with
  | @object obj b l inv _ _ ih =>
    rw [copyJsonValue, inv.ring.forward_eq (n := obj.size + 1) (by rw [inv.size]; omega)] at hcopy
    obtain ⟨dest, hloop, -⟩ := Option.map_eq_some_iff.mp hcopy
    have hmember : ∀ m memb, obj.memb m = some memb →
        strlen memb.name < intMax ∧ ShortNames memb.value := by
      intro m memb hm
      obtain ⟨entry, hentry⟩ := defined_of_foldlM
        (g := fun dest (p : MemberId × JsonMember (StoredValue δ)) =>
          parseMember dest (p.1, p.2.name, p.2.value)) hloop m
        ((inv.live m).mp (by rw [hm]; simp))
      rw [hm, copyMember] at hentry
      split_ifs at hentry with hname
      obtain ⟨value, hvalue, -⟩ := Option.map_eq_some_iff.mp hentry
      exact ⟨hname, ih m memb hm hvalue⟩
    intro path o appended ho m memb hm
    cases path with
    | nil =>
      cases ho
      exact (hmember m memb hm).1
    | cons e path =>
      obtain ⟨w, hw, ho⟩ := Option.bind_eq_some_iff.mp ho
      obtain ⟨entry, hentry, rfl⟩ := Option.map_eq_some_iff.mp hw
      exact (hmember e entry hentry).2 path o appended ho m memb hm
  | @array arr l inv _ ih =>
    rw [copyJsonValue, inv.ring.forward_eq (n := arr.size + 1) (by rw [inv.size]; omega)] at hcopy
    obtain ⟨dest, hloop, -⟩ := Option.map_eq_some_iff.mp hcopy
    intro path o appended ho m memb hm
    cases path with
    | nil => cases ho
    | cons e path =>
      obtain ⟨w, hw, ho⟩ := Option.bind_eq_some_iff.mp ho
      obtain ⟨value, hvalue⟩ := defined_of_foldlM (g := JsonArray.parseElement) hloop e
        ((inv.live e).mp (by rw [show arr.elem e = some w from hw]; simp))
      rw [show arr.elem e = some w from hw, copyElement] at hvalue
      exact ih e w hw hvalue path o appended ho m memb hm
  | string | number | true | false | null =>
    intro path o appended ho
    cases path <;> cases ho

/-! ## Values inside a copy -/

theorem CopyOf.object {o : JsonObject (StoredValue δ)} {b : Bool}
    {v' : StoredValue δ} (h : CopyOf (.object o b) v') (hv : Sound (.object o b))
    (hshort : ShortNames (.object o b)) :
    ∃ o' l, v' = .object o' Bool.true ∧ JsonObject.Inv o l ∧ JsonObject.Inv o' l ∧
      (∀ m name value, o.memb m = some ⟨name, value⟩ →
        ∃ value', o'.memb m = some ⟨strdup name, value'⟩ ∧ CopyOf value value') ∧
      o'.root = buildRoot (keysOf o'.memb l) ∧
      (b = Bool.true → o.root = buildRoot (keysOf o.memb l)) := by
  cases hv with
  | @object _ _ l inv values built =>
    obtain ⟨o', hcopy, hinv, hall, hroot⟩ := copyOf_object (b := b) inv (hshort [] _ _ rfl)
      fun m memb hm => (values m memb hm).copyOf (hshort.member hm)
    have hsame := h.copied.symm.trans hcopy.copied
    cases hsame
    exact ⟨o', l, rfl, inv, hinv, hall, hroot, built⟩

theorem CopyOf.child {v v' w : StoredValue δ} {m : ℕ} (h : CopyOf v v') (hv : Sound v)
    (hshort : ShortNames v) (hm : child m v = some w) :
    Sound w ∧ ∃ w', child m v' = some w' ∧ CopyOf w w' := by
  have hv' := hv
  cases hv with
  | @object o b l inv values built =>
    obtain ⟨⟨name, value⟩, hmemb, rfl⟩ := Option.map_eq_some_iff.mp hm
    obtain ⟨o', -, rfl, -, -, hall, -⟩ := h.object hv' hshort
    obtain ⟨value', hmemb', hcopy⟩ := hall m name value hmemb
    refine ⟨values m _ hmemb, value', ?_, hcopy⟩
    rw [Json.child, hmemb']
    rfl
  | array inv values =>
    obtain ⟨a', hcopy, -, hall⟩ := copyOf_array inv fun m value hm =>
      (values m value hm).copyOf (hshort.child hm)
    have hsame := h.copied.symm.trans hcopy.copied
    cases hsame
    exact ⟨values m w hm, hall m w hm⟩
  | _ => cases hm

theorem CopyOf.valueAt {v v' w : StoredValue δ} (path : List ℕ) (h : CopyOf v v')
    (hv : Sound v) (hshort : ShortNames v) (hw : valueAt path v = some w) :
    Sound w ∧ ShortNames w ∧ ∃ w', valueAt path v' = some w' ∧ CopyOf w w' := by
  induction path generalizing v v' with
  | nil =>
    cases hw
    exact ⟨hv, hshort, v', rfl, h⟩
  | cons m path ih =>
    obtain ⟨u, hu, hw⟩ := Option.bind_eq_some_iff.mp hw
    obtain ⟨hsound, u', hu', hcopy⟩ := h.child hv hshort hu
    obtain ⟨hw', hshort', w', hpath, hcopy'⟩ := ih hcopy hsound (hshort.child hu) hw
    refine ⟨hw', hshort', w', ?_, hcopy'⟩
    rw [Json.valueAt, hu']
    exact hpath

/-! ## Finding in a copy -/

/-- All members named `k` read the same, or each member was put behind those that were there and
    none was removed; no name then goes on behind a NUL. -/
def Settled (o : JsonObject (StoredValue δ)) (appended : Bool) (k : Bytes) : Prop :=
  (∀ m₁ m₂ memb₁ memb₂, o.memb m₁ = some memb₁ → o.memb m₂ = some memb₂ →
    strdup memb₁.name = strdup k → strdup memb₂.name = strdup k →
    StoredValue.read memb₁.value = StoredValue.read memb₂.value) ∨
  appended = Bool.true ∧ ∀ m memb, o.memb m = some memb → 0 ∉ memb.name

structure FindsAs (o o' : JsonObject (StoredValue δ)) (appended : Bool) : Prop where
  members : ∃ l, Agrees o l ∧ Agrees o' l
  none_iff : ∀ k, o'.objectFind k = none ↔ o.objectFind k = none
  found : ∀ k m, o'.objectFind k = some m → o.Named k m ∧
    ∃ memb memb', o.memb m = some memb ∧ o'.memb m = some memb' ∧ CopyOf memb.value memb'.value
  same : ∀ k, Settled o appended k →
    (findValue k o').bind (StoredValue.read) = (findValue k o).bind (StoredValue.read)

theorem findValue_of_find {o : JsonObject (StoredValue δ)} {k : Bytes}
    {m : MemberId} {memb : JsonMember (StoredValue δ)}
    (hfind : o.objectFind k = some m) (hm : o.memb m = some memb) :
    findValue k o = some memb.value := by
  rw [findValue, hfind, Option.bind_some, hm]
  rfl

theorem CopyOf.findsAs {o : JsonObject (StoredValue δ)} {b : Bool}
    {v' : StoredValue δ} (h : CopyOf (.object o b) v') (hv : Sound (.object o b))
    (hshort : ShortNames (.object o b)) : ∃ o', v' = .object o' Bool.true ∧ FindsAs o o' b := by
  obtain ⟨o', l, rfl, inv, inv', hall, hroot, built⟩ := h.object hv hshort
  have hback : ∀ m ∈ l, ∃ name value value', o.memb m = some ⟨name, value⟩ ∧
      o'.memb m = some ⟨strdup name, value'⟩ ∧ CopyOf value value' := by
    intro m hm
    obtain ⟨⟨name, value⟩, hmemb⟩ := Option.ne_none_iff_exists'.mp ((inv.live m).mpr hm)
    obtain ⟨value', hmemb', hcopy⟩ := hall m name value hmemb
    exact ⟨name, value, value', hmemb, hmemb', hcopy⟩
  have hnamed : ∀ k, ∀ m ∈ l, o'.Named k m ↔ o.Named k m := by
    intro k m hm
    obtain ⟨name, value, value', hmemb, hmemb', -⟩ := hback m hm
    rw [Named, Named, hmemb, hmemb']
    simp [strdup_strdup]
  have hnone : ∀ k, o'.objectFind k = none ↔ o.objectFind k = none := by
    intro k
    rw [inv'.find_none_iff, inv.find_none_iff]
    exact forall₂_congr fun m hm => not_congr (hnamed k m hm)
  have hfound : ∀ k m, o'.objectFind k = some m → o.Named k m ∧ ∃ memb memb',
      o.memb m = some memb ∧ o'.memb m = some memb' ∧ CopyOf memb.value memb'.value := by
    intro k m hfind
    obtain ⟨hm, hname⟩ := inv'.find_some hfind
    obtain ⟨name, value, value', hmemb, hmemb', hcopy⟩ := hback m hm
    exact ⟨(hnamed k m hm).mp hname, _, _, hmemb, hmemb', hcopy⟩
  refine ⟨o', rfl, ⟨l, inv.agrees, inv'.agrees⟩, hnone, hfound, fun k hsettled => ?_⟩
  cases hfind' : o'.objectFind k with
  | none =>
    have hfind := (hnone k).mp hfind'
    rw [findValue, findValue, hfind, hfind']
    rfl
  | some m' =>
    obtain ⟨⟨_, hm', hname'⟩, memb', copy', hold', hnew', hcopy⟩ := hfound k m' hfind'
    cases hm'.symm.trans hold'
    obtain ⟨r, hr, hr'⟩ := hcopy.reads
    rw [findValue_of_find hfind' hnew', Option.bind_some, hr', ← hr]
    obtain ⟨m, hfind⟩ := Option.ne_none_iff_exists'.mp fun hno => by
      have := (hnone k).mpr hno
      rw [this] at hfind'
      cases hfind'
    obtain ⟨-, memb, hm, hname⟩ := inv.find_some hfind
    rw [findValue_of_find hfind hm, Option.bind_some]
    obtain hequal | ⟨hflag, hnul⟩ := hsettled
    · exact hequal m' m _ _ hold' hm hname' hname
    · -- both trees come from the same members in the same order
      have hkeys : keysOf o'.memb l = keysOf o.memb l := by
        refine keysOf_congr fun e he => ?_
        obtain ⟨name, value, value', hmemb, hmemb', -⟩ := hback e he
        rw [hmemb, hmemb', Option.map_some, Option.map_some, strdup_of_notMem (hnul e _ hmemb)]
      have hsame : o'.objectFind k = o.objectFind k := by
        rw [objectFind, objectFind, hroot, hkeys, built hflag]
      rw [hfind', hfind] at hsame
      cases hsame
      cases hold'.symm.trans hm
      rfl

/-! ## All values of a program -/

section Runs

variable {evaluate : JsonNumber → δ} {s s' : Store δ}

def AllSound (s : Store δ) : Prop := ∀ h v, s h = some v → Sound v

theorem AllSound.keep {h : ℕ} {v : StoredValue δ} (hs : AllSound s) (hv : Sound v)
    (hkeep : keep s h v = some s') : AllSound s' := by
  unfold Json.keep at hkeep
  split_ifs at hkeep
  cases hkeep
  exact forall_update hs hv

theorem AllSound.set {src : Source δ} {v : StoredValue δ} (hs : AllSound s)
    (hset : setJsonValue s src = some (v, s')) : Sound v ∧ AllSound s' := by
  cases src with
  | value h =>
    obtain ⟨w, hw, heq⟩ := Option.map_eq_some_iff.mp hset
    cases heq
    exact ⟨(hs h w hw).move, forall_erase hs⟩
  | string str =>
    simp only [setJsonValue] at hset
    split_ifs at hset with hlen
    cases hset
    exact ⟨.string ((strlen_strdup str).trans_lt hlen), hs⟩
  | number value =>
    cases hset
    exact ⟨.number value, hs⟩
  | object =>
    cases hset
    exact ⟨sound_emptyObject, hs⟩
  | array =>
    cases hset
    exact ⟨sound_emptyArray, hs⟩
  | true =>
    cases hset
    exact ⟨.true, hs⟩
  | false =>
    cases hset
    exact ⟨.false, hs⟩
  | null =>
    cases hset
    exact ⟨.null, hs⟩

theorem AllSound.edit {h : ℕ} {path : List ℕ} {taken : Option (StoredValue δ)}
    {f : StoredValue δ → Option (StoredValue δ × Option (StoredValue δ))}
    (hs : AllSound s) (hf : Keeps f) (hedit : edit s h path f = some (s', taken)) :
    AllSound s' ∧ ∀ w, taken = some w → Sound w := by
  obtain ⟨root, hroot, hedit⟩ := Option.bind_eq_some_iff.mp hedit
  obtain ⟨⟨root', taken'⟩, hat, heq⟩ := Option.bind_eq_some_iff.mp hedit
  cases heq
  obtain ⟨hroot', htaken⟩ := hf.editAt path root root' taken (hs h root hroot) hat
  exact ⟨forall_update hs hroot', htaken⟩

theorem AllSound.put {src : Source δ} {h : ℕ} {path : List ℕ}
    {f : StoredValue δ → StoredValue δ →
      Option (StoredValue δ × Option (StoredValue δ))}
    (hs : AllSound s) (hf : ∀ value, Sound value → Keeps (f value))
    (hput : (setJsonValue s src).bind (fun p =>
      (Json.edit p.2 h path (f p.1)).bind fun q => some q.1) = some s') : AllSound s' := by
  obtain ⟨⟨value, s₁⟩, hset, hput⟩ := Option.bind_eq_some_iff.mp hput
  obtain ⟨hvalue, hs₁⟩ := hs.set hset
  obtain ⟨⟨s₂, taken⟩, hedit, heq⟩ := Option.bind_eq_some_iff.mp hput
  cases heq
  exact (hs₁.edit (hf value hvalue) hedit).1

theorem AllSound.take {h h' : ℕ} {path : List ℕ}
    {f : StoredValue δ → Option (StoredValue δ × Option (StoredValue δ))}
    (hs : AllSound s) (hf : Keeps f)
    (htake : (Json.edit s h path f).bind (fun p => p.2.bind (Json.keep p.1 h')) = some s') :
    AllSound s' := by
  obtain ⟨⟨s₁, taken⟩, hedit, htake⟩ := Option.bind_eq_some_iff.mp htake
  obtain ⟨hs₁, htaken⟩ := hs.edit hf hedit
  obtain ⟨w, hw, hkeep⟩ := Option.bind_eq_some_iff.mp htake
  exact hs₁.keep (htaken w hw) hkeep

theorem AllSound.step {op : StoreOp δ} (hs : AllSound s)
    (hstep : storeStep evaluate s op = some s') : AllSound s' := by
  cases op with
  | parse h text =>
    simp only [storeStep] at hstep
    split at hstep
    next val hparse =>
      obtain ⟨w, hw, hkeep⟩ := Option.bind_eq_some_iff.mp hstep
      obtain ⟨w', hw', hsound⟩ := load_parsed evaluate hparse
      cases hw.symm.trans hw'
      exact hs.keep hsound hkeep
    · cases hstep
  | create h src =>
    obtain ⟨⟨value, s₁⟩, hset, hkeep⟩ := Option.bind_eq_some_iff.mp hstep
    obtain ⟨hvalue, hs₁⟩ := hs.set hset
    exact hs₁.keep hvalue hkeep
  | objectPut h path place m name src => exact hs.put (fun _ hv => putMember_keeps hv) hstep
  | objectRemove h path m h' => exact hs.take (takeMember_keeps m) hstep
  | arrayPut h path place m src => exact hs.put (fun _ hv => putElement_keeps hv) hstep
  | arrayRemove h path m h' => exact hs.take (takeElement_keeps m) hstep
  | copy h h' =>
    obtain ⟨value, hvalue, hstep⟩ := Option.bind_eq_some_iff.mp hstep
    obtain ⟨value', hcopy, hkeep⟩ := Option.bind_eq_some_iff.mp hstep
    obtain ⟨value₁, hcopy₁⟩ := (hs h value hvalue).copyOf ((hs h value hvalue).shortNames hcopy)
    cases hcopy.symm.trans hcopy₁.copied
    exact hs.keep hcopy₁.sound hkeep
  | destroy h =>
    simp only [storeStep] at hstep
    split_ifs at hstep
    cases hstep
    exact forall_erase hs

end Runs

/-- A value has a copy unless it has a name of `INT_MAX` bytes. The copy reads the same, and what
    `json_object_find` gives in it reads the same wherever the members of that name are settled. -/
theorem copy_reads_same (evaluate : JsonNumber → δ) {s : Store δ}
    (hrun : Reachable (storeStep evaluate) (fun _ => none) s) {h : ℕ}
    {v : StoredValue δ} (hv : s h = some v) :
    (ShortNames v ↔ ∃ v', copyJsonValue v = some v') ∧
    ∀ v', copyJsonValue v = some v' → CopyOf v v' ∧ ∀ path w, valueAt path v = some w →
      ∃ w', valueAt path v' = some w' ∧ CopyOf w w' ∧
        ∀ o appended, w = .object o appended →
          ∃ o', w' = .object o' Bool.true ∧ FindsAs o o' appended := by
  have hall : AllSound s := by
    refine hrun.invariant (P := AllSound) ?_ fun _ _ _ hs _ hstep => hs.step hstep
    intro h v hv
    cases hv
  have hsound := hall h v hv
  refine ⟨⟨fun hshort => ?_, fun ⟨v', hcopy⟩ => hsound.shortNames hcopy⟩, fun v' hv' => ?_⟩
  · obtain ⟨v', hcopy⟩ := hsound.copyOf hshort
    exact ⟨v', hcopy.copied⟩
  · have hshort := hsound.shortNames hv'
    obtain ⟨v₁, hcopy⟩ := hsound.copyOf hshort
    cases hv'.symm.trans hcopy.copied
    refine ⟨hcopy, fun path w hw => ?_⟩
    obtain ⟨hsound', hshort', w', hw', hcopy'⟩ := hcopy.valueAt path hsound hshort hw
    refine ⟨w', hw', hcopy', fun o appended heq => ?_⟩
    cases heq
    exact hcopy'.findsAs hsound' hshort'

def appendTwice : List (StoreOp ℕ) :=
  [.create 0 .object, .objectPut 0 [] .append 0 (bytes "k") (.number 1),
    .objectPut 0 [] .append 1 (bytes "k") (.number 2)]

theorem appendedTwice_copied :
    ∃ (s : Store ℕ) (o : JsonObject (StoredValue ℕ)),
      run (storeStep fun _ => 0) (fun _ => none) appendTwice = some s ∧
      s 0 = some (.object o true) ∧
      ∃ v', CopyOf (.object o true) v' ∧ ∃ o', v' = .object o' true ∧ FindsAs o o' true := by
  obtain ⟨s, o, v', hrun, ho, hv'⟩ : ∃ (s : Store ℕ)
      (o : JsonObject (StoredValue ℕ)) (v' : _),
      run (storeStep fun _ => 0) (fun _ => none) appendTwice = some s ∧
      s 0 = some (.object o true) ∧ copyJsonValue (.object o true) = some v' :=
    ⟨_, _, _, rfl, rfl, rfl⟩
  obtain ⟨hcopy, hpath⟩ := (copy_reads_same (fun _ => 0)
    (reachable_of_run _ .start hrun) ho).2 v' hv'
  obtain ⟨w', hw', -, hfinds⟩ := hpath [] _ rfl
  cases hw'
  exact ⟨s, o, hrun, ho, v', hcopy, hfinds _ _ rfl⟩

/-- A second `k` in front of the first: the first is still found, but their copies go into the tree
    the other way round. -/
theorem insertedBefore_found_otherwise :
    ∃ (s : Store ℕ) (o o' : JsonObject (StoredValue ℕ))
      (appended : Bool),
      run (storeStep fun _ => 0) (fun _ => none)
        [.create 0 .object, .objectPut 0 [] .append 0 (bytes "k") (.number 1),
          .objectPut 0 [] (.before (some 0)) 1 (bytes "k") (.number 2)] = some s ∧
      s 0 = some (.object o appended) ∧
      copyJsonValue (.object o appended) = some (.object o' true) ∧
      findValue (bytes "k") o = some (.number 1) ∧
      findValue (bytes "k") o' = some (.number 2) :=
  ⟨_, _, _, _, rfl, rfl, rfl, rfl, rfl⟩

end MyWorkflow.Json
