import MyWorkflow.JsonObject

set_option autoImplicit false

/-!
# JSON values in memory

A pointer to a value inside another is a path of ids from a value that nothing holds. A parsed
container counts its ids from 0, and a copied one has those of its source. With `int len` the code
adds 1 to `strlen(..)`, which has to fit; allocation never fails. `δ` stands for `double`.
-/
namespace MyWorkflow.Json
open CString Rings RedBlack SearchTree

structure JsonArray (ν : Type) where
  head : Rings.Ring ℕ
  size : ℕ
  elem : ℕ → Option ν

namespace JsonArray

variable {ν : Type}

def empty : JsonArray ν := ⟨.init, 0, fun _ => none⟩

def insertElement (m : ℕ) (value : ν) (pos : Option ℕ) (a : JsonArray ν) : Option (JsonArray ν) :=
  if (a.elem m).isNone then
    some { a with
      head := a.head.add m pos
      elem := Function.update a.elem m (some value) }
  else none

def parseElement (a : JsonArray ν) (e : ℕ × ν) : Option (JsonArray ν) :=
  a.insertElement e.1 e.2 (a.head.prev none)

def parseJsonArray (es : List (ℕ × ν)) : Option (JsonArray ν) :=
  if es.length ≤ intMax then
    (es.foldlM parseElement empty).map fun a => { a with size := es.length }
  else none

def arrayInsert (m : ℕ) (value : ν) (pos : Option ℕ) (a : JsonArray ν) : Option (JsonArray ν) :=
  if a.size < intMax then
    (a.insertElement m value pos).map fun a => { a with size := a.size + 1 }
  else none

/-- `json_array_remove`: what remains, and the value that is moved out. -/
def arrayRemove (m : ℕ) (a : JsonArray ν) : Option (JsonArray ν × ν) :=
  (a.elem m).map fun value =>
    ({ head := a.head.del m
       size := a.size - 1
       elem := Function.update a.elem m none }, value)

def moveJsonArray (a : JsonArray ν) : JsonArray ν := { a with head := a.head.splice }

end JsonArray

inductive Place where
  | append
  | after (val : Option ℕ)
  | before (val : Option ℕ)
deriving DecidableEq, Repr

namespace Place

def pos (head : Rings.Ring ℕ) : Place → Option ℕ
  | .append => head.prev none
  | .after val => val
  | .before val => head.prev val

def val : Place → Option ℕ
  | .append => none
  | .after val | .before val => val

def objectOp {ν : Type} (m : MemberId) (name : Bytes) (value : ν) : Place → ObjectOp ν
  | .append => .append m name value
  | .after val => .insertAfter val m name value
  | .before val => .insertBefore val m name value

end Place

def arrayPut {ν : Type} (place : Place) (m : ℕ) (value : ν) (a : JsonArray ν) :
    Option (JsonArray ν) :=
  if place.val.all fun x => (a.elem x).isSome then a.arrayInsert m value (place.pos a.head) else none

/-- `json_value_t`. The code does not keep `appended`: whether each member of the object was put
    behind all that were there, and none has been removed. -/
inductive StoredValue (δ : Type) where
  | string (buffer : Bytes)
  | number (value : δ)
  | object (obj : JsonObject (StoredValue δ)) (appended : Bool)
  | array (arr : JsonArray (StoredValue δ))
  | true
  | false
  | null

/-- All that can be read of a value by type, string, number, size and forward iteration. -/
inductive Reading (δ : Type) where
  | string (text : Bytes)
  | number (value : δ)
  | object (size : ℕ) (members : List (Bytes × Reading δ))
  | array (size : ℕ) (elements : List (Reading δ))
  | true
  | false
  | null

section Values

variable {δ : Type}

mutual

/-- A container is read to the end of its list, one round more than it says to have entries. -/
def StoredValue.read : StoredValue δ → Option (Reading δ)
  | .string buffer => some (.string (strdup buffer))
  | .number value => some (.number value)
  | .object ⟨head, _, size, memb⟩ _ =>
    ((head.forward (size + 1) none).mapM fun m => readMember (memb m)).map (.object size)
  | .array ⟨head, size, elem⟩ =>
    ((head.forward (size + 1) none).mapM fun m => readElement (elem m)).map (.array size)
  | .true => some .true
  | .false => some .false
  | .null => some .null

def readMember : Option (JsonMember (StoredValue δ)) → Option (Bytes × Reading δ)
  | none => none
  | some ⟨name, value⟩ => (StoredValue.read value).map (strdup name, ·)

def readElement : Option (StoredValue δ) → Option (Reading δ)
  | none => none
  | some value => StoredValue.read value

end

mutual

def copyJsonValue : StoredValue δ → Option (StoredValue δ)
  | .string buffer => if strlen buffer < intMax then some (.string (strdup buffer)) else none
  | .number value => some (.number value)
  | .object ⟨head, _, size, memb⟩ _ =>
    -- `__copy_json_members`: the members go into the new tree in the order of the list
    ((head.forward (size + 1) none).foldlM (fun dest m => do
      let entry ← copyMember (memb m)
      JsonObject.parseMember dest (m, entry.name, entry.value)) (JsonObject.empty)).map
      fun (dest : JsonObject _) => .object { dest with size := size } Bool.true
  | .array ⟨head, size, elem⟩ =>
    -- `__copy_json_elements`
    ((head.forward (size + 1) none).foldlM (fun dest m => do
      let value ← copyElement (elem m)
      JsonArray.parseElement dest (m, value)) JsonArray.empty).map
      fun (dest : JsonArray _) => .array { dest with size := size }
  | .true => some .true
  | .false => some .false
  | .null => some .null

def copyMember : Option (JsonMember (StoredValue δ)) →
    Option (JsonMember (StoredValue δ))
  | none => none
  | some ⟨name, value⟩ =>
    if strlen name < intMax then (copyJsonValue value).map (⟨strdup name, ·⟩) else none

def copyElement : Option (StoredValue δ) → Option (StoredValue δ)
  | none => none
  | some value => copyJsonValue value

end

mutual

def load (evaluate : JsonNumber → δ) : JsonValue → Option (StoredValue δ)
  | .string buffer => some (.string buffer)
  | .number value => some (.number (evaluate value))
  | .object _ members => do
    let members ← loadMembers evaluate members 0
    return .object (← JsonObject.parseJsonObject members) Bool.true
  | .array _ elements => do
    let elements ← loadElements evaluate elements 0
    return .array (← JsonArray.parseJsonArray elements)
  | .true => some .true
  | .false => some .false
  | .null => some .null

def loadMembers (evaluate : JsonNumber → δ) :
    List (Bytes × JsonValue) → ℕ → Option (List (MemberId × Bytes × StoredValue δ))
  | [], _ => some []
  | (name, value) :: members, n => do
    let value ← load evaluate value
    return (n, name, value) :: (← loadMembers evaluate members (n + 1))

def loadElements (evaluate : JsonNumber → δ) :
    List JsonValue → ℕ → Option (List (ℕ × StoredValue δ))
  | [], _ => some []
  | value :: elements, n => do
    let value ← load evaluate value
    return (n, value) :: (← loadElements evaluate elements (n + 1))

end

def moveJsonValue : StoredValue δ → StoredValue δ
  | .object obj appended => .object (obj.moveJsonObject) appended
  | .array arr => .array arr.moveJsonArray
  | value => value

def child (m : ℕ) : StoredValue δ → Option (StoredValue δ)
  | .object obj _ => (obj.memb m).map JsonMember.value
  | .array arr => arr.elem m
  | _ => none

def valueAt : List ℕ → StoredValue δ → Option (StoredValue δ)
  | [], value => some value
  | m :: path, value => (child m value).bind (valueAt path)

def findValue (name : Bytes) (o : JsonObject (StoredValue δ)) :
    Option (StoredValue δ) :=
  (o.objectFind name).bind fun m => (o.memb m).map JsonMember.value

def editAt (f : StoredValue δ → Option (StoredValue δ × Option (StoredValue δ))) :
    List ℕ → StoredValue δ →
      Option (StoredValue δ × Option (StoredValue δ))
  | [], value => f value
  | m :: path, .object obj appended => do
    let memb ← obj.memb m
    let (value, taken) ← editAt f path memb.value
    return (.object { obj with memb := Function.update obj.memb m (some ⟨memb.name, value⟩) }
      appended, taken)
  | m :: path, .array arr => do
    let value ← arr.elem m
    let (value, taken) ← editAt f path value
    return (.array { arr with elem := Function.update arr.elem m (some value) }, taken)
  | _ :: _, _ => none

def putMember (place : Place) (m : MemberId) (name : Bytes) (value : StoredValue δ) :
    StoredValue δ → Option (StoredValue δ × Option (StoredValue δ))
  | .object obj appended =>
    (objectStep obj (place.objectOp m name value)).map fun obj' =>
      (.object obj' (appended && place.pos obj.head == obj.head.prev none), none)
  | _ => none

def takeMember (m : MemberId) :
    StoredValue δ → Option (StoredValue δ × Option (StoredValue δ))
  | .object obj _ =>
    (obj.objectRemove m).map fun (obj, value) =>
      (.object obj Bool.false, some (moveJsonValue value))
  | _ => none

def putElement (place : Place) (m : ℕ) (value : StoredValue δ) :
    StoredValue δ → Option (StoredValue δ × Option (StoredValue δ))
  | .array arr => (arrayPut place m value arr).map fun arr => (.array arr, none)
  | _ => none

def takeElement (m : ℕ) :
    StoredValue δ → Option (StoredValue δ × Option (StoredValue δ))
  | .array arr =>
    (arr.arrayRemove m).map fun (arr, value) => (.array arr, some (moveJsonValue value))
  | _ => none

/-- What is handed to `json_value_create` and to the insertions behind the type; type 0 takes over
    a value that nothing holds. -/
inductive Source (δ : Type) where
  | value (h : ℕ)
  | string (str : Bytes)
  | number (value : δ)
  | object
  | array
  | true
  | false
  | null

abbrev Store (δ : Type) := ℕ → Option (StoredValue δ)

def setJsonValue (s : Store δ) : Source δ → Option (StoredValue δ × Store δ)
  | .value h => (s h).map fun value => (moveJsonValue value, Function.update s h none)
  | .string str => if strlen str < intMax then some (.string (strdup str), s) else none
  | .number value => some (.number value, s)
  | .object => some (.object (JsonObject.empty) Bool.true, s)
  | .array => some (.array .empty, s)
  | .true => some (.true, s)
  | .false => some (.false, s)
  | .null => some (.null, s)

inductive StoreOp (δ : Type) where
  | parse (h : ℕ) (text : Bytes)
  | create (h : ℕ) (src : Source δ)
  | objectPut (h : ℕ) (path : List ℕ) (place : Place) (m : MemberId) (name : Bytes) (src : Source δ)
  | objectRemove (h : ℕ) (path : List ℕ) (m : MemberId) (h' : ℕ)
  | arrayPut (h : ℕ) (path : List ℕ) (place : Place) (m : ℕ) (src : Source δ)
  | arrayRemove (h : ℕ) (path : List ℕ) (m : ℕ) (h' : ℕ)
  | copy (h : ℕ) (h' : ℕ)
  | destroy (h : ℕ)

def keep (s : Store δ) (h : ℕ) (value : StoredValue δ) : Option (Store δ) :=
  if (s h).isNone then some (Function.update s h (some value)) else none

def edit (s : Store δ) (h : ℕ) (path : List ℕ)
    (f : StoredValue δ → Option (StoredValue δ × Option (StoredValue δ))) :
    Option (Store δ × Option (StoredValue δ)) := do
  let root ← s h
  let (root, taken) ← editAt f path root
  return (Function.update s h (some root), taken)

def storeStep (evaluate : JsonNumber → δ) (s : Store δ) : StoreOp δ → Option (Store δ)
  | .parse h text =>
    match jsonValueParse text with
    | .value val => (load evaluate val).bind (keep s h)
    | _ => none
  | .create h src => do
    let (value, s) ← setJsonValue s src
    keep s h value
  | .objectPut h path place m name src => do
    let (value, s) ← setJsonValue s src
    let (s, _) ← edit s h path (putMember place m name value)
    return s
  | .objectRemove h path m h' => do
    let (s, taken) ← edit s h path (takeMember m)
    keep s h' (← taken)
  | .arrayPut h path place m src => do
    let (value, s) ← setJsonValue s src
    let (s, _) ← edit s h path (putElement place m value)
    return s
  | .arrayRemove h path m h' => do
    let (s, taken) ← edit s h path (takeElement m)
    keep s h' (← taken)
  | .copy h h' => do
    let value ← s h
    keep s h' (← copyJsonValue value)
  | .destroy h => if (s h).isSome then some (Function.update s h none) else none

end Values

end MyWorkflow.Json
