import Mathlib.Algebra.Group.Int.Defs
import Mathlib.Logic.Function.Basic
import Mathlib.Order.Defs.LinearOrder
import Mathlib.Order.Lattice
import MyWorkflow.RedBlack
import MyWorkflow.Runs

set_option autoImplicit false

/-!
# The LRU cache

Handles are numbers that are given out once. An operation gives `none` where an assertion fails
or where it uses a handle that was deleted or takes a handle out of a list that it is not in.
`past` is what `e->ref++` makes of `INT_MAX`: nothing where C leaves it undefined, `INT_MIN` on a
machine that wraps.
-/
namespace MyWorkflow.Lru
open RedBlack SearchTree Runs

abbrev HandleId := ℕ

def INT_MAX : ℤ := 2 ^ 31 - 1
def INT_MIN : ℤ := -2 ^ 31

def increment (past : Option ℤ) (n : ℤ) : Option ℤ := if n < INT_MAX then some (n + 1) else past

structure Handle (κ ν : Type) where
  value : ν
  key : κ
  inCache : Bool
  ref : ℤ

inductive Event (κ ν : Type) where
  | put (key : κ) (value : ν) (e : HandleId)
  | del (key : κ)
  | evict (e : HandleId)
  | prune (e : HandleId)

structure Cache (κ ν : Type) where
  maxSize : ℕ
  size : ℕ
  notUse : List HandleId
  inUse : List HandleId
  cacheMap : RbRoot HandleId
  handles : HandleId → Option (Handle κ ν)
  next : HandleId
  /-- The handles whose values were given to the deleter, the latest first. -/
  deleted : List HandleId
  log : List (Event κ ν)

namespace Cache

variable {κ ν : Type}

def init : Cache κ ν where
  maxSize := 0
  size := 0
  notUse := []
  inUse := []
  cacheMap := .empty
  handles := fun _ => none
  next := 0
  deleted := []
  log := []

def setHandle (e : HandleId) (h : Option (Handle κ ν)) (c : Cache κ ν) : Cache κ ν :=
  { c with handles := Function.update c.handles e h }

def record (event : Event κ ν) (c : Cache κ ν) : Cache κ ν := { c with log := event :: c.log }

def setMaxSize (n : ℕ) (c : Cache κ ν) : Cache κ ν := { c with maxSize := n }

def listDel (e : HandleId) (c : Cache κ ν) : Option (Cache κ ν) :=
  if e ∈ c.notUse ∨ e ∈ c.inUse then
    some { c with notUse := c.notUse.erase e, inUse := c.inUse.erase e }
  else none

def listMoveInUse (e : HandleId) (c : Cache κ ν) : Option (Cache κ ν) :=
  (c.listDel e).map fun c => { c with inUse := c.inUse ++ [e] }

def listMoveNotUse (e : HandleId) (c : Cache κ ν) : Option (Cache κ ν) :=
  (c.listDel e).map fun c => { c with notUse := c.notUse ++ [e] }

def ref (past : Option ℤ) (e : HandleId) (c : Cache κ ν) : Option (Cache κ ν) :=
  match c.handles e with
  | none => none
  | some h =>
    (if h.inCache ∧ h.ref = 1 then c.listMoveInUse e else some c).bind fun c =>
      (increment past h.ref).map fun n => c.setHandle e (some { h with ref := n })

def unref (e : HandleId) (c : Cache κ ν) : Option (Cache κ ν) :=
  match c.handles e with
  | none => none
  | some h =>
    if h.ref ≤ 0 then none
    else if h.ref - 1 = 0 then
      if h.inCache then none
      else some { c.setHandle e none with deleted := e :: c.deleted }
    else
      let c := c.setHandle e (some { h with ref := h.ref - 1 })
      if h.inCache ∧ h.ref - 1 = 1 then c.listMoveNotUse e else some c

def eraseNode (e : HandleId) (c : Cache κ ν) : Option (Cache κ ν) :=
  match c.handles e with
  | none => none
  | some h =>
    if h.inCache then
      (c.listDel e).bind fun c =>
        { c.setHandle e (some { h with inCache := false }) with size := c.size - 1 }.unref e
    else none

def remove (e : HandleId) (c : Cache κ ν) : Option (Cache κ ν) :=
  { c with cacheMap := c.cacheMap.erase e }.eraseNode e

def drop (e : HandleId) (c : Cache κ ν) : Option (Cache κ ν) :=
  if (c.handles e).any (fun h => h.ref = 1) then c.remove e else none

/-- The loop takes what was in `not_use` when it began: it removes nothing but the handle it is
    at. -/
def prune (c : Cache κ ν) : Option (Cache κ ν) :=
  c.notUse.foldlM (fun c e => (c.drop e).map (record (.prune e))) c

def evict : ℕ → Cache κ ν → Option (Cache κ ν)
  | 0, c => some c
  | fuel + 1, c =>
    match c.notUse with
    | e :: _ =>
      if c.maxSize < c.size then
        ((c.drop e).map (record (.evict e))).bind (evict fuel)
      else some c
    | [] => some c

section Search

variable [LinearOrder κ]

def below (c : Cache κ ν) (key : κ) (e : HandleId) : Bool :=
  !(c.handles e).any fun h => h.key < key

def above (c : Cache κ ν) (key : κ) (e : HandleId) : Bool :=
  (c.handles e).any fun h => key < h.key

def find (key : κ) (c : Cache κ ν) : Option HandleId :=
  (bound (c.below key) c.cacheMap.nodes).filter fun e => !c.above key e

def get (past : Option ℤ) (key : κ) (c : Cache κ ν) : Option (Cache κ ν × Option HandleId) :=
  match c.find key with
  | some e => (c.ref past e).map fun c => (c, some e)
  | none => some (c, none)

def put (key : κ) (value : ν) (c : Cache κ ν) : Option (Cache κ ν × HandleId) :=
  let e := c.next
  let c' := { c.setHandle e (some ⟨value, key, true, 2⟩) with
    next := e + 1
    inUse := c.inUse ++ [e]
    size := c.size + 1
    log := .put key value e :: c.log }
  (match c.find key with
    | some b => { c' with cacheMap := c.cacheMap.replace b e }.eraseNode b
    | none => some { c' with cacheMap := c.cacheMap.insert (c.below key) e }).bind
  fun c => (if 0 < c.maxSize then c.evict c.notUse.length else some c).map fun c => (c, e)

def del (past : Option ℤ) (key : κ) (c : Cache κ ν) : Option (Cache κ ν) :=
  ((c.get past key).bind fun r =>
    match r.2 with
    | some e => (r.1.unref e).bind (remove e)
    | none => some r.1).map (record (.del key))

end Search

def destroy (c : Cache κ ν) : Option (Cache κ ν) :=
  if c.inUse = [] then
    c.notUse.foldlM (fun c e =>
      match c.handles e with
      | none => none
      | some h =>
        if h.inCache ∧ h.ref = 1 then (c.setHandle e (some { h with inCache := false })).unref e
        else none) c
  else none

end Cache

inductive Action (κ ν : Type) where
  | get (key : κ)
  | put (key : κ) (value : ν)
  | del (key : κ)
  | release (e : HandleId)
  | prune
  | setMaxSize (n : ℕ)

structure State (κ ν : Type) where
  cache : Cache κ ν
  held : List HandleId

def State.init (κ ν : Type) : State κ ν := ⟨.init, []⟩

section Step

variable {κ ν : Type}

/-- A client releases what it holds. -/
def Released (s : State κ ν) : Action κ ν → Prop
  | .release e => e ∈ s.held
  | _ => True

variable [LinearOrder κ]

/-- A client releases what it holds, and asks for a handle only while an `int` can count that it
    holds one more. -/
def Allowed (s : State κ ν) : Action κ ν → Prop
  | .release e => e ∈ s.held
  | .get key | .del key => (s.cache.find key).all fun e => s.held.count e + 1 < INT_MAX
  | _ => True

instance (s : State κ ν) (a : Action κ ν) : Decidable (Allowed s a) :=
  match a with
  | .release e => inferInstanceAs (Decidable (e ∈ s.held))
  | .get _ | .del _ => inferInstanceAs (Decidable (_ = true))
  | .put _ _ | .prune | .setMaxSize _ => isTrue trivial

def step (past : Option ℤ) (s : State κ ν) : Action κ ν → Option (State κ ν)
  | .get key => (s.cache.get past key).map fun r => ⟨r.1, r.2.toList ++ s.held⟩
  | .put key value => (s.cache.put key value).map fun r => ⟨r.1, r.2 :: s.held⟩
  | .del key => (s.cache.del past key).map fun c => { s with cache := c }
  | .release e => (s.cache.unref e).map fun c => ⟨c, s.held.erase e⟩
  | .prune => s.cache.prune.map fun c => { s with cache := c }
  | .setMaxSize n => some { s with cache := s.cache.setMaxSize n }

end Step

end MyWorkflow.Lru
