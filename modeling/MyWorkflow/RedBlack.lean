import Mathlib.Algebra.Group.Nat.Defs
import Mathlib.Data.Nat.Log
import Mathlib.Order.Lattice
import MyWorkflow.SearchTree

set_option autoImplicit false

/-!
# Red-black trees

`rbtree.c`. A pointer to a node is the subtree there together with the way up from it: a frame for
each ancestor, the parent first. The two halves of each loop mirror each other, so one side is
written here. `none` is a read through a NULL pointer.
-/
namespace MyWorkflow.RedBlack
open List SearchTree

variable {α : Type}

inductive Color where
  | red
  | black
deriving DecidableEq

inductive RbTree (α : Type) where
  | nil
  | node (color : Color) (x : α) (left right : RbTree α)

def Side.other : Side → Side
  | .left => .right
  | .right => .left

namespace RbTree

def nodes : RbTree α → BinaryTree α
  | nil => .nil
  | node _ x l r => .node x l.nodes r.nodes

def list (t : RbTree α) : List α := inorder t.nodes

def isRed : RbTree α → Bool
  | node .red _ _ _ => true
  | _ => false

def paint (c : Color) : RbTree α → RbTree α
  | nil => nil
  | node _ x l r => node c x l r

def fork (side : Side) (c : Color) (x : α) (near far : RbTree α) : RbTree α :=
  match side with
  | .left => node c x near far
  | .right => node c x far near

def child (side : Side) : RbTree α → RbTree α
  | nil => nil
  | node _ _ l r => match side with
    | .left => l
    | .right => r

def blackenChild (side : Side) : RbTree α → RbTree α
  | nil => nil
  | node c x l r => match side with
    | .left => node c x (l.paint .black) r
    | .right => node c x l (r.paint .black)

def map (f : α → α) : RbTree α → RbTree α
  | nil => nil
  | node c x l r => node c (f x) (l.map f) (r.map f)

def rotate : Side → RbTree α → RbTree α
  | .left, node c x a (node d y b e) => node d y (node c x a b) e
  | .right, node c x (node d y a b) e => node d y a (node c x b e)
  | _, t => t

end RbTree

open RbTree

structure Frame (α : Type) where
  side : Side
  color : Color
  x : α
  sibling : RbTree α

def plug (t : RbTree α) : List (Frame α) → RbTree α
  | [] => t
  | f :: path => plug (fork f.side f.color f.x t f.sibling) path

/-- `rb_insert_color`. Behind the second rotation the parent is black, and the loop ends. -/
def insertColor (node : RbTree α) : List (Frame α) → Option (RbTree α)
  | [] => some (node.paint .black)
  | parent :: path =>
    if parent.color = .black then some ((plug node (parent :: path)).paint .black)
    else match path with
      | [] => none
      | gparent :: path =>
        let top := fork parent.side .red parent.x node parent.sibling
        if gparent.sibling.isRed then
          insertColor (fork gparent.side .red gparent.x (top.paint .black)
            (gparent.sibling.paint .black)) path
        else
          let top := if parent.side = gparent.side then top else top.rotate gparent.side
          some ((plug ((fork gparent.side .red gparent.x (top.paint .black)
            gparent.sibling).rotate (Side.other gparent.side)) path).paint .black)

def toFar (side : Side) (other : RbTree α) : RbTree α :=
  if (other.child (Side.other side)).isRed then other
  else ((other.blackenChild side).paint .red).rotate (Side.other side)

/-- A round of `__rb_erase_color` behind the test for a red `other`: the tree at the parent, and
    whether the loop goes on from there. -/
def borrow (side : Side) (color : Color) (x : α) (node : RbTree α) :
    RbTree α → Option (RbTree α × Bool)
  | .nil => none
  | .node c y l r =>
    let other := RbTree.node c y l r
    if l.isRed || r.isRed then
      some ((fork side .black x node
        (((toFar side other).paint color).blackenChild (Side.other side))).rotate side, false)
    else some (fork side color x node (other.paint .red), true)

/-- `__rb_erase_color`. Behind a red `other` the parent is red, and the loop ends there. -/
def eraseColor (node : RbTree α) : List (Frame α) → Option (RbTree α)
  | [] => some (node.paint .black)
  | ⟨side, color, x, other⟩ :: path =>
    if node.isRed then some (plug (node.paint .black) (⟨side, color, x, other⟩ :: path))
    else match other with
      | .node .red y l r =>
        let other := RbTree.node .red y l r
        (borrow side .red x node (other.child side)).map fun t =>
          let far := other.child (Side.other side)
          if t.2 then plug (fork side .black y (t.1.paint .black) far) path
          else (plug (fork side .black y t.1 far) path).paint .black
      | other =>
        (borrow side color x node other).bind fun t =>
          if t.2 then eraseColor t.1 path else some ((plug t.1 path).paint .black)

def unlink (c : Color) (child : RbTree α) (path : List (Frame α)) : Option (RbTree α) :=
  if c = .black then eraseColor child path else some (plug child path)

/-- The way up from the empty link at which a search ends; `below e` sends it left of `e`. -/
def wayTo (below : α → Bool) : RbTree α → List (Frame α)
  | .nil => []
  | .node c x l r =>
    if below x then wayTo below l ++ [⟨.left, c, x, r⟩] else wayTo below r ++ [⟨.right, c, x, l⟩]

/-- `rb_erase` of a node with that colour and these children. The leftmost node on the right is the
    first on the way up from there. -/
def rbErase (c : Color) (path : List (Frame α)) : RbTree α → RbTree α → Option (RbTree α)
  | .nil, r => unlink c r path
  | l, .nil => unlink c l path
  | l, r => match wayTo (fun _ => true) r with
    | [] => none
    | ⟨_, d, y, s⟩ :: inner => unlink d s (inner ++ ⟨.right, c, y, l⟩ :: path)

/-- A search for the place, `rb_link_node` and `rb_insert_color`. -/
def rbInsert (below : α → Bool) (new : α) (t : RbTree α) : Option (RbTree α) :=
  insertColor (.node .red new .nil .nil) (wayTo below t)

/-! ## The order of the nodes -/

namespace RbTree

@[simp] theorem list_nil : (nil : RbTree α).list = [] := rfl

@[simp] theorem list_node (c : Color) (x : α) (l r : RbTree α) :
    (node c x l r).list = l.list ++ x :: r.list := rfl

@[simp] theorem list_paint (c : Color) (t : RbTree α) : (t.paint c).list = t.list := by
  cases t <;> rfl

@[simp] theorem list_rotate (side : Side) (t : RbTree α) : (t.rotate side).list = t.list := by
  unfold rotate
  split <;> simp

theorem list_fork_congr {side : Side} {c d : Color} {x : α} {s s' t t' : RbTree α}
    (hs : s.list = s'.list) (ht : t.list = t'.list) :
    (fork side c x s t).list = (fork side d x s' t').list := by
  cases side <;> simp [fork, hs, ht]

@[simp] theorem list_map (f : α → α) (t : RbTree α) : (t.map f).list = t.list.map f := by
  induction t with
  | nil => rfl
  | node c x l r ihl ihr => simp [RbTree.map, ihl, ihr]

end RbTree

theorem list_plug_congr {s t : RbTree α} (h : s.list = t.list) (path : List (Frame α)) :
    (plug s path).list = (plug t path).list := by
  induction path generalizing s t with
  | nil => exact h
  | cons f path ih => exact ih (list_fork_congr h rfl)

/-! ## Both sides -/

section Fork

variable (side : Side) (c d : Color) (x y : α) (s t u : RbTree α)

@[simp] theorem child_far : (fork side c x s t).child (Side.other side) = t := by
  cases side <;> rfl

@[simp] theorem paint_fork : (fork side c x s t).paint d = fork side d x s t := by
  cases side <;> rfl

@[simp] theorem blackenChild_near :
    (fork side c x s t).blackenChild side = fork side c x (s.paint .black) t := by
  cases side <;> rfl

@[simp] theorem blackenChild_far :
    (fork side c x s t).blackenChild (Side.other side) = fork side c x s (t.paint .black) := by
  cases side <;> rfl

@[simp] theorem rotate_near : (fork side c x s (fork side d y t u)).rotate side =
    fork side d y (fork side c x s t) u := by
  cases side <;> rfl

@[simp] theorem rotate_far : (fork side c x (fork side d y s t) u).rotate (Side.other side) =
    fork side d y s (fork side c x t u) := by
  cases side <;> rfl

theorem borrow_fork (node : RbTree α) : borrow side d x node (fork side c y s t) =
    if s.isRed || t.isRed then some ((fork side .black x node (((toFar side
      (fork side c y s t)).paint d).blackenChild (Side.other side))).rotate side, false)
    else some (fork side d x node (fork side .red y s t), true) := by
  cases side <;> simp [borrow, fork, paint, Bool.or_comm]

end Fork

/-! ## Colours -/

/-- A subtree with a root of colour `c` and `n` black nodes on every way down. -/
inductive Valid : RbTree α → Color → ℕ → Prop
  | nil : Valid .nil .black 0
  | red {x : α} {l r : RbTree α} {n : ℕ} : Valid l .black n → Valid r .black n →
      Valid (.node .red x l r) .red n
  | black {x : α} {l r : RbTree α} {c d : Color} {n : ℕ} : Valid l c n → Valid r d n →
      Valid (.node .black x l r) .black (n + 1)

/-- The way up from a hole that takes such a subtree; the root is black. -/
inductive Hole : List (Frame α) → Color → ℕ → Prop
  | root {n : ℕ} : Hole [] .black n
  | red {side : Side} {x : α} {s : RbTree α} {path : List (Frame α)} {n : ℕ} :
      Valid s .black n → Hole path .red n → Hole (⟨side, .red, x, s⟩ :: path) .black n
  | black {side : Side} {x : α} {s : RbTree α} {path : List (Frame α)} {c d : Color} {n : ℕ} :
      Valid s d n → Hole path .black (n + 1) → Hole (⟨side, .black, x, s⟩ :: path) c n

variable {t : RbTree α} {path : List (Frame α)} {c d : Color} {n : ℕ}

theorem Valid.isRed (h : Valid t c n) : t.isRed = true ↔ c = .red := by
  cases h <;> simp [RbTree.isRed]

theorem Valid.map (f : α → α) (h : Valid t c n) : Valid (t.map f) c n := by
  induction h with
  | nil => exact .nil
  | red _ _ ihl ihr => exact .red ihl ihr
  | black _ _ ihl ihr => exact .black ihl ihr

theorem Valid.paint_red (h : Valid t .red n) : Valid (t.paint .black) .black (n + 1) := by
  cases h with
  | red hl hr => exact .black hl hr

theorem Valid.paint_black (h : Valid t .black n) : t.paint .black = t := by
  cases h <;> rfl

theorem Valid.forkRed {side : Side} {x : α} {s : RbTree α} (h : Valid t .black n)
    (hs : Valid s .black n) : Valid (fork side .red x t s) .red n := by
  cases side
  · exact .red h hs
  · exact .red hs h

theorem Valid.forkBlack {side : Side} {x : α} {s : RbTree α} (h : Valid t c n)
    (hs : Valid s d n) : Valid (fork side .black x t s) .black (n + 1) := by
  cases side
  · exact .black h hs
  · exact .black hs h

theorem Hole.any (h : Hole path .red n) : Hole path c n := by
  cases h with
  | black hs hp => exact .black hs hp

theorem Hole.fill (h : Hole path c n) (ht : Valid t c n) :
    ∃ m, Valid (plug t path) .black m := by
  induction h generalizing t with
  | root => exact ⟨_, ht⟩
  | red hs _ ih => exact ih (ht.forkRed hs)
  | black hs _ ih => exact ih (ht.forkBlack hs)

theorem Hole.fill_painted (h : Hole path c n) (ht : Valid t c n) :
    ∃ m, Valid ((plug t path).paint .black) .black m := by
  obtain ⟨m, hm⟩ := h.fill ht
  rw [hm.paint_black]
  exact ⟨m, hm⟩

theorem Valid.rotated {node s u : RbTree α} {x y : α} {side gside : Side}
    (ht : Valid node .red n) (hs : Valid s .black n) (hu : Valid u .black n) :
    Valid ((fork gside .red y ((if side = gside then fork side .red x node s
      else (fork side .red x node s).rotate gside).paint .black) u).rotate (Side.other gside))
      .black (n + 1) := by
  have hnode := ht
  cases ht with
  | red hl hr =>
    cases side <;> cases gside
    · exact .black hnode (.red hs hu)
    · exact .black (.red hu hl) (.red hr hs)
    · exact .black (.red hs hl) (.red hr hu)
    · exact .black (.red hu hs) hnode

theorem Hole.insertColor {node : RbTree α} (h : Hole path .black n) (ht : Valid node .red n) :
    ∃ t m, insertColor node path = some t ∧ Valid t .black m ∧ t.list = (plug node path).list := by
  fun_induction RedBlack.insertColor node path generalizing n with
  | case1 node => exact ⟨_, _, rfl, ht.paint_red, list_paint _ _⟩
  | case2 node parent path hblack =>
    cases h with
    | red => cases hblack
    | black hs hp =>
      obtain ⟨m, hm⟩ := (Hole.black hs hp).fill_painted ht
      exact ⟨_, m, rfl, hm, list_paint _ _⟩
  | case3 node parent hred =>
    cases h with
    | red _ hp => cases hp
    | black => exact absurd rfl hred
  | case4 node parent hred gparent path top huncle =>
    rename_i ih
    cases h with
    | black => exact absurd rfl hred
    | red hs hp =>
      cases hp with
      | black hu hp =>
        obtain rfl := hu.isRed.mp huncle
        simp only [top, paint_fork] at ih ⊢
        obtain ⟨t, m, hrun, hm, hlist⟩ := ih hp (.forkRed (ht.forkBlack hs) hu.paint_red)
        refine ⟨t, m, hrun, hm, hlist.trans (list_plug_congr ?_ path)⟩
        exact list_fork_congr (list_fork_congr rfl rfl) (list_paint _ _)
  | case5 node parent hred gparent path top huncle =>
    cases h with
    | black => exact absurd rfl hred
    | red hs hp =>
      cases hp with
      | @black _ _ _ _ _ e _ hu hp =>
        cases e with
        | red => exact absurd (hu.isRed.mpr rfl) huncle
        | black =>
          obtain ⟨m, hm⟩ := hp.fill_painted (ht.rotated hs hu)
          refine ⟨_, m, rfl, hm, ?_⟩
          rw [list_paint]
          refine list_plug_congr ?_ path
          rw [list_rotate]
          refine list_fork_congr ?_ rfl
          rename_i top'
          rw [list_paint]
          simp only [top']
          split_ifs
          · rfl
          · exact list_rotate _ _

theorem Valid.exists_red (h : Valid t .red n) (side : Side) :
    ∃ x l r, t = fork side .red x l r ∧ Valid l .black n ∧ Valid r .black n := by
  cases h with
  | red hl hr =>
    cases side
    · exact ⟨_, _, _, rfl, hl, hr⟩
    · exact ⟨_, _, _, rfl, hr, hl⟩

theorem Valid.exists_black (h : Valid t .black (n + 1)) (side : Side) :
    ∃ x l r c d, t = fork side .black x l r ∧ Valid l c n ∧ Valid r d n := by
  cases h with
  | black hl hr =>
    cases side
    · exact ⟨_, _, _, _, _, rfl, hl, hr⟩
    · exact ⟨_, _, _, _, _, rfl, hr, hl⟩

/-- Either there is nothing to borrow, or the way down is as long as before. -/
theorem Valid.borrow {node other : RbTree α} (hn : Valid node c n)
    (ho : Valid other .black (n + 1)) (side : Side) (color : Color) (x : α) :
    (∃ s, borrow side color x node other = some (fork side color x node s, true) ∧
      Valid s .red n ∧ s.list = other.list) ∨
    ∃ y l r, borrow side color x node other = some (fork side color y l r, false) ∧
      Valid l .black (n + 1) ∧ Valid r .black (n + 1) ∧
      ∀ d, (fork side color y l r).list = (fork side d x node other).list := by
  obtain ⟨y, near, far, e, f, rfl, hnear, hfar⟩ := ho.exists_black side
  have hnear' := hnear.isRed
  have hfar' := hfar.isRed
  rw [borrow_fork]
  cases f with
  | red =>
    refine .inr ⟨y, fork side .black x node near, far.paint .black, ?_, hn.forkBlack hnear,
      hfar.paint_red, fun d => by cases side <;> simp [fork]⟩
    simp [hfar', toFar]
  | black =>
    cases e with
    | red =>
      obtain ⟨z, a, b, rfl, ha, hb⟩ := hnear.exists_red side
      refine .inr ⟨z, fork side .black x node a, fork side .black y b far, ?_, hn.forkBlack ha,
        hb.forkBlack hfar, fun d => by cases side <;> simp [fork]⟩
      simp [hnear', hfar', toFar]
    | black =>
      refine .inl ⟨fork side .red y near far, ?_, hnear.forkRed hfar, list_fork_congr rfl rfl⟩
      simp [hnear', hfar']

theorem eraseColor_of_isRed (h : t.isRed = true) :
    eraseColor t path = some (plug (t.paint .black) path) := by
  cases path <;> simp [eraseColor, h, plug]

theorem Hole.eraseColor {node : RbTree α} (h : Hole path .black (n + 1)) (ht : Valid node c n) :
    ∃ t m, eraseColor node path = some t ∧ Valid t .black m ∧ t.list = (plug node path).list := by
  fun_induction RedBlack.eraseColor node path generalizing n c with
  | case1 node =>
    cases c with
    | red => exact ⟨_, _, rfl, ht.paint_red, list_paint _ _⟩
    | black => exact ⟨_, _, rfl, ht.paint_black ▸ ht, list_paint _ _⟩
  | case2 node side color x other path hred =>
    obtain rfl := ht.isRed.mp hred
    obtain ⟨m, hm⟩ := h.fill ht.paint_red
    exact ⟨_, m, rfl, hm, list_plug_congr (list_paint _ _) _⟩
  | case3 node side color x path hblack y l r =>
    cases h with
    | red hs => cases hs
    | black hs hp =>
      cases hs with
      | red hl hr =>
        have hchild : ∀ side, Valid ((RbTree.node .red y l r).child side) .black (n + 1) := by
          intro side
          cases side
          · exact hl
          · exact hr
        -- the list below the new `other` is the one below the old one, turned
        have hturn : ∀ near : RbTree α, near.list =
            (fork side .red x node ((RbTree.node .red y l r).child side)).list →
            (fork side .black y near ((RbTree.node .red y l r).child (Side.other side))).list =
              (fork side .black x node (.node .red y l r)).list := by
          intro near hnear
          cases side <;> simp [fork, child, Side.other] at hnear ⊢ <;> simp [hnear]
        rename_i other
        simp only [other]
        obtain ⟨s, hs, hs', hlist⟩ | ⟨z, a, b, hab, ha, hb, hlist⟩ :=
          ht.borrow (hchild side) side .red x
        · rw [hs, Option.map_some, if_pos rfl, paint_fork]
          obtain ⟨m, hm⟩ := hp.fill ((ht.forkBlack hs').forkBlack (hchild (Side.other side)))
          exact ⟨_, m, rfl, hm, list_plug_congr (hturn _ (list_fork_congr rfl hlist)) path⟩
        · rw [hab, Option.map_some]
          obtain ⟨m, hm⟩ := hp.fill_painted ((ha.forkRed hb).forkBlack (hchild (Side.other side)))
          exact ⟨_, m, rfl, hm, (list_paint _ _).trans (list_plug_congr (hturn _ (hlist _)) path)⟩
  | case4 node side color x other path hblack hother ih =>
    cases h with
    | red hs hp =>
      obtain ⟨s, hs, hs', hlist⟩ | ⟨z, a, b, hab, ha, hb, hlist⟩ := ht.borrow hs side .red x
      · have hred : (fork side .red x node s).isRed = true := by cases side <;> rfl
        rw [hs, Option.bind_some, if_pos rfl, eraseColor_of_isRed hred, paint_fork]
        obtain ⟨m, hm⟩ := hp.any.fill (ht.forkBlack hs')
        exact ⟨_, m, rfl, hm, list_plug_congr (list_fork_congr rfl hlist) path⟩
      · rw [hab, Option.bind_some]
        obtain ⟨m, hm⟩ := hp.fill_painted (ha.forkRed hb)
        exact ⟨_, m, rfl, hm, (list_paint _ _).trans (list_plug_congr (hlist _) path)⟩
    | @black _ _ _ _ _ d _ hs hp =>
      cases d with
      | red =>
        cases hs with
        | red => exact (hother _ _ _ rfl).elim
      | black =>
        obtain ⟨s, hs, hs', hlist⟩ | ⟨z, a, b, hab, ha, hb, hlist⟩ := ht.borrow hs side .black x
        · rw [hs, Option.bind_some, if_pos rfl]
          obtain ⟨t, m, hrun, hm, hsame⟩ := ih (_, true) hp (ht.forkBlack hs')
          exact ⟨t, m, hrun, hm, hsame.trans (list_plug_congr (list_fork_congr rfl hlist) path)⟩
        · rw [hab, Option.bind_some]
          obtain ⟨m, hm⟩ := hp.fill_painted (ha.forkBlack hb)
          exact ⟨_, m, rfl, hm, (list_paint _ _).trans (list_plug_congr (hlist _) path)⟩

/-! ## The operations -/

theorem plug_append (t : RbTree α) (p q : List (Frame α)) :
    plug t (p ++ q) = plug (plug t p) q := by
  induction p generalizing t with
  | nil => rfl
  | cons f p ih => exact ih _

theorem list_plug (path : List (Frame α)) :
    ∃ pre post, ∀ t : RbTree α, (plug t path).list = pre ++ t.list ++ post := by
  induction path with
  | nil => exact ⟨[], [], fun t => by simp [plug]⟩
  | cons f path ih =>
    obtain ⟨pre, post, h⟩ := ih
    cases hside : f.side with
    | left =>
      refine ⟨pre, f.x :: f.sibling.list ++ post, ?_⟩
      intro t
      simp [plug, h, hside, fork]
    | right =>
      refine ⟨pre ++ f.sibling.list ++ [f.x], post, ?_⟩
      intro t
      simp [plug, h, hside, fork]

theorem Hole.descend {side : Side} {x : α} {s : RbTree α} (h : Hole path d n)
    (ht : Valid (fork side c x s t) d n) :
    ∃ e m, Valid s e m ∧ Hole (⟨side, c, x, t⟩ :: path) e m := by
  cases side <;> cases ht with
  | red hl hr =>
    first
    | exact ⟨_, _, hl, .red hr h⟩
    | exact ⟨_, _, hr, .red hl h⟩
  | black hl hr =>
    first
    | exact ⟨_, _, hl, .black hr h⟩
    | exact ⟨_, _, hr, .black hl h⟩

theorem Hole.zoom {inner : List (Frame α)} (h : Hole path c n) (ht : Valid (plug t inner) c n) :
    ∃ e m, Valid t e m ∧ Hole (inner ++ path) e m := by
  induction inner generalizing t with
  | nil => exact ⟨_, _, ht, h⟩
  | cons f inner ih =>
    obtain ⟨e, m, hv, hh⟩ := ih ht
    exact hh.descend hv

theorem Hole.unlink {x : α} {s : RbTree α} (h : Hole path d n) (side : Side)
    (ht : Valid (fork side c x s t) d n) :
    ∃ t' m, unlink c s path = some t' ∧ Valid t' .black m ∧ t'.list = (plug s path).list := by
  obtain ⟨e, m, hs, hh⟩ := h.descend ht
  cases hh with
  | red _ hp =>
    obtain ⟨k, hk⟩ := hp.any.fill hs
    exact ⟨_, k, rfl, hk, rfl⟩
  | black _ hp =>
    exact hp.eraseColor hs

theorem plug_wayTo (below : α → Bool) (t : RbTree α) : plug .nil (wayTo below t) = t := by
  induction t with
  | nil => rfl
  | node c x l r ihl ihr =>
    unfold wayTo
    split_ifs
    · rw [plug_append, ihl]
      rfl
    · rw [plug_append, ihr]
      rfl

theorem wayTo_eq_nil {below : α → Bool} : wayTo below t = [] ↔ t = .nil := by
  refine ⟨fun h => ?_, fun h => h ▸ rfl⟩
  rw [← plug_wayTo below t, h]
  rfl

theorem wayTo_congr {below below' : α → Bool} (h : ∀ e ∈ t.list, below e = below' e) :
    wayTo below t = wayTo below' t := by
  induction t with
  | nil => rfl
  | node c x l r ihl ihr =>
    rw [wayTo, wayTo, h x (by simp), ihl fun e he => h e (by simp [he]),
      ihr fun e he => h e (by simp [he])]

theorem wayTo_spec {below : α → Bool}
    (hs : t.list.Pairwise (fun a b => below a = true → below b = true)) :
    ∃ pre post, t.list = pre ++ post ∧ (∀ e ∈ pre, below e = false) ∧
      (∀ e ∈ post, below e = true) ∧
      (∀ u : RbTree α, (plug u (wayTo below t)).list = pre ++ u.list ++ post) ∧
      ∀ f, (wayTo below t).head? = some f →
        if f.side = .left then post.head? = some f.x else pre.getLast? = some f.x := by
  induction t with
  | nil => exact ⟨[], [], rfl, by simp, by simp, fun u => by simp [wayTo, plug], by simp [wayTo]⟩
  | node c x l r ihl ihr =>
    simp only [list_node, pairwise_append, pairwise_cons] at hs
    obtain ⟨hl, ⟨hxr, hr⟩, hlx⟩ := hs
    unfold wayTo
    split_ifs with hx
    · obtain ⟨pre, post, hin, hpre, hpost, hlist, hhead⟩ := ihl hl
      refine ⟨pre, post ++ x :: r.list, by simp [hin], hpre, ?_, ?_, ?_⟩
      · simp only [mem_append, mem_cons]
        rintro e (he | rfl | he)
        · exact hpost e he
        · exact hx
        · exact hxr e he hx
      · intro u
        simp [plug_append, plug, fork, hlist]
      · intro f hf
        rw [List.head?_append, Option.or_eq_some_iff, List.head?_eq_none_iff, wayTo_eq_nil] at hf
        rcases hf with hf | ⟨rfl, hf⟩
        · have hf' := hhead f hf
          split_ifs at hf' ⊢
          · rw [List.head?_append, hf', Option.some_or]
          · exact hf'
        · obtain ⟨rfl, rfl⟩ := append_eq_nil_iff.mp hin.symm
          cases hf
          rfl
    · obtain ⟨pre, post, hin, hpre, hpost, hlist, hhead⟩ := ihr hr
      refine ⟨l.list ++ x :: pre, post, by simp [hin], ?_, hpost, ?_, ?_⟩
      · simp only [mem_append, mem_cons]
        rintro e (he | rfl | he)
        · by_contra hne
          exact hx (hlx e he x (by simp) (by simpa using hne))
        · simpa using hx
        · exact hpre e he
      · intro u
        simp [plug_append, plug, fork, hlist]
      · intro f hf
        rw [List.head?_append, Option.or_eq_some_iff, List.head?_eq_none_iff, wayTo_eq_nil] at hf
        rcases hf with hf | ⟨rfl, hf⟩
        · have hf' := hhead f hf
          split_ifs at hf' ⊢
          · exact hf'
          · rw [List.getLast?_append, List.getLast?_cons, hf']
            rfl
        · obtain ⟨rfl, rfl⟩ := append_eq_nil_iff.mp hin.symm
          cases hf
          simp

theorem wayTo_leftmost (c : Color) (x : α) (l r : RbTree α) :
    ∃ d y s inner post, wayTo (fun _ => true) (.node c x l r) = ⟨.left, d, y, s⟩ :: inner ∧
      plug (.node d y .nil s) inner = .node c x l r ∧
      ∀ u : RbTree α, (plug u inner).list = u.list ++ post := by
  induction l generalizing c x r with
  | nil => exact ⟨c, x, r, [], [], rfl, rfl, fun u => by simp [plug]⟩
  | node cl xl ll lr ih =>
    obtain ⟨d, y, s, inner, post, hway, hplug, hpost⟩ := ih cl xl lr
    refine ⟨d, y, s, inner ++ [⟨.left, c, x, r⟩], post ++ x :: r.list, ?_, ?_, ?_⟩
    · rw [wayTo, if_pos rfl, hway]
      rfl
    · rw [plug_append, hplug]
      rfl
    · intro u
      simp [plug_append, plug, fork, hpost]

theorem rbErase_spec {x : α} {l r : RbTree α} {pre post : List α}
    (hv : Valid (plug (.node c x l r) path) .black n)
    (hlist : ∀ u : RbTree α, (plug u path).list = pre ++ u.list ++ post) :
    ∃ t m, rbErase c path l r = some t ∧ Valid t .black m ∧
      t.list = pre ++ l.list ++ (r.list ++ post) := by
  obtain ⟨e, m, hnode, hhole⟩ := Hole.root.zoom hv
  rw [append_nil] at hhole
  cases l with
  | nil =>
    obtain ⟨t, k, hrun, hk, hl⟩ := hhole.unlink .right hnode
    exact ⟨t, k, hrun, hk, by simp [hl, hlist]⟩
  | node cl xl ll lr =>
    cases r with
    | nil =>
      obtain ⟨t, k, hrun, hk, hl⟩ := hhole.unlink .left hnode
      exact ⟨t, k, hrun, hk, by simp [hl, hlist]⟩
    | node cr xr rl rr =>
      obtain ⟨d, y, s, inner, rest, hway, hplug, hrest⟩ := wayTo_leftmost cr xr rl rr
      -- the successor takes the place and the colour of the node
      have hplace : Valid (fork .right c y (.node cr xr rl rr) (.node cl xl ll lr)) e m := by
        cases hnode with
        | red hl hr => exact .red hl hr
        | black hl hr => exact .black hl hr
      obtain ⟨f, k, hr, hframe⟩ := hhole.descend hplace
      rw [← hplug] at hr
      obtain ⟨g, k', hmin, hinner⟩ := hframe.zoom hr
      obtain ⟨t, j, hrun, hj, hl⟩ := hinner.unlink .right hmin
      refine ⟨t, j, ?_, hj, ?_⟩
      · simp only [rbErase, hway]
        exact hrun
      · rw [hl, plug_append, ← hplug, hrest]
        simp [plug, fork, hlist, hrest]

variable (path) in
theorem insertColor_link (hv : Valid (plug .nil path) .black n) (new : α) :
    ∃ t m, insertColor (.node .red new .nil .nil) path = some t ∧ Valid t .black m ∧
      t.list = (plug (.node .red new .nil .nil) path).list := by
  obtain ⟨e, m, hnil, hhole⟩ := Hole.root.zoom hv
  rw [append_nil] at hhole
  cases hnil
  exact hhole.insertColor (.red .nil .nil)

theorem rbInsert_spec {below : α → Bool} (hv : Valid t .black n)
    (hs : t.list.Pairwise (fun a b => below a = true → below b = true)) (new : α) :
    ∃ t' m, rbInsert below new t = some t' ∧ Valid t' .black m ∧ ∃ pre post,
      t.list = pre ++ post ∧ t'.list = pre ++ new :: post ∧ (∀ e ∈ pre, below e = false) ∧
      ∀ e ∈ post, below e = true := by
  obtain ⟨pre, post, hin, hpre, hpost, hlist, -⟩ := wayTo_spec hs
  rw [← plug_wayTo below t] at hv
  obtain ⟨t', k, hrun, hk, hsame⟩ := insertColor_link _ hv new
  refine ⟨t', k, hrun, hk, pre, post, hin, ?_, hpre, hpost⟩
  rw [hsame, hlist]
  simp

/-! ## Roots

What a program keeps: `struct rb_root`, whose tree every operation leaves in balance. A pointer to
a node is the node itself, and `locate` finds the place where it is linked. -/

structure Spot (α : Type) where
  color : Color
  left : RbTree α
  right : RbTree α
  way : List (Frame α)

def Spot.under (f : Frame α) (s : Spot α) : Spot α := { s with way := s.way ++ [f] }

section Locate

variable [DecidableEq α]

def locate (x : α) : RbTree α → Option (Spot α)
  | .nil => none
  | .node c y l r =>
    ((locate x l).map (Spot.under ⟨.left, c, y, r⟩)).or
      (if y = x then some ⟨c, l, r, []⟩ else (locate x r).map (Spot.under ⟨.right, c, y, l⟩))

theorem locate_eq_none {x : α} (h : locate x t = none) : x ∉ t.list := by
  induction t with
  | nil => exact not_mem_nil
  | node c y l r ihl ihr =>
    rw [locate, Option.or_eq_none_iff, Option.map_eq_none_iff] at h
    obtain ⟨hl, h⟩ := h
    split_ifs at h with hy
    rw [Option.map_eq_none_iff] at h
    simp [ihl hl, ihr h, Ne.symm hy]

theorem locate_spec {x : α} {s : Spot α} (h : locate x t = some s) :
    plug (.node s.color x s.left s.right) s.way = t ∧ ∃ pre post,
      (∀ u : RbTree α, (plug u s.way).list = pre ++ u.list ++ post) ∧ x ∉ pre ++ s.left.list := by
  induction t generalizing s with
  | nil => cases h
  | node c y l r ihl ihr =>
    rw [locate, Option.or_eq_some_iff, Option.map_eq_some_iff, Option.map_eq_none_iff] at h
    rcases h with ⟨s, hs, rfl⟩ | ⟨hl, h⟩
    · obtain ⟨hplug, pre, post, hlist, hx⟩ := ihl hs
      refine ⟨?_, pre, post ++ y :: r.list, ?_, hx⟩
      · rw [Spot.under, plug_append, hplug]
        rfl
      · intro u
        simp [Spot.under, plug_append, plug, fork, hlist]
    · have hxl := locate_eq_none hl
      split_ifs at h with hy
      · cases h
        exact ⟨by rw [hy]; rfl, [], [], fun u => by simp [plug], hxl⟩
      · obtain ⟨s, hs, rfl⟩ := Option.map_eq_some_iff.mp h
        obtain ⟨hplug, pre, post, hlist, hx⟩ := ihr hs
        refine ⟨?_, l.list ++ y :: pre, post, ?_, ?_⟩
        · rw [Spot.under, plug_append, hplug]
          rfl
        · intro u
          simp [Spot.under, plug_append, plug, fork, hlist]
        · rw [append_assoc, mem_append, not_or]
          refine ⟨hxl, ?_⟩
          rw [cons_append, mem_cons, not_or]
          exact ⟨Ne.symm hy, hx⟩

def linkRight (last new : α) (t : RbTree α) : Option (RbTree α) :=
  match locate last t with
  | some ⟨c, l, .nil, way⟩ => insertColor (.node .red new .nil .nil) (⟨.right, c, last, l⟩ :: way)
  | _ => none

theorem linkRight_valid {last new : α} {t' : RbTree α} (hv : Valid t .black n)
    (h : linkRight last new t = some t') : ∃ m, Valid t' .black m := by
  unfold linkRight at h
  split at h
  · next c l way hs =>
    rw [← (locate_spec hs).1] at hv
    obtain ⟨t'', m, hrun, hv', -⟩ := insertColor_link (⟨.right, c, last, l⟩ :: way) hv new
    rw [h] at hrun
    cases hrun
    exact ⟨m, hv'⟩
  · cases h

theorem linkRight_list {last : α} {pre : List α} (hv : Valid t .black n)
    (hlast : t.list = pre ++ [last]) (hpre : last ∉ pre) (new : α) :
    ∃ t', linkRight last new t = some t' ∧ t'.list = pre ++ [last, new] := by
  cases hs : locate last t with
  | none => exact absurd (by simp [hlast]) (locate_eq_none hs)
  | some s =>
    obtain ⟨c, l, r, way⟩ := s
    obtain ⟨hplug, before, behind, hlist, -⟩ := locate_spec hs
    -- nothing stands behind the last node
    have hsplit : pre ++ last :: [] = before ++ l.list ++ last :: (r.list ++ behind) := by
      rw [← hlast, ← hplug, hlist]
      simp
    obtain ⟨hpre', -, hrest⟩ :=
      (append_cons_inj_of_notMem hpre not_mem_nil).mp hsplit
    obtain ⟨hr, rfl⟩ := append_eq_nil_iff.mp hrest.symm
    cases r with
    | node => simp at hr
    | nil =>
      rw [← hplug] at hv
      obtain ⟨t', m, hrun, -, hout⟩ := insertColor_link (⟨.right, c, last, l⟩ :: way) hv new
      refine ⟨t', by rw [linkRight, hs]; exact hrun, ?_⟩
      rw [hout, plug, hlist, hpre']
      simp [fork]

end Locate

structure RbRoot (α : Type) where
  tree : RbTree α
  valid : ∃ n, Valid tree .black n

namespace RbRoot

def nodes (t : RbRoot α) : BinaryTree α := t.tree.nodes

def list (t : RbRoot α) : List α := inorder t.nodes

def empty : RbRoot α := ⟨.nil, 0, .nil⟩

@[simp] theorem list_empty : (empty : RbRoot α).list = [] := rfl

/-- The owner and the side of the empty link at which a search ends. -/
def parent (below : α → Bool) (t : RbRoot α) : Option (α × Side) :=
  (wayTo below t.tree).head?.map fun f => (f.x, f.side)

theorem parent_eq_none {below : α → Bool} {t : RbRoot α} :
    t.parent below = none ↔ t.list = [] := by
  rw [parent, Option.map_eq_none_iff, List.head?_eq_none_iff, wayTo_eq_nil, list, nodes]
  cases t.tree <;> simp [RbTree.nodes]

def insert (below : α → Bool) (new : α) (t : RbRoot α) : RbRoot α where
  tree := (rbInsert below new t.tree).getD t.tree
  valid := by
    obtain ⟨n, hv⟩ := t.valid
    rw [← plug_wayTo below t.tree] at hv
    obtain ⟨t', m, hrun, hv', -⟩ := insertColor_link _ hv new
    exact ⟨m, by rw [rbInsert, hrun]; exact hv'⟩

theorem parent_congr {below below' : α → Bool} {t : RbRoot α}
    (h : ∀ e ∈ t.list, below e = below' e) : t.parent below = t.parent below' := by
  rw [parent, parent, wayTo_congr h]

theorem insert_congr {below below' : α → Bool} {t : RbRoot α}
    (h : ∀ e ∈ t.list, below e = below' e) (new : α) :
    t.insert below new = t.insert below' new := by
  simp only [insert, rbInsert, wayTo_congr h]

theorem insert_spec {below : α → Bool} (t : RbRoot α)
    (hs : t.list.Pairwise (fun a b => below a = true → below b = true)) (new : α) :
    ∃ pre post, t.list = pre ++ post ∧ (∀ e ∈ pre, below e = false) ∧
      (∀ e ∈ post, below e = true) ∧ (t.insert below new).list = pre ++ new :: post ∧
      ∀ x side, t.parent below = some (x, side) →
        if side = .left then post.head? = some x else pre.getLast? = some x := by
  obtain ⟨n, hv⟩ := t.valid
  obtain ⟨pre, post, hin, hpre, hpost, hlist, hhead⟩ := wayTo_spec hs
  rw [← plug_wayTo below t.tree] at hv
  obtain ⟨t', m, hrun, -, hout⟩ := insertColor_link _ hv new
  refine ⟨pre, post, hin, hpre, hpost, ?_, ?_⟩
  · change ((rbInsert below new t.tree).getD t.tree).list = _
    rw [rbInsert, hrun, Option.getD_some, hout, hlist]
    simp
  · intro x side hparent
    obtain ⟨f, hf, heq⟩ := Option.map_eq_some_iff.mp hparent
    cases heq
    exact hhead f hf

section Nodes

variable [DecidableEq α]

/-- An insertion at the right link of `last`. -/
def insertRight (last new : α) (t : RbRoot α) : RbRoot α where
  tree := (linkRight last new t.tree).getD t.tree
  valid := by
    obtain ⟨n, hv⟩ := t.valid
    cases hrun : linkRight last new t.tree with
    | none => exact t.valid
    | some t' => exact linkRight_valid hv hrun

theorem list_insertRight {t : RbRoot α} {pre : List α} {last : α} (hlast : t.list = pre ++ [last])
    (hpre : last ∉ pre) (new : α) : (t.insertRight last new).list = pre ++ [last, new] := by
  obtain ⟨n, hv⟩ := t.valid
  obtain ⟨t', hrun, hlist⟩ := linkRight_list hv hlast hpre new
  change ((linkRight last new t.tree).getD t.tree).list = _
  rw [hrun, Option.getD_some, hlist]

def erase (x : α) (t : RbRoot α) : RbRoot α where
  tree := ((locate x t.tree).bind fun s => rbErase s.color s.way s.left s.right).getD t.tree
  valid := by
    obtain ⟨n, hv⟩ := t.valid
    cases hs : locate x t.tree with
    | none => exact t.valid
    | some s =>
      obtain ⟨hplug, pre, post, hlist, -⟩ := locate_spec hs
      rw [← hplug] at hv
      obtain ⟨t', m, hrun, hv', -⟩ := rbErase_spec hv hlist
      exact ⟨m, by rw [Option.bind_some, hrun]; exact hv'⟩

@[simp] theorem list_erase (x : α) (t : RbRoot α) : (t.erase x).list = t.list.erase x := by
  obtain ⟨n, hv⟩ := t.valid
  change RbTree.list (((locate x t.tree).bind fun s =>
    rbErase s.color s.way s.left s.right).getD t.tree) = t.tree.list.erase x
  cases hs : locate x t.tree with
  | none => exact (erase_of_not_mem (locate_eq_none hs)).symm
  | some s =>
    obtain ⟨hplug, pre, post, hlist, hout⟩ := locate_spec hs
    have hv' := hv
    rw [← hplug] at hv'
    obtain ⟨t', m, hrun, -, hlist'⟩ := rbErase_spec hv' hlist
    have hin : t.tree.list = pre ++ s.left.list ++ x :: (s.right.list ++ post) := by
      rw [← hplug, hlist]
      simp
    rw [Option.bind_some, hrun, Option.getD_some, hlist', hin, erase_append_right _ hout,
      erase_cons_head]

/-- `rb_replace_node`: the new node takes the links and the colour of the old one. -/
def replace (old new : α) (t : RbRoot α) : RbRoot α where
  tree := t.tree.map fun x => if x = old then new else x
  valid := t.valid.imp fun _ hv => hv.map _

theorem list_replace (old new : α) (t : RbRoot α) :
    (t.replace old new).list = t.list.map fun x => if x = old then new else x :=
  list_map _ _

end Nodes

end RbRoot

/-! ## Every tree -/

def depth : RbTree α → ℕ
  | .nil => 0
  | .node _ _ l r => max (depth l) (depth r) + 1

theorem Valid.depth_le (h : Valid t c n) :
    depth t ≤ 2 * n + (if c = .red then 1 else 0) ∧ 2 ^ n ≤ t.list.length + 1 := by
  induction h with
  | nil => exact ⟨le_rfl, le_rfl⟩
  | red _ _ ihl ihr =>
    simp only [reduceCtorEq, if_false] at ihl ihr
    simp only [depth, list_node, length_append, length_cons, if_true]
    omega
  | @black _ _ _ c d n _ _ ihl ihr =>
    have hl : (if c = .red then 1 else 0) ≤ 1 := by split_ifs <;> omega
    have hr : (if d = .red then 1 else 0) ≤ 1 := by split_ifs <;> omega
    simp only [depth, list_node, length_append, length_cons, reduceCtorEq, if_false,
      Nat.pow_succ]
    omega

/-- The trees that a program can come to: nodes are put in by their key, and any node is taken
    out. -/
inductive Built {κ : Type} [LinearOrder κ] (key : α → κ) : RbTree α → Prop
  | empty : Built key .nil
  | insert {t t' : RbTree α} {x : α} : Built key t →
      rbInsert (fun e => key x < key e) x t = some t' → Built key t'
  | erase {t : RbTree α} {c : Color} {x : α} {l r : RbTree α} {path : List (Frame α)} :
      Built key (plug (.node c x l r) path) → rbErase c path l r = some t → Built key t

section Built

variable {κ : Type} [LinearOrder κ] {key : α → κ}

theorem below_mono (h : t.list.Pairwise (fun a b => key a ≤ key b)) (x : α) :
    t.list.Pairwise (fun a b => decide (key x < key a) = true → decide (key x < key b) = true) := by
  refine h.imp ?_
  intro a b hab ha
  rw [decide_eq_true_eq] at ha ⊢
  exact lt_of_lt_of_le ha hab

theorem Built.inv (h : Built key t) :
    (∃ n, Valid t .black n) ∧ t.list.Pairwise (fun a b => key a ≤ key b) := by
  induction h with
  | empty => exact ⟨⟨0, .nil⟩, .nil⟩
  | @insert t t' x _ hrun ih =>
    obtain ⟨⟨n, hv⟩, hs⟩ := ih
    obtain ⟨u, m, hu, hv', pre, post, hin, hout, hpre, hpost⟩ :=
      rbInsert_spec hv (below_mono hs x) x
    rw [hrun] at hu
    cases hu
    refine ⟨⟨m, hv'⟩, ?_⟩
    rw [hin] at hs
    rw [hout]
    rw [pairwise_append] at hs ⊢
    refine ⟨hs.1, pairwise_cons.mpr ⟨?_, hs.2.1⟩, ?_⟩
    · exact fun e he => (decide_eq_true_eq.mp (hpost e he)).le
    · intro a ha b hb
      rcases mem_cons.mp hb with rfl | hb
      · exact not_lt.mp (decide_eq_false_iff_not.mp (hpre a ha))
      · exact hs.2.2 a ha b hb
  | erase _ hrun ih =>
    obtain ⟨⟨n, hv⟩, hs⟩ := ih
    obtain ⟨pre, post, hlist⟩ := list_plug _
    obtain ⟨u, m, hu, hv', hout⟩ := rbErase_spec hv hlist
    rw [hrun] at hu
    cases hu
    refine ⟨⟨m, hv'⟩, hs.sublist ?_⟩
    rw [hout, hlist, list_node, append_assoc, append_assoc, append_assoc]
    exact ((sublist_cons_self _ _).append_left _).append_left pre

/-- Every tree is a red-black tree in the order of the keys and at most `2 log (n + 1)` deep; an
    insertion and the removal of any node end and do what they should to the order. -/
theorem rb_tree_balanced (h : Built key t) :
    (∃ n, Valid t .black n) ∧ t.list.Pairwise (fun a b => key a ≤ key b) ∧
    depth t ≤ 2 * Nat.log 2 (t.list.length + 1) ∧
    (∀ x, ∃ t' pre post, rbInsert (fun e => key x < key e) x t = some t' ∧
      t.list = pre ++ post ∧ t'.list = pre ++ x :: post) ∧
    ∀ c x l r path, plug (.node c x l r) path = t → ∃ t' pre post,
      rbErase c path l r = some t' ∧ t.list = pre ++ x :: post ∧ t'.list = pre ++ post := by
  obtain ⟨⟨n, hv⟩, hs⟩ := h.inv
  refine ⟨⟨n, hv⟩, hs, ?_, ?_, ?_⟩
  · obtain ⟨hdepth, hsize⟩ := hv.depth_le
    rw [if_neg (by decide)] at hdepth
    have hlog := Nat.le_log_of_pow_le Nat.one_lt_two hsize
    omega
  · intro x
    obtain ⟨t', -, hrun, -, pre, post, hin, hout, -⟩ := rbInsert_spec hv (below_mono hs x) x
    exact ⟨t', pre, post, hrun, hin, hout⟩
  · rintro c x l r path rfl
    obtain ⟨pre, post, hlist⟩ := list_plug path
    obtain ⟨t', -, hrun, -, hout⟩ := rbErase_spec hv hlist
    exact ⟨t', _, _, hrun, by simp [hlist], hout⟩

theorem fourNodes_balanced : ∃ t : RbTree ℕ, Built id t ∧ t.list = [1, 3, 4] ∧ depth t = 2 ∧
    depth t ≤ 2 * Nat.log 2 (t.list.length + 1) := by
  have h₀ : Built id (.nil : RbTree ℕ) := .empty
  have h := (((h₀.insert (x := 2) rfl).insert (x := 1) rfl).insert (x := 3) rfl).insert (x := 4) rfl
  have h' := @Built.erase _ _ _ _ _ _ 2 _ _ [] h rfl
  exact ⟨_, h', rfl, rfl, (rb_tree_balanced h').2.2.1⟩

end Built

end MyWorkflow.RedBlack
