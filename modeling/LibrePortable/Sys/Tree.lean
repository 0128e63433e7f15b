import Mathlib.Logic.Function.Basic
import LibrePortable.Lib.RedBlack

/-!
# Red-black trees in memory

The functions that `RB_GENERATE` of `include/compat/sys/tree.h` makes. A node carries
its two children, its parent and its colour; a NULL pointer is `none`, and following
one gives no result. Neither does a loop that is still running after `fuel` turns.

The source writes everything that depends on a direction twice, once for each side.
Here it is written once with a side as an argument; where the source decides between
its two copies, so does the definition. `RB_AUGMENT` does nothing, as it is not
defined.
-/

namespace LibrePortable.Sys

open Lib

variable {E : Type}

/-- `RB_ENTRY` -/
structure RbEntry (E : Type) where
  left : Option E
  right : Option E
  parent : Option E
  color : Color
deriving DecidableEq, Repr

/-- `RB_LEFT` or `RB_RIGHT` -/
def RbEntry.child (e : RbEntry E) : Side → Option E
  | .left => e.left
  | .right => e.right

def RbEntry.setChild (e : RbEntry E) (d : Side) (v : Option E) : RbEntry E :=
  match d with
  | .left => { e with left := v }
  | .right => { e with right := v }

def RbEntry.setParent (e : RbEntry E) (v : Option E) : RbEntry E := { e with parent := v }

def RbEntry.setColor (e : RbEntry E) (c : Color) : RbEntry E := { e with color := c }

/-- A head and the entries of all nodes. -/
structure RbHeap (E : Type) where
  /-- `RB_ROOT` -/
  root : Option E
  entry : E → RbEntry E

namespace RbHeap

def child (h : RbHeap E) (d : Side) (x : E) : Option E := (h.entry x).child d

def parent (h : RbHeap E) (x : E) : Option E := (h.entry x).parent

def color (h : RbHeap E) (x : E) : Color := (h.entry x).color

/-- `p && RB_COLOR(p) == RB_RED` -/
def isRed (h : RbHeap E) : Option E → Bool
  | some x => h.color x = .red
  | none => false

def setRoot (h : RbHeap E) (v : Option E) : RbHeap E := { h with root := v }

section Writes

variable [DecidableEq E]

def setEntry (h : RbHeap E) (x : E) (e : RbEntry E) : RbHeap E :=
  { h with entry := Function.update h.entry x e }

def setChild (h : RbHeap E) (d : Side) (x : E) (v : Option E) : RbHeap E :=
  h.setEntry x ((h.entry x).setChild d v)

def setParent (h : RbHeap E) (x : E) (v : Option E) : RbHeap E :=
  h.setEntry x ((h.entry x).setParent v)

def setColor (h : RbHeap E) (x : E) (c : Color) : RbHeap E :=
  h.setEntry x ((h.entry x).setColor c)

/-- `if (p) RB_PARENT(p) = v;` -/
def reparent (h : RbHeap E) (p : Option E) (v : Option E) : RbHeap E :=
  match p with
  | some x => h.setParent x v
  | none => h

/-- `if (p) RB_COLOR(p) = RB_BLACK;` -/
def blacken (h : RbHeap E) (p : Option E) : RbHeap E :=
  match p with
  | some x => h.setColor x .black
  | none => h

/-- `RB_SET_BLACKRED` -/
def setBlackRed (h : RbHeap E) (black red : E) : RbHeap E :=
  (h.setColor black .black).setColor red .red

/-- Make whatever points to `elm` from above point to `v`: the parent's left link if it
leads to `elm`, else its right link, else the root. -/
def replaceChild (h : RbHeap E) (parent : Option E) (elm : E) (v : Option E) : RbHeap E :=
  match parent with
  | some p => if h.child .left p = some elm then h.setChild .left p v else h.setChild .right p v
  | none => h.setRoot v

end Writes

end RbHeap

section Functions

variable [DecidableEq E]

/-- `RB_INIT` -/
def rbInit (h : RbHeap E) : RbHeap E := h.setRoot none

/-- `RB_ROTATE_LEFT`, `RB_ROTATE_RIGHT`: `elm` moves down on side `d`. -/
def rbRotate (d : Side) (h : RbHeap E) (elm : E) : Option (RbHeap E) := do
  let tmp ← h.child d.other elm
  let h := h.setChild d.other elm (h.child d tmp)
  let h := h.reparent (h.child d tmp) (some elm)
  let h := h.setParent tmp (h.parent elm)
  let h := h.replaceChild (h.parent elm) elm (some tmp)
  let h := h.setChild d tmp (some elm)
  pure (h.setParent elm (some tmp))

/-- `RB_INSERT_COLOR` -/
def rbInsertColor : (fuel : Nat) → (h : RbHeap E) → (elm : E) → Option (RbHeap E)
  | 0, _, _ => none
  | fuel + 1, h, elm =>
    if h.isRed (h.parent elm) then do
      let parent ← h.parent elm
      let gparent ← h.parent parent
      let d : Side := if h.child .left gparent = some parent then .left else .right
      let tmp := h.child d.other gparent
      if h.isRed tmp then
        let h := h.blacken tmp
        let h := h.setBlackRed parent gparent
        rbInsertColor fuel h gparent
      else if h.child d.other parent = some elm then
        let h ← rbRotate d h parent
        -- `parent` and `elm` change places
        let h := h.setBlackRed elm gparent
        let h ← rbRotate d.other h gparent
        rbInsertColor fuel h parent
      else
        let h := h.setBlackRed parent gparent
        let h ← rbRotate d.other h gparent
        rbInsertColor fuel h elm
    else do
      let root ← h.root
      pure (h.setColor root .black)

/-- The end of a turn of `RB_REMOVE_COLOR`: `tmp` takes the place and the colour of its
parent, between two black nodes. -/
def rbRemoveTurn (d : Side) (h : RbHeap E) (parent tmp : E) : Option (RbHeap E) :=
  let h := h.setColor tmp (h.color parent)
  let h := h.setColor parent .black
  let h := h.blacken (h.child d.other tmp)
  rbRotate d h parent

/-- `RB_REMOVE_COLOR` from where `tmp` is black: the heap, and `none` to go on with
`elm = parent` or `some` of what `break` leaves in `elm`. -/
def rbRemoveCases (d : Side) (h : RbHeap E) (parent tmp : E) :
    Option (RbHeap E × Option (Option E)) :=
  if ¬ h.isRed (h.child .left tmp) ∧ ¬ h.isRed (h.child .right tmp) then
    some (h.setColor tmp .red, none)
  else do
    let (h, tmp) ←
      if ¬ h.isRed (h.child d.other tmp) then do
        let h := h.blacken (h.child d tmp)
        let h := h.setColor tmp .red
        let h ← rbRotate d.other h tmp
        let tmp ← h.child d.other parent
        pure (h, tmp)
      else
        pure (h, tmp)
    let h ← rbRemoveTurn d h parent tmp
    pure (h, some h.root)

/-- `RB_REMOVE_COLOR` -/
def rbRemoveColor : (fuel : Nat) → (h : RbHeap E) → (parent elm : Option E) → Option (RbHeap E)
  | 0, _, _, _ => none
  | fuel + 1, h, parent, elm =>
    if ¬ h.isRed elm ∧ elm ≠ h.root then do
      let parent ← parent
      let d : Side := if h.child .left parent = elm then .left else .right
      let tmp ← h.child d.other parent
      let (h, tmp) ←
        if h.color tmp = .red then do
          let h := h.setBlackRed tmp parent
          let h ← rbRotate d h parent
          let tmp ← h.child d.other parent
          pure (h, tmp)
        else
          pure (h, tmp)
      let turned ← rbRemoveCases d h parent tmp
      match turned.2 with
      | none => rbRemoveColor fuel turned.1 (turned.1.parent parent) (some parent)
      | some elm => pure (turned.1.blacken elm)
    else
      some (h.blacken elm)

/-- `while (RB_LEFT(elm)) elm = RB_LEFT(elm);`, or to the right. -/
def rbFar (d : Side) (h : RbHeap E) : (fuel : Nat) → (elm : E) → Option E
  | 0, _ => none
  | fuel + 1, elm =>
    match h.child d elm with
    | none => some elm
    | some next => rbFar d h fuel next

/-- `do { RB_AUGMENT(left); } while ((left = RB_PARENT(left)));` -/
def rbAugmentUp (h : RbHeap E) : (fuel : Nat) → (left : E) → Option Unit
  | 0, _ => none
  | fuel + 1, left =>
    match h.parent left with
    | none => some ()
    | some left => rbAugmentUp h fuel left

/-- Take `elm` out of its place and put `child` there. `RB_REMOVE` does this to the
node itself, or to its successor. -/
def rbUnlink (h : RbHeap E) (elm : E) (child : Option E) : RbHeap E :=
  let parent := h.parent elm
  let h := h.reparent child parent
  h.replaceChild parent elm child

/-- `RB_REMOVE`, where the node has two children: the heap, `parent`, `child` and
`color` at the label `color`. -/
def rbRemoveInner (fuel : Nat) (h : RbHeap E) (old : E) :
    Option (RbHeap E × Option E × Option E × Color) := do
  let elm ← h.child .right old
  let elm ← rbFar .left h fuel elm
  let child := h.child .right elm
  let parent := h.parent elm
  let color := h.color elm
  let h := rbUnlink h elm child
  let parent := if h.parent elm = some old then some elm else parent
  let h := h.setEntry elm (h.entry old)
  let h := h.replaceChild (h.parent old) old (some elm)
  let left ← h.child .left old
  let h := h.setParent left (some elm)
  let h := h.reparent (h.child .right old) (some elm)
  match parent with
  | some left => rbAugmentUp h fuel left
  | none => some ()
  pure (h, parent, child, color)

/-- `RB_REMOVE` -/
def rbRemove (fuel : Nat) (h : RbHeap E) (elm : E) : Option (RbHeap E × E) := do
  let old := elm
  let (h, parent, child, color) ←
    if h.child .left elm = none then
      pure (rbUnlink h elm (h.child .right elm), h.parent elm, h.child .right elm, h.color elm)
    else if h.child .right elm = none then
      pure (rbUnlink h elm (h.child .left elm), h.parent elm, h.child .left elm, h.color elm)
    else
      rbRemoveInner fuel h old
  let h ← if color = .black then rbRemoveColor fuel h parent child else pure h
  pure (h, old)

/-! ## Searching -/

variable (cmp : E → E → Int)

/-- The search of `RB_INSERT`: the equal node if there is one, and `parent` and `comp`. -/
def rbDescend (h : RbHeap E) (elm : E) :
    (fuel : Nat) → (tmp parent : Option E) → (comp : Int) → Option (Option E × Option E × Int)
  | 0, _, _, _ => none
  | _ + 1, none, parent, comp => some (none, parent, comp)
  | fuel + 1, some tmp, _, _ =>
    let comp := cmp elm tmp
    if comp < 0 then rbDescend h elm fuel (h.child .left tmp) (some tmp) comp
    else if comp > 0 then rbDescend h elm fuel (h.child .right tmp) (some tmp) comp
    else some (some tmp, some tmp, comp)

/-- `RB_SET` -/
def rbSet (h : RbHeap E) (elm : E) (parent : Option E) : RbHeap E :=
  h.setEntry elm ⟨none, none, parent, .red⟩

/-- `RB_INSERT` -/
def rbInsert (fuel : Nat) (h : RbHeap E) (elm : E) : Option (RbHeap E × Option E) := do
  match ← rbDescend cmp h elm fuel h.root none 0 with
  | (some tmp, _, _) => pure (h, some tmp)
  | (none, parent, comp) =>
    let h := rbSet h elm parent
    let h := match parent with
      | some p => if comp < 0 then h.setChild .left p (some elm)
          else h.setChild .right p (some elm)
      | none => h.setRoot (some elm)
    let h ← rbInsertColor fuel h elm
    pure (h, none)

/-- `RB_FIND` -/
def rbFind (h : RbHeap E) (elm : E) : (fuel : Nat) → (tmp : Option E) → Option (Option E)
  | 0, _ => none
  | _ + 1, none => some none
  | fuel + 1, some tmp =>
    let comp := cmp elm tmp
    if comp < 0 then rbFind h elm fuel (h.child .left tmp)
    else if comp > 0 then rbFind h elm fuel (h.child .right tmp)
    else some (some tmp)

/-- `RB_NFIND` -/
def rbNfind (h : RbHeap E) (elm : E) : (fuel : Nat) → (tmp res : Option E) → Option (Option E)
  | 0, _, _ => none
  | _ + 1, none, res => some res
  | fuel + 1, some tmp, res =>
    let comp := cmp elm tmp
    if comp < 0 then rbNfind h elm fuel (h.child .left tmp) (some tmp)
    else if comp > 0 then rbNfind h elm fuel (h.child .right tmp) res
    else some (some tmp)

omit [DecidableEq E] in
/-- `RB_MINMAX`: `RB_MIN` goes to the left, `RB_MAX` to the right. -/
def rbMinMax (d : Side) (h : RbHeap E) :
    (fuel : Nat) → (tmp parent : Option E) → Option (Option E)
  | 0, _, _ => none
  | _ + 1, none, parent => some parent
  | fuel + 1, some tmp, _ => rbMinMax d h fuel (h.child d tmp) (some tmp)

/-- `while (RB_PARENT(elm) && elm == RB_RIGHT(RB_PARENT(elm))) elm = RB_PARENT(elm);`, or
with the left link. -/
def rbClimb (d : Side) (h : RbHeap E) : (fuel : Nat) → (elm : E) → Option E
  | 0, _ => none
  | fuel + 1, elm =>
    match h.parent elm with
    | none => some elm
    | some p => if h.child d p = some elm then rbClimb d h fuel p else some elm

/-- `RB_NEXT` towards the right, `RB_PREV` towards the left. -/
def rbStep (d : Side) (h : RbHeap E) (fuel : Nat) (elm : E) : Option (Option E) :=
  match h.child d elm with
  | some x => do
    let far ← rbFar d.other h fuel x
    pure (some far)
  | none =>
    match h.parent elm with
    | some p =>
      if h.child d.other p = some elm then some (some p)
      else do
        let top ← rbClimb d h fuel elm
        pure (h.parent top)
    | none => do
      let top ← rbClimb d h fuel elm
      pure (h.parent top)

/-- The nodes `RB_FOREACH` visits from `x` on; towards the left, `RB_FOREACH_REVERSE`. -/
def rbForeach (d : Side) (h : RbHeap E) (fuel : Nat) :
    (turns : Nat) → (x : Option E) → Option (List E)
  | 0, _ => none
  | _ + 1, none => some []
  | turns + 1, some x => do
    let y ← rbStep d h fuel x
    let rest ← rbForeach d h fuel turns y
    pure (x :: rest)

/-- `RB_FOREACH_SAFE`, or `RB_FOREACH_REVERSE_SAFE`, with a body that removes the nodes
in `S`: the heap it leaves and the nodes it visits. -/
def rbForeachSafe (d : Side) (S : E → Bool) (fuel : Nat) :
    (turns : Nat) → (h : RbHeap E) → (x : Option E) → Option (RbHeap E × List E)
  | 0, _, _ => none
  | _ + 1, h, none => some (h, [])
  | turns + 1, h, some x => do
    let y ← rbStep d h fuel x
    let h ← if S x then do
        let (h, _) ← rbRemove fuel h x
        pure h
      else
        pure h
    let (h, rest) ← rbForeachSafe d S fuel turns h y
    pure (h, x :: rest)

/-- `RB_FOREACH` towards the right, `RB_FOREACH_REVERSE` towards the left. -/
def rbForeachLoop (d : Side) (h : RbHeap E) (fuel turns : Nat) : Option (List E) := do
  let x ← rbMinMax d.other h fuel h.root none
  rbForeach d h fuel turns x

/-- `RB_FOREACH_SAFE` towards the right, `RB_FOREACH_REVERSE_SAFE` towards the left. -/
def rbForeachSafeLoop (d : Side) (S : E → Bool) (h : RbHeap E) (fuel turns : Nat) :
    Option (RbHeap E × List E) := do
  let x ← rbMinMax d.other h fuel h.root none
  rbForeachSafe d S fuel turns h x

end Functions

end LibrePortable.Sys
