import Mathlib.Logic.Function.Basic
import LibrePortable.Lib.Metered
import LibrePortable.Lib.Splay

/-!
# Splay trees in memory

The functions that `SPLAY_PROTOTYPE` and `SPLAY_GENERATE` of `include/compat/sys/tree.h`
make. A node carries nothing but its two children; a NULL pointer is `none`, and
following one gives no result. Every turn of a loop takes one unit from the tank that
all loops of an operation share, and there is no result when that is empty.

As with the red-black trees, what the source writes twice is written once with a side
as an argument.
-/

namespace LibrePortable.Sys

open Lib

variable {E : Type}

/-- `SPLAY_ENTRY` -/
structure SplayEntry (E : Type) where
  left : Option E
  right : Option E
deriving DecidableEq, Repr

/-- `SPLAY_LEFT` or `SPLAY_RIGHT` -/
def SplayEntry.child (e : SplayEntry E) : Side → Option E
  | .left => e.left
  | .right => e.right

def SplayEntry.setChild (e : SplayEntry E) (d : Side) (v : Option E) : SplayEntry E :=
  match d with
  | .left => { e with left := v }
  | .right => { e with right := v }

/-- A head and the entries of all nodes. -/
structure SplayHeap (E : Type) where
  /-- `SPLAY_ROOT` -/
  root : Option E
  entry : E → SplayEntry E

/-- Where `__left` and `__right` point. -/
inductive Spot (E : Type) where
  /-- `&__node` -/
  | node
  | elm (elm : E)
deriving DecidableEq, Repr

/-- The heap and the local variables of `SPLAY`. -/
structure SplayWork (E : Type) where
  heap : SplayHeap E
  /-- `__node` -/
  node : SplayEntry E
  /-- `__left` -/
  left : Spot E
  /-- `__right` -/
  right : Spot E

namespace SplayHeap

def child (h : SplayHeap E) (d : Side) (x : E) : Option E := (h.entry x).child d

def setRoot (h : SplayHeap E) (v : Option E) : SplayHeap E := { h with root := v }

variable [DecidableEq E]

def setChild (h : SplayHeap E) (d : Side) (x : E) (v : Option E) : SplayHeap E :=
  { h with entry := Function.update h.entry x ((h.entry x).setChild d v) }

end SplayHeap

namespace SplayWork

def setHeap (w : SplayWork E) (h : SplayHeap E) : SplayWork E := { w with heap := h }

/-- `__left` or `__right` -/
def spot (w : SplayWork E) : Side → Spot E
  | .left => w.left
  | .right => w.right

def setSpot (w : SplayWork E) (d : Side) (p : Spot E) : SplayWork E :=
  match d with
  | .left => { w with left := p }
  | .right => { w with right := p }

/-- Set a link of the node that `p` points to. -/
def setChild [DecidableEq E] (w : SplayWork E) (d : Side) (p : Spot E) (v : Option E) :
    SplayWork E :=
  match p with
  | .node => { w with node := w.node.setChild d v }
  | .elm x => w.setHeap (w.heap.setChild d x v)

end SplayWork

section Functions

variable [DecidableEq E]

/-- `SPLAY_INIT` -/
def splayInit (h : SplayHeap E) : SplayHeap E := h.setRoot none

/-- `SPLAY_ROTATE_RIGHT`, where `tmp` is the left child of the root;
`SPLAY_ROTATE_LEFT`, where it is the right one. -/
def splayRotate (d : Side) (h : SplayHeap E) (tmp : E) : Option (SplayHeap E) := do
  let root ← h.root
  let h := h.setChild d root (h.child d.other tmp)
  let h := h.setChild d.other tmp h.root
  pure (h.setRoot (some tmp))

/-- `SPLAY_LINKLEFT(head, __right)`, and `SPLAY_LINKRIGHT(head, __left)` to the right. -/
def splayLink (d : Side) (w : SplayWork E) : Option (SplayWork E) := do
  let w := w.setChild d (w.spot d.other) w.heap.root
  let root ← w.heap.root
  let w := w.setSpot d.other (.elm root)
  pure (w.setHeap (w.heap.setRoot (w.heap.child d root)))

/-- `SPLAY_ASSEMBLE(head, &__node, __left, __right)` -/
def splayAssemble (w : SplayWork E) : Option (SplayHeap E) := do
  let root ← w.heap.root
  let w := w.setChild .right w.left (w.heap.child .left root)
  let w := w.setChild .left w.right (w.heap.child .right root)
  let h := w.heap.setChild .left root (w.node.child .right)
  pure (h.setChild .right root (w.node.child .left))

/-- What both loops do with `__comp` on side `d`: `again` is the second comparison, and
`false` means that they `break`. -/
def splayTurn (d : Side) (again : E → Bool) (w : SplayWork E) : Option (SplayWork E × Bool) := do
  let root ← w.heap.root
  match w.heap.child d root with
  | none => pure (w, false)
  | some tmp =>
    if again tmp then
      let h ← splayRotate d w.heap tmp
      let root ← h.root
      if (h.child d root).isNone then
        pure (w.setHeap h, false)
      else
        let w ← splayLink d (w.setHeap h)
        pure (w, true)
    else
      let w ← splayLink d w
      pure (w, true)

/-- The loop of `SPLAY`; `cut` compares the key with a node. -/
def splayLoop (cut : E → Int) : (fuel : Nat) → SplayWork E → Option (SplayWork E × Nat)
  | 0, _ => none
  | fuel + 1, w => do
    let root ← w.heap.root
    let comp := cut root
    if comp = 0 then
      pure (w, fuel)
    else
      let d : Side := if comp < 0 then .left else .right
      let turned ← splayTurn d (fun tmp => d.Towards (cut tmp)) w
      if turned.2 then splayLoop cut fuel turned.1 else pure (turned.1, fuel)

/-- The loop of `SPLAY_MINMAX`, which does nothing when `comp` is 0. -/
def splayMinMaxLoop (comp : Int) : (fuel : Nat) → SplayWork E → Option (SplayWork E × Nat)
  | 0, _ => none
  | fuel + 1, w =>
    if comp = 0 then
      splayMinMaxLoop comp fuel w
    else do
      let d : Side := if comp < 0 then .left else .right
      let turned ← splayTurn d (fun _ => d.Towards comp) w
      if turned.2 then splayMinMaxLoop comp fuel turned.1 else pure (turned.1, fuel)

/-- `SPLAY_LEFT(&__node) = SPLAY_RIGHT(&__node) = NULL; __left = __right = &__node;` -/
def splayStart (h : SplayHeap E) : SplayWork E := ⟨h, ⟨none, none⟩, .node, .node⟩

variable (cmp : E → E → Int)

/-- `SPLAY` -/
def splay (h : SplayHeap E) (elm : E) : Metered (SplayHeap E) := do
  let w ← (splayLoop (cmp elm) · (splayStart h) : Metered (SplayWork E))
  unmetered (splayAssemble w)

/-- `SPLAY_MINMAX` -/
def splayMinMax (h : SplayHeap E) (comp : Int) : Metered (SplayHeap E) := do
  let w ← (splayMinMaxLoop comp · (splayStart h) : Metered (SplayWork E))
  unmetered (splayAssemble w)

/-- `SPLAY_FIND` -/
def splayFind (h : SplayHeap E) (elm : E) : Metered (SplayHeap E × Option E) :=
  if h.root.isNone then
    pure (h, none)
  else do
    let h ← splay cmp h elm
    let root ← unmetered h.root
    if cmp elm root = 0 then pure (h, some root) else pure (h, none)

/-- `SPLAY_INSERT` -/
def splayInsert (h : SplayHeap E) (elm : E) : Metered (SplayHeap E × Option E) :=
  if h.root.isNone then
    let h := (h.setChild .right elm none).setChild .left elm none
    pure (h.setRoot (some elm), none)
  else do
    let h ← splay cmp h elm
    let root ← unmetered h.root
    let comp := cmp elm root
    if comp < 0 then
      let h := h.setChild .left elm (h.child .left root)
      let h := h.setChild .right elm (some root)
      let h := h.setChild .left root none
      pure (h.setRoot (some elm), none)
    else if comp > 0 then
      let h := h.setChild .right elm (h.child .right root)
      let h := h.setChild .left elm (some root)
      let h := h.setChild .right root none
      pure (h.setRoot (some elm), none)
    else
      pure (h, some root)

/-- `SPLAY_REMOVE`. What it returns is the argument, not the node it has taken out. -/
def splayRemove (h : SplayHeap E) (elm : E) : Metered (SplayHeap E × Option E) :=
  if h.root.isNone then
    pure (h, none)
  else do
    let h ← splay cmp h elm
    let root ← unmetered h.root
    if cmp elm root = 0 then
      if (h.child .left root).isNone then
        pure (h.setRoot (h.child .right root), some elm)
      else
        let tmp := h.child .right root
        let h ← splay cmp (h.setRoot (h.child .left root)) elm
        let root ← unmetered h.root
        pure (h.setChild .right root tmp, some elm)
    else
      pure (h, none)

omit [DecidableEq E] in
/-- `while (SPLAY_LEFT(elm) != NULL) elm = SPLAY_LEFT(elm);` -/
def splayLeftmost (h : SplayHeap E) : (fuel : Nat) → (elm : E) → Option (E × Nat)
  | 0, _ => none
  | fuel + 1, elm =>
    match h.child .left elm with
    | none => some (elm, fuel)
    | some next => splayLeftmost h fuel next

/-- `SPLAY_NEXT` -/
def splayNext (h : SplayHeap E) (elm : E) : Metered (SplayHeap E × Option E) := do
  let h ← splay cmp h elm
  match h.child .right elm with
  | none => pure (h, none)
  | some x => do
    let elm ← (splayLeftmost h · x : Metered E)
    pure (h, some elm)

/-- `SPLAY_MIN`, `SPLAY_MAX`: `SPLAY_MIN_MAX` with `SPLAY_NEGINF` or `SPLAY_INF`. -/
def splayEnd (h : SplayHeap E) (val : Int) : Metered (SplayHeap E × Option E) :=
  if h.root.isNone then
    pure (h, none)
  else do
    let h ← splayMinMax h val
    pure (h, h.root)

/-- The nodes `SPLAY_FOREACH` visits from `x` on. -/
def splayForeach : (turns : Nat) → SplayHeap E → (x : Option E) → Metered (SplayHeap E × List E)
  | 0, _, _ => unmetered none
  | _ + 1, h, none => pure (h, [])
  | turns + 1, h, some x => do
    let (h, y) ← splayNext cmp h x
    let (h, rest) ← splayForeach turns h y
    pure (h, x :: rest)

/-- `SPLAY_FOREACH` -/
def splayForeachLoop (turns : Nat) (h : SplayHeap E) : Metered (SplayHeap E × List E) := do
  let (h, x) ← splayEnd h (-1)
  splayForeach cmp turns h x

end Functions

end LibrePortable.Sys
