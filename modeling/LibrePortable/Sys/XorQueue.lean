import LibrePortable.Sys.Lists

/-!
# XOR simple queues

`XSIMPLEQ` of `include/compat/sys/queue.h`: a `SIMPLEQ` whose pointers are stored
exclusive-or'ed with a cookie that `XSIMPLEQ_INIT` draws for each head. The macros go
through an `unsigned long` to do that, so words matter here. A pointer has `p` bits and
an `unsigned long` has `u`; where it has fewer, as on 64-bit Windows, the cast drops the
upper bits of an address.

A layout says at which addresses the heads and the entries are. Following a word that
is no such address has no result.
-/

namespace LibrePortable.Sys

variable {H E : Type} {p u : Nat}

/-- Where elements, and the pointers to elements, are in memory. -/
structure Layout (H E : Type) (p : Nat) where
  /-- A pointer to an element. -/
  elem : E → BitVec p
  /-- The address of a pointer: `&(head)->sqx_first`, `&(elm)->field.sqx_next`. -/
  slot : Slot H E → BitVec p
  /-- The element that a pointer leads to. -/
  elemAt : BitVec p → Option E
  /-- The pointer that an address is the address of. -/
  slotAt : BitVec p → Option (Slot H E)
  elemAt_elem : ∀ e, elemAt (elem e) = some e
  slotAt_slot : ∀ l, slotAt (slot l) = some l
  elem_ne_zero : ∀ e, elem e ≠ 0

/-- A pointer to an element, or NULL. -/
def Layout.ptr (L : Layout H E p) : Option E → BitVec p
  | none => 0
  | some e => L.elem e

/-- Heads and entries. -/
structure XorMem (H E : Type) (p u : Nat) where
  /-- `sqx_first`, `sqx_next` -/
  link : Slot H E → BitVec p
  /-- `sqx_last` -/
  last : H → BitVec p
  /-- `sqx_cookie` -/
  cookie : H → BitVec u

/-- `(__typeof(ptr))(cookie ^ (unsigned long)(ptr))` -/
def xorWord (cookie : BitVec u) (ptr : BitVec p) : BitVec p :=
  (cookie ^^^ ptr.setWidth u).setWidth p

namespace XorMem

/-- `XSIMPLEQ_XOR` -/
def xor (m : XorMem H E p u) (head : H) (ptr : BitVec p) : BitVec p := xorWord (m.cookie head) ptr

section Writes

variable [DecidableEq H] [DecidableEq E]

def setLink (m : XorMem H E p u) (l : Slot H E) (v : BitVec p) : XorMem H E p u :=
  { m with link := Function.update m.link l v }

def setLast (m : XorMem H E p u) (head : H) (v : BitVec p) : XorMem H E p u :=
  { m with last := Function.update m.last head v }

def setCookie (m : XorMem H E p u) (head : H) (v : BitVec u) : XorMem H E p u :=
  { m with cookie := Function.update m.cookie head v }

end Writes

end XorMem

section Functions

variable (L : Layout H E p)

/-- `XSIMPLEQ_FIRST` -/
def xsimpleqFirst (m : XorMem H E p u) (head : H) : BitVec p :=
  m.xor head (m.link (.first head))

/-- `XSIMPLEQ_EMPTY` -/
def xsimpleqEmpty (m : XorMem H E p u) (head : H) : Bool := xsimpleqFirst m head = 0

/-- The elements an `XSIMPLEQ_FOREACH` visits from `var` on. -/
def xsimpleqForeach (m : XorMem H E p u) (head : H) : (fuel : Nat) → BitVec p → Option (List E)
  | 0, _ => none
  | fuel + 1, var =>
    if var = 0 then
      some []
    else do
      let e ← L.elemAt var
      let rest ← xsimpleqForeach m head fuel (m.xor head (m.link (.next e)))
      pure (e :: rest)

variable [DecidableEq H] [DecidableEq E]

/-- `XSIMPLEQ_INIT`; `cookie` is what `arc4random_buf` gives. -/
def xsimpleqInit (m : XorMem H E p u) (head : H) (cookie : BitVec u) : XorMem H E p u :=
  let m := m.setCookie head cookie
  let m := m.setLink (.first head) (m.xor head 0)
  m.setLast head (m.xor head (L.slot (.first head)))

/-- `if (w == XSIMPLEQ_XOR(head, NULL)) (head)->sqx_last = XSIMPLEQ_XOR(head, &v);` -/
def xsetLast (m : XorMem H E p u) (head : H) (w : BitVec p) (v : Slot H E) : XorMem H E p u :=
  if w = m.xor head 0 then m.setLast head (m.xor head (L.slot v)) else m

def xsimpleqInsertHead (m : XorMem H E p u) (head : H) (elm : E) : XorMem H E p u :=
  let m := m.setLink (.next elm) (m.link (.first head))
  let m := xsetLast L m head (m.link (.next elm)) (.next elm)
  m.setLink (.first head) (m.xor head (L.elem elm))

def xsimpleqInsertTail (m : XorMem H E p u) (head : H) (elm : E) : Option (XorMem H E p u) := do
  let m := m.setLink (.next elm) (m.xor head 0)
  let last ← L.slotAt (m.xor head (m.last head))
  let m := m.setLink last (m.xor head (L.elem elm))
  pure (m.setLast head (m.xor head (L.slot (.next elm))))

def xsimpleqInsertAfter (m : XorMem H E p u) (head : H) (listelm elm : E) : XorMem H E p u :=
  let m := m.setLink (.next elm) (m.link (.next listelm))
  let m := xsetLast L m head (m.link (.next elm)) (.next elm)
  m.setLink (.next listelm) (m.xor head (L.elem elm))

def xsimpleqRemoveHead (m : XorMem H E p u) (head : H) : Option (XorMem H E p u) := do
  let first ← L.elemAt (m.xor head (m.link (.first head)))
  let m := m.setLink (.first head) (m.link (.next first))
  pure (xsetLast L m head (m.link (.first head)) (.first head))

def xsimpleqRemoveAfter (m : XorMem H E p u) (head : H) (elm : E) : Option (XorMem H E p u) := do
  let next ← L.elemAt (m.xor head (m.link (.next elm)))
  let m := m.setLink (.next elm) (m.link (.next next))
  pure (xsetLast L m head (m.link (.next elm)) (.next elm))

end Functions

/-- One application of one of the `XSIMPLEQ` macros; there is none for concatenation, as
every head has its own cookie. -/
inductive XsimpleqOp (H E : Type) (u : Nat) where
  | init (head : H) (cookie : BitVec u)
  | insertHead (head : H) (elm : E)
  | insertTail (head : H) (elm : E)
  | insertAfter (head : H) (listelm elm : E)
  | removeHead (head : H)
  | removeAfter (head : H) (elm : E)

/-- The same on a simple queue. -/
def XsimpleqOp.plain : XsimpleqOp H E u → SimpleqOp H E
  | .init head _ => .init head
  | .insertHead head elm => .insertHead head elm
  | .insertTail head elm => .insertTail head elm
  | .insertAfter head listelm elm => .insertAfter head listelm elm
  | .removeHead head => .removeHead head
  | .removeAfter head elm => .removeAfter head elm

variable [DecidableEq H] [DecidableEq E]

def XsimpleqOp.run (L : Layout H E p) (m : XorMem H E p u) :
    XsimpleqOp H E u → Option (XorMem H E p u)
  | .init head cookie => some (xsimpleqInit L m head cookie)
  | .insertHead head elm => some (xsimpleqInsertHead L m head elm)
  | .insertTail head elm => xsimpleqInsertTail L m head elm
  | .insertAfter head listelm elm => some (xsimpleqInsertAfter L m head listelm elm)
  | .removeHead head => xsimpleqRemoveHead L m head
  | .removeAfter head elm => xsimpleqRemoveAfter L m head elm

/-- Words beside the sequences they stand for. -/
def xorQueues (u : Nat) (L : Layout H E p) :
    Lib.Lts (XorMem H E p u × Contents H E) (XsimpleqOp H E u) where
  Init s := ∀ q, s.2 q = none
  Step s op s' := op.plain.Legal s.2 ∧ op.run L s.1 = some s'.1 ∧ s'.2 = op.plain.apply s.2

end LibrePortable.Sys
