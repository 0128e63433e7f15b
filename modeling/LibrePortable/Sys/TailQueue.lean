import Mathlib.Logic.Function.Basic
import LibrePortable.Lib.Transition

/-!
# Tail queues

`TAILQ` of `include/compat/sys/queue.h`. A head holds the pointer to the first
element and the *address* of the last `next` pointer; an entry holds the pointer
to the next element and the *address* of the pointer that leads to it. Both
structs begin with a pointer to an element and continue with an address of one,
and `TAILQ_LAST` and `TAILQ_PREV` rely on that: they cast the address of an
entry's `tqe_next` to a head in order to read the word behind it.

The memory below is therefore two words for every head and every element, found
through the address of the first of them. Reading or writing through a NULL
address has no result.
-/

namespace LibrePortable.Sys

variable {H E : Type}

/-- The address of a pointer to an element. -/
inductive Slot (H E : Type) where
  /-- `&(head)->tqh_first` -/
  | first (head : H)
  /-- `&(elm)->field.tqe_next` -/
  | next (elm : E)
deriving DecidableEq

/-- Heads and entries, word by word. -/
structure Mem (H E : Type) where
  /-- The pointer at an address: `tqh_first`, `tqe_next`. -/
  link : Slot H E → Option E
  /-- The word behind it: `tqh_last`, `tqe_prev`. -/
  back : Slot H E → Option (Slot H E)

namespace Mem

variable [DecidableEq H] [DecidableEq E]

def setLink (m : Mem H E) (p : Slot H E) (v : Option E) : Mem H E :=
  { m with link := Function.update m.link p v }

def setBack (m : Mem H E) (p : Slot H E) (v : Option (Slot H E)) : Mem H E :=
  { m with back := Function.update m.back p v }

@[simp] theorem setLink_back (m : Mem H E) (p : Slot H E) (v : Option E) :
    (m.setLink p v).back = m.back := rfl

@[simp] theorem setBack_link (m : Mem H E) (p : Slot H E) (v : Option (Slot H E)) :
    (m.setBack p v).link = m.link := rfl

@[simp] theorem setLink_link (m : Mem H E) (p l : Slot H E) (v : Option E) :
    (m.setLink p v).link l = if l = p then v else m.link l := by
  simp [setLink, Function.update_apply]

@[simp] theorem setBack_back (m : Mem H E) (p l : Slot H E) (v : Option (Slot H E)) :
    (m.setBack p v).back l = if l = p then v else m.back l := by
  simp [setBack, Function.update_apply]

end Mem

/-! ## Access -/

/-- `TAILQ_FIRST` -/
def tailqFirst (m : Mem H E) (head : H) : Option E := m.link (.first head)

/-- `TAILQ_NEXT` -/
def tailqNext (m : Mem H E) (elm : E) : Option E := m.link (.next elm)

/-- `*(((struct headname *)p)->tqh_last)`: the pointer whose address stands behind `p`. -/
def castLast (m : Mem H E) (p : Slot H E) : Option (Option E) := do
  let last ← m.back p
  pure (m.link last)

/-- `TAILQ_LAST` -/
def tailqLast (m : Mem H E) (head : H) : Option (Option E) := do
  let p ← m.back (.first head)
  castLast m p

/-- `TAILQ_PREV` -/
def tailqPrev (m : Mem H E) (elm : E) : Option (Option E) := do
  let p ← m.back (.next elm)
  castLast m p

/-- `TAILQ_EMPTY` -/
def tailqEmpty (m : Mem H E) (head : H) : Bool := (tailqFirst m head).isNone

/-- The elements a `TAILQ_FOREACH` visits from `var` on. -/
def tailqForeach (m : Mem H E) : (fuel : Nat) → (var : Option E) → Option (List E)
  | 0, _ => none
  | _ + 1, none => some []
  | fuel + 1, some var => do
      let rest ← tailqForeach m fuel (tailqNext m var)
      pure (var :: rest)

/-- The elements a `TAILQ_FOREACH_REVERSE` visits from `var` on. -/
def tailqForeachReverse (m : Mem H E) : (fuel : Nat) → (var : Option E) → Option (List E)
  | 0, _ => none
  | _ + 1, none => some []
  | fuel + 1, some var => do
      let before ← tailqPrev m var
      let rest ← tailqForeachReverse m fuel before
      pure (var :: rest)

/-! ## Functions -/

section Functions

variable [DecidableEq H] [DecidableEq E]

/-- `if (x != NULL) x->field.tqe_prev = v; else (head)->tqh_last = v`, as it stands
in four of the macros. -/
def setPrevOrLast (m : Mem H E) (head : H) (x : Option E) (v : Option (Slot H E)) : Mem H E :=
  match x with
  | some x => m.setBack (.next x) v
  | none => m.setBack (.first head) v

def tailqInit (m : Mem H E) (head : H) : Mem H E :=
  let m := m.setLink (.first head) none
  m.setBack (.first head) (some (.first head))

def tailqInsertHead (m : Mem H E) (head : H) (elm : E) : Mem H E :=
  let m := m.setLink (.next elm) (tailqFirst m head)
  let m := setPrevOrLast m head (tailqFirst m head) (some (.next elm))
  let m := m.setLink (.first head) (some elm)
  m.setBack (.next elm) (some (.first head))

def tailqInsertTail (m : Mem H E) (head : H) (elm : E) : Option (Mem H E) := do
  let m := m.setLink (.next elm) none
  let m := m.setBack (.next elm) (m.back (.first head))
  let last ← m.back (.first head)
  let m := m.setLink last (some elm)
  pure (m.setBack (.first head) (some (.next elm)))

def tailqInsertAfter (m : Mem H E) (head : H) (listelm elm : E) : Mem H E :=
  let m := m.setLink (.next elm) (tailqNext m listelm)
  let m := setPrevOrLast m head (tailqNext m elm) (some (.next elm))
  let m := m.setLink (.next listelm) (some elm)
  m.setBack (.next elm) (some (.next listelm))

def tailqInsertBefore (m : Mem H E) (listelm elm : E) : Option (Mem H E) := do
  let m := m.setBack (.next elm) (m.back (.next listelm))
  let m := m.setLink (.next elm) (some listelm)
  let prev ← m.back (.next listelm)
  let m := m.setLink prev (some elm)
  pure (m.setBack (.next listelm) (some (.next elm)))

/-- `_Q_INVALIDATE` leaves the fields alone unless `QUEUE_MACRO_DEBUG` is defined. -/
def tailqRemove (m : Mem H E) (head : H) (elm : E) : Option (Mem H E) := do
  let m := setPrevOrLast m head (tailqNext m elm) (m.back (.next elm))
  let prev ← m.back (.next elm)
  pure (m.setLink prev (tailqNext m elm))

def tailqReplace (m : Mem H E) (head : H) (elm elm2 : E) : Option (Mem H E) := do
  let m := m.setLink (.next elm2) (tailqNext m elm)
  let m := setPrevOrLast m head (tailqNext m elm2) (some (.next elm2))
  let m := m.setBack (.next elm2) (m.back (.next elm))
  let prev ← m.back (.next elm2)
  pure (m.setLink prev (some elm2))

def tailqConcat (m : Mem H E) (head1 head2 : H) : Option (Mem H E) :=
  if tailqEmpty m head2 then
    some m
  else do
    let last ← m.back (.first head1)
    let m := m.setLink last (tailqFirst m head2)
    let x ← tailqFirst m head2
    let m := m.setBack (.next x) (m.back (.first head1))
    let m := m.setBack (.first head1) (m.back (.first head2))
    pure (tailqInit m head2)

end Functions

/-! ## Operations and the sequences they stand for -/

/-- One application of one of the macros. -/
inductive Op (H E : Type) where
  | init (head : H)
  | insertHead (head : H) (elm : E)
  | insertTail (head : H) (elm : E)
  | insertAfter (head : H) (listelm elm : E)
  | insertBefore (listelm elm : E)
  | remove (head : H) (elm : E)
  | replace (head : H) (elm elm2 : E)
  | concat (head1 head2 : H)

/-- What the queues hold; a head that was never initialised holds nothing. -/
abbrev Contents (H E : Type) := H → Option (List E)

section Operations

variable [DecidableEq H] [DecidableEq E]

def Op.run (m : Mem H E) : Op H E → Option (Mem H E)
  | .init head => some (tailqInit m head)
  | .insertHead head elm => some (tailqInsertHead m head elm)
  | .insertTail head elm => tailqInsertTail m head elm
  | .insertAfter head listelm elm => some (tailqInsertAfter m head listelm elm)
  | .insertBefore listelm elm => tailqInsertBefore m listelm elm
  | .remove head elm => tailqRemove m head elm
  | .replace head elm elm2 => tailqReplace m head elm elm2
  | .concat head1 head2 => tailqConcat m head1 head2

/-- An element of some queue. -/
def Member (A : Contents H E) (e : E) : Prop := ∃ q es, A q = some es ∧ e ∈ es

/-- When an operation may be applied. -/
def Op.Legal (A : Contents H E) : Op H E → Prop
  | .init _ => True
  | .insertHead head elm | .insertTail head elm => (∃ es, A head = some es) ∧ ¬ Member A elm
  | .insertAfter head listelm elm => (∃ es, A head = some es ∧ listelm ∈ es) ∧ ¬ Member A elm
  | .insertBefore listelm elm => Member A listelm ∧ ¬ Member A elm
  | .remove head elm => ∃ es, A head = some es ∧ elm ∈ es
  | .replace head elm elm2 => (∃ es, A head = some es ∧ elm ∈ es) ∧ ¬ Member A elm2
  | .concat head1 head2 =>
      head1 ≠ head2 ∧ (∃ es, A head1 = some es) ∧ ∃ es, A head2 = some es

def putAfter (l e : E) : List E → List E :=
  List.flatMap fun x => if x = l then [x, e] else [x]

def putBefore (l e : E) : List E → List E :=
  List.flatMap fun x => if x = l then [e, x] else [x]

/-- Apply `f` to the sequence of one queue. -/
def Contents.at (A : Contents H E) (q : H) (f : List E → List E) : Contents H E :=
  Function.update A q ((A q).map f)

/-- The same operation on sequences. -/
def Op.apply (A : Contents H E) : Op H E → Contents H E
  | .init head => Function.update A head (some [])
  | .insertHead head elm => A.at head (elm :: ·)
  | .insertTail head elm => A.at head (· ++ [elm])
  | .insertAfter head listelm elm => A.at head (putAfter listelm elm)
  -- the macro is not told which queue the element is in
  | .insertBefore listelm elm => fun q => (A q).map (putBefore listelm elm)
  | .remove head elm => A.at head (·.erase elm)
  | .replace head elm elm2 => A.at head (·.replace elm elm2)
  | .concat head1 head2 =>
      (A.at head1 (· ++ (A head2).getD [])).at head2 fun _ => []

/-- The queues an operation works on. -/
def Op.Touches (A : Contents H E) : Op H E → H → Prop
  | .init head, q | .insertHead head _, q | .insertTail head _, q
  | .insertAfter head _ _, q | .remove head _, q | .replace head _ _, q => q = head
  | .insertBefore listelm _, q => ∃ es, A q = some es ∧ listelm ∈ es
  | .concat head1 head2, q => q = head1 ∨ q = head2

/-- Heads and elements in memory beside the sequences they stand for. At first no
head is initialised, and the words hold anything. -/
def tailQueues (H E : Type) [DecidableEq H] [DecidableEq E] :
    Lib.Lts (Mem H E × Contents H E) (Op H E) where
  Init s := ∀ q, s.2 q = none
  Step s op s' := op.Legal s.2 ∧ op.run s.1 = some s'.1 ∧ s'.2 = op.apply s.2

end Operations

end LibrePortable.Sys
