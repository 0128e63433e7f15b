import LibrePortable.Sys.TailQueue

/-!
# Singly-linked lists, lists and simple queues

The other lists of `include/compat/sys/queue.h`. Their heads and entries hold some of
the words of a tail queue: an `SLIST` only the pointers to the next element, a `LIST`
also the address of the pointer that leads to an element, a `SIMPLEQ` instead the
address of the last pointer in the head. So the memory is that of the tail queues, in
which a list has no business with the other words.

The macros that take no head, such as `LIST_REMOVE`, do not know which list they work
on. Those that take an element for granted, such as `SIMPLEQ_REMOVE_HEAD`, have no
result without it, and neither has a search that leaves its list.
-/

namespace LibrePortable.Sys

variable {H E : Type} [DecidableEq H] [DecidableEq E]

/-! ## Singly-linked lists -/

def slistInit (m : Mem H E) (head : H) : Mem H E := m.setLink (.first head) none

def slistInsertAfter (m : Mem H E) (slistelm elm : E) : Mem H E :=
  let m := m.setLink (.next elm) (m.link (.next slistelm))
  m.setLink (.next slistelm) (some elm)

def slistInsertHead (m : Mem H E) (head : H) (elm : E) : Mem H E :=
  let m := m.setLink (.next elm) (m.link (.first head))
  m.setLink (.first head) (some elm)

def slistRemoveAfter (m : Mem H E) (elm : E) : Option (Mem H E) := do
  let next ← m.link (.next elm)
  pure (m.setLink (.next elm) (m.link (.next next)))

def slistRemoveHead (m : Mem H E) (head : H) : Option (Mem H E) := do
  let first ← m.link (.first head)
  pure (m.setLink (.first head) (m.link (.next first)))

omit [DecidableEq H] in
/-- `while (curelm->field.sle_next != (elm)) curelm = curelm->field.sle_next;` -/
def slistBefore (m : Mem H E) (elm : E) : (fuel : Nat) → (curelm : Option E) → Option E
  | 0, _ => none
  | _ + 1, none => none
  | fuel + 1, some curelm =>
    if m.link (.next curelm) = some elm then some curelm
    else slistBefore m elm fuel (m.link (.next curelm))

/-- `SLIST_REMOVE` -/
def slistRemove (fuel : Nat) (m : Mem H E) (head : H) (elm : E) : Option (Mem H E) :=
  if m.link (.first head) = some elm then
    slistRemoveHead m head
  else do
    let curelm ← slistBefore m elm fuel (m.link (.first head))
    let next ← m.link (.next curelm)
    pure (m.setLink (.next curelm) (m.link (.next next)))

/-! ## Lists -/

def listInit (m : Mem H E) (head : H) : Mem H E := m.setLink (.first head) none

/-- `if (x != NULL) x->field.le_prev = v;` -/
def setPrev (m : Mem H E) (x : Option E) (v : Option (Slot H E)) : Mem H E :=
  match x with
  | some x => m.setBack (.next x) v
  | none => m

def listInsertAfter (m : Mem H E) (listelm elm : E) : Mem H E :=
  let m := m.setLink (.next elm) (m.link (.next listelm))
  let m := setPrev m (m.link (.next listelm)) (some (.next elm))
  let m := m.setLink (.next listelm) (some elm)
  m.setBack (.next elm) (some (.next listelm))

def listInsertBefore (m : Mem H E) (listelm elm : E) : Option (Mem H E) := do
  let m := m.setBack (.next elm) (m.back (.next listelm))
  let m := m.setLink (.next elm) (some listelm)
  let prev ← m.back (.next listelm)
  let m := m.setLink prev (some elm)
  pure (m.setBack (.next listelm) (some (.next elm)))

def listInsertHead (m : Mem H E) (head : H) (elm : E) : Mem H E :=
  let m := m.setLink (.next elm) (m.link (.first head))
  let m := setPrev m (m.link (.first head)) (some (.next elm))
  let m := m.setLink (.first head) (some elm)
  m.setBack (.next elm) (some (.first head))

def listRemove (m : Mem H E) (elm : E) : Option (Mem H E) := do
  let m := setPrev m (m.link (.next elm)) (m.back (.next elm))
  let prev ← m.back (.next elm)
  pure (m.setLink prev (m.link (.next elm)))

def listReplace (m : Mem H E) (elm elm2 : E) : Option (Mem H E) := do
  let m := m.setLink (.next elm2) (m.link (.next elm))
  let m := setPrev m (m.link (.next elm2)) (some (.next elm2))
  let m := m.setBack (.next elm2) (m.back (.next elm))
  let prev ← m.back (.next elm2)
  pure (m.setLink prev (some elm2))

/-! ## Simple queues -/

def simpleqInit (m : Mem H E) (head : H) : Mem H E :=
  let m := m.setLink (.first head) none
  m.setBack (.first head) (some (.first head))

/-- `if (x == NULL) (head)->sqh_last = v;` -/
def setLast (m : Mem H E) (head : H) (x : Option E) (v : Slot H E) : Mem H E :=
  match x with
  | some _ => m
  | none => m.setBack (.first head) (some v)

def simpleqInsertHead (m : Mem H E) (head : H) (elm : E) : Mem H E :=
  let m := m.setLink (.next elm) (m.link (.first head))
  let m := setLast m head (m.link (.next elm)) (.next elm)
  m.setLink (.first head) (some elm)

def simpleqInsertTail (m : Mem H E) (head : H) (elm : E) : Option (Mem H E) := do
  let m := m.setLink (.next elm) none
  let last ← m.back (.first head)
  let m := m.setLink last (some elm)
  pure (m.setBack (.first head) (some (.next elm)))

def simpleqInsertAfter (m : Mem H E) (head : H) (listelm elm : E) : Mem H E :=
  let m := m.setLink (.next elm) (m.link (.next listelm))
  let m := setLast m head (m.link (.next elm)) (.next elm)
  m.setLink (.next listelm) (some elm)

def simpleqRemoveHead (m : Mem H E) (head : H) : Option (Mem H E) := do
  let first ← m.link (.first head)
  let m := m.setLink (.first head) (m.link (.next first))
  pure (setLast m head (m.link (.first head)) (.first head))

def simpleqRemoveAfter (m : Mem H E) (head : H) (elm : E) : Option (Mem H E) := do
  let next ← m.link (.next elm)
  let m := m.setLink (.next elm) (m.link (.next next))
  pure (setLast m head (m.link (.next elm)) (.next elm))

def simpleqConcat (m : Mem H E) (head1 head2 : H) : Option (Mem H E) :=
  if (m.link (.first head2)).isNone then
    some m
  else do
    let last ← m.back (.first head1)
    let m := m.setLink last (m.link (.first head2))
    let m := m.setBack (.first head1) (m.back (.first head2))
    pure (simpleqInit m head2)

/-! ## Operations and the sequences they stand for -/

/-- One application of one of the `SLIST` macros. -/
inductive SlistOp (H E : Type) where
  | init (head : H)
  | insertAfter (slistelm elm : E)
  | insertHead (head : H) (elm : E)
  | removeAfter (elm : E)
  | removeHead (head : H)
  | remove (head : H) (elm : E)

/-- One application of one of the `LIST` macros. -/
inductive ListOp (H E : Type) where
  | init (head : H)
  | insertAfter (listelm elm : E)
  | insertBefore (listelm elm : E)
  | insertHead (head : H) (elm : E)
  | remove (elm : E)
  | replace (elm elm2 : E)

/-- One application of one of the `SIMPLEQ` macros. -/
inductive SimpleqOp (H E : Type) where
  | init (head : H)
  | insertHead (head : H) (elm : E)
  | insertTail (head : H) (elm : E)
  | insertAfter (head : H) (listelm elm : E)
  | removeHead (head : H)
  | removeAfter (head : H) (elm : E)
  | concat (head1 head2 : H)

/-- Without the element behind `e`. -/
def eraseAfter (e : E) : List E → List E
  | x :: y :: ys => if x = e then x :: ys else x :: eraseAfter e (y :: ys)
  | xs => xs

/-- What the lists hold, where a macro that takes no head works on all of them. -/
def Contents.all (A : Contents H E) (f : List E → List E) : Contents H E :=
  fun q => (A q).map f

/-- An element of some list, and not its last one. -/
def Followed (A : Contents H E) (e : E) : Prop := ∃ q xs y ys, A q = some (xs ++ e :: y :: ys)

def SlistOp.run (fuel : Nat) (m : Mem H E) : SlistOp H E → Option (Mem H E)
  | .init head => some (slistInit m head)
  | .insertAfter slistelm elm => some (slistInsertAfter m slistelm elm)
  | .insertHead head elm => some (slistInsertHead m head elm)
  | .removeAfter elm => slistRemoveAfter m elm
  | .removeHead head => slistRemoveHead m head
  | .remove head elm => slistRemove fuel m head elm

def SlistOp.Legal (A : Contents H E) : SlistOp H E → Prop
  | .init _ => True
  | .insertAfter slistelm elm => Member A slistelm ∧ ¬ Member A elm
  | .insertHead head elm => (∃ es, A head = some es) ∧ ¬ Member A elm
  | .removeAfter elm => Followed A elm
  | .removeHead head => ∃ e es, A head = some (e :: es)
  | .remove head elm => ∃ es, A head = some es ∧ elm ∈ es

def SlistOp.apply (A : Contents H E) : SlistOp H E → Contents H E
  | .init head => Function.update A head (some [])
  | .insertAfter slistelm elm => A.all (putAfter slistelm elm)
  | .insertHead head elm => A.at head (elm :: ·)
  | .removeAfter elm => A.all (eraseAfter elm)
  | .removeHead head => A.at head List.tail
  | .remove head elm => A.at head (·.erase elm)

def ListOp.run (m : Mem H E) : ListOp H E → Option (Mem H E)
  | .init head => some (listInit m head)
  | .insertAfter listelm elm => some (listInsertAfter m listelm elm)
  | .insertBefore listelm elm => listInsertBefore m listelm elm
  | .insertHead head elm => some (listInsertHead m head elm)
  | .remove elm => listRemove m elm
  | .replace elm elm2 => listReplace m elm elm2

def ListOp.Legal (A : Contents H E) : ListOp H E → Prop
  | .init _ => True
  | .insertAfter listelm elm | .insertBefore listelm elm => Member A listelm ∧ ¬ Member A elm
  | .insertHead head elm => (∃ es, A head = some es) ∧ ¬ Member A elm
  | .remove elm => Member A elm
  | .replace elm elm2 => Member A elm ∧ ¬ Member A elm2

def ListOp.apply (A : Contents H E) : ListOp H E → Contents H E
  | .init head => Function.update A head (some [])
  | .insertAfter listelm elm => A.all (putAfter listelm elm)
  | .insertBefore listelm elm => A.all (putBefore listelm elm)
  | .insertHead head elm => A.at head (elm :: ·)
  | .remove elm => A.all (·.erase elm)
  | .replace elm elm2 => A.all (·.replace elm elm2)

def SimpleqOp.run (m : Mem H E) : SimpleqOp H E → Option (Mem H E)
  | .init head => some (simpleqInit m head)
  | .insertHead head elm => some (simpleqInsertHead m head elm)
  | .insertTail head elm => simpleqInsertTail m head elm
  | .insertAfter head listelm elm => some (simpleqInsertAfter m head listelm elm)
  | .removeHead head => simpleqRemoveHead m head
  | .removeAfter head elm => simpleqRemoveAfter m head elm
  | .concat head1 head2 => simpleqConcat m head1 head2

def SimpleqOp.Legal (A : Contents H E) : SimpleqOp H E → Prop
  | .init _ => True
  | .insertHead head elm | .insertTail head elm => (∃ es, A head = some es) ∧ ¬ Member A elm
  | .insertAfter head listelm elm => (∃ es, A head = some es ∧ listelm ∈ es) ∧ ¬ Member A elm
  | .removeHead head => ∃ e es, A head = some (e :: es)
  | .removeAfter head elm => ∃ xs y ys, A head = some (xs ++ elm :: y :: ys)
  | .concat head1 head2 =>
      head1 ≠ head2 ∧ (∃ es, A head1 = some es) ∧ ∃ es, A head2 = some es

def SimpleqOp.apply (A : Contents H E) : SimpleqOp H E → Contents H E
  | .init head => Function.update A head (some [])
  | .insertHead head elm => A.at head (elm :: ·)
  | .insertTail head elm => A.at head (· ++ [elm])
  | .insertAfter head listelm elm => A.at head (putAfter listelm elm)
  | .removeHead head => A.at head List.tail
  | .removeAfter head elm => A.at head (eraseAfter elm)
  | .concat head1 head2 =>
      (A.at head1 (· ++ (A head2).getD [])).at head2 fun _ => []

/-! ## The lists an operation works on -/

/-- The list that holds `e`. -/
def Holding (A : Contents H E) (e : E) (q : H) : Prop := ∃ es, A q = some es ∧ e ∈ es

def SlistOp.Touches (A : Contents H E) : SlistOp H E → H → Prop
  | .init head, q | .insertHead head _, q | .removeHead head, q | .remove head _, q => q = head
  | .insertAfter slistelm _, q => Holding A slistelm q
  | .removeAfter elm, q => Holding A elm q

def ListOp.Touches (A : Contents H E) : ListOp H E → H → Prop
  | .init head, q | .insertHead head _, q => q = head
  | .insertAfter listelm _, q | .insertBefore listelm _, q => Holding A listelm q
  | .remove elm, q | .replace elm _, q => Holding A elm q

def SimpleqOp.Touches : SimpleqOp H E → H → Prop
  | .init head, q | .insertHead head _, q | .insertTail head _, q | .insertAfter head _ _, q
  | .removeHead head, q | .removeAfter head _, q => q = head
  | .concat head1 head2, q => q = head1 ∨ q = head2

/-- Memory beside the sequences it stands for, for one kind of list. -/
def listsOf {Op : Type} (legal : Contents H E → Op → Prop)
    (run : Mem H E → Op → Mem H E → Prop) (apply : Contents H E → Op → Contents H E) :
    Lib.Lts (Mem H E × Contents H E) Op where
  Init s := ∀ q, s.2 q = none
  Step s op s' := legal s.2 op ∧ run s.1 op s'.1 ∧ s'.2 = apply s.2 op

def singlyLinkedLists (H E : Type) [DecidableEq H] [DecidableEq E] :
    Lib.Lts (Mem H E × Contents H E) (SlistOp H E) :=
  listsOf (fun A op => op.Legal A) (fun m op m' => ∃ fuel, op.run fuel m = some m')
    fun A op => op.apply A

def lists (H E : Type) [DecidableEq H] [DecidableEq E] :
    Lib.Lts (Mem H E × Contents H E) (ListOp H E) :=
  listsOf (fun A op => op.Legal A) (fun m op m' => op.run m = some m') fun A op => op.apply A

def simpleQueues (H E : Type) [DecidableEq H] [DecidableEq E] :
    Lib.Lts (Mem H E × Contents H E) (SimpleqOp H E) :=
  listsOf (fun A op => op.Legal A) (fun m op m' => op.run m = some m') fun A op => op.apply A

end LibrePortable.Sys
