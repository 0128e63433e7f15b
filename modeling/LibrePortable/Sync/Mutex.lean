import Mathlib.Logic.Function.Basic
import LibrePortable.Lib.Transition
import LibrePortable.Win.Calls

/-!
# Mutexes that initialise themselves

On Windows a statically initialised mutex is a NULL pointer. Whoever locks it first
makes a critical section and publishes it with a compare-and-swap; a thread that
comes too late throws its own away. Every access is one atomic step here, and the
steps of any number of threads follow each other in any order.

Memory is what `malloc` gave out: an address leads to the section that lives there
now, and addresses are given out again once freed. The record of a section also
counts what has been done to it, for as long as the run lasts.
-/

namespace LibrePortable.Sync

open Lib Prog Win

/-- The address of a critical section. -/
abbrev Addr := Nat

/-- The atomic steps a locking function takes. -/
inductive LockCall where
  | readLock
  | malloc
  | initializeCriticalSection (lcs : Addr)
  /-- `InterlockedCompareExchangePointer` of the lock against NULL. -/
  | compareExchange (lcs : Addr)
  | deleteCriticalSection (lcs : Addr)
  | free (lcs : Addr)
  | enterCriticalSection (lcs : Option Addr)
  | leaveCriticalSection (lcs : Option Addr)
  | exit

/-- What each step returns; NULL is `none`, and `exit` does not return. -/
def LockAnswer : LockCall → Type
  | .readLock | .malloc | .compareExchange _ => Option Addr
  | .exit => Empty
  | _ => Unit

/-- A locking function. -/
abbrev LockProg : Type → Type := Prog LockCall LockAnswer

def readLock : LockProg (Option Addr) := .call .readLock .ret
def malloc : LockProg (Option Addr) := .call .malloc .ret
def initializeCriticalSection (lcs : Addr) : LockProg Unit :=
  .call (.initializeCriticalSection lcs) .ret
def compareExchange (lcs : Addr) : LockProg (Option Addr) := .call (.compareExchange lcs) .ret
def deleteCriticalSection (lcs : Addr) : LockProg Unit := .call (.deleteCriticalSection lcs) .ret
def free (lcs : Addr) : LockProg Unit := .call (.free lcs) .ret
def enterCriticalSection (lcs : Option Addr) : LockProg Unit :=
  .call (.enterCriticalSection lcs) .ret
def leaveCriticalSection (lcs : Option Addr) : LockProg Unit :=
  .call (.leaveCriticalSection lcs) .ret
def exit : LockProg Unit := .call .exit Empty.elim

/-! ## The functions -/

/-- Delete and free a section that was not needed. -/
def discard (lcs : Addr) : LockProg Unit := do
  deleteCriticalSection lcs
  free lcs

/-- Try to publish a section, or throw it away. -/
def publish (lcs : Addr) : LockProg Unit := do
  let old ← compareExchange lcs
  if old ≠ none then discard lcs else return ()

/-- Make a section for a lock that was seen to be NULL. -/
def create : LockProg Unit := do
  match ← malloc with
  | none => exit
  | some lcs =>
    initializeCriticalSection lcs
    publish lcs

/-- The lazy initialisation that `pthread_mutex_lock` and `CRYPTO_lock` begin with. -/
def lazyInit : LockProg Unit := do
  let lock ← readLock
  if lock = none then create else return ()

/-- Enter the section the lock points to now. -/
def enter : LockProg Unit := do enterCriticalSection (← readLock)

/-- Leave the section the lock points to now. -/
def leave : LockProg Unit := do leaveCriticalSection (← readLock)

/-- `pthread_mutex_lock`. -/
def pthreadMutexLock : LockProg Int := do
  lazyInit
  enter
  return 0

/-- `pthread_mutex_unlock`. -/
def pthreadMutexUnlock : LockProg Int := do
  leave
  return 0

/-- What `CRYPTO_lock` is compiled with, and the index of the one lock looked at. -/
structure CryptoLocks where
  /-- `CRYPTO_LOCK`. -/
  lockBit : CInt
  /-- `CRYPTO_NUM_LOCKS`. -/
  numLocks : CInt
  type : CInt
  type_valid : type.slt 0#32 = false ∧ type.slt numLocks = true

/-- `CRYPTO_lock`, where `readLock` reads `locks[type]`. -/
def cryptoLock (C : CryptoLocks) (mode type : CInt) : LockProg Unit := do
  if type.slt 0#32 ∨ ¬ type.slt C.numLocks then return ()
  else
    lazyInit
    if mode &&& C.lockBit ≠ 0#32 then enter else leave

/-- The ways to lock and unlock. -/
inductive Api (C : CryptoLocks) where
  | pthread
  | crypto (lockMode unlockMode : CInt) (locks : lockMode &&& C.lockBit ≠ 0#32)
      (unlocks : unlockMode &&& C.lockBit = 0#32)

/-- The call that locks. -/
def Api.lock {C : CryptoLocks} : Api C → LockProg Unit
  | .pthread => do let _ ← pthreadMutexLock
  | .crypto mode _ _ _ => cryptoLock C mode C.type

/-- The call that unlocks. -/
def Api.unlock {C : CryptoLocks} : Api C → LockProg Unit
  | .pthread => do let _ ← pthreadMutexUnlock
  | .crypto _ mode _ _ => cryptoLock C mode C.type

/-! ## Memory -/

variable {Tid : Type} [DecidableEq Tid]

/-- A critical section, and what has been done to it. -/
structure Section (Tid : Type) where
  /-- The thread that allocated it. -/
  maker : Tid
  /-- Initialised and not deleted. -/
  ready : Bool
  owner : Option Tid
  count : Nat
  /-- It won the compare-and-swap. -/
  published : Bool
  /-- It lost the compare-and-swap. -/
  lost : Bool
  entered : Nat
  deleted : Nat
  freed : Nat

/-- A section as `malloc` returns it to thread `t`. -/
def Section.new (t : Tid) : Section Tid := ⟨t, false, none, 0, false, false, 0, 0, 0⟩

/-- The lock, and the sections. -/
structure Memory (Tid : Type) where
  /-- The pointer that stands in the mutex. -/
  lock : Option Addr
  /-- Which section lives at an address. -/
  heap : Addr → Option Nat
  sections : Nat → Section Tid
  /-- Sections made so far; the next one gets this number. -/
  next : Nat
  /-- Something undefined has been done. -/
  ub : Bool

namespace Memory

/-- Change section `k`. -/
def edit (m : Memory Tid) (k : Nat) (f : Section Tid → Section Tid) : Memory Tid :=
  { m with sections := Function.update m.sections k (f (m.sections k)) }

/-- Change the section at `a`, which is undefined unless there is one and it is `ok`. -/
def editAt (m : Memory Tid) (a : Addr) (ok : Section Tid → Bool) (f : Section Tid → Section Tid) :
    Memory Tid :=
  match m.heap a with
  | none => { m with ub := true }
  | some k => if ok (m.sections k) then m.edit k f else { m with ub := true }

/-- A new section at `a`. -/
def allocated (m : Memory Tid) (t : Tid) (a : Addr) : Memory Tid :=
  { m with
    heap := Function.update m.heap a (some m.next)
    sections := Function.update m.sections m.next (.new t)
    next := m.next + 1 }

/-- The section at `a` is given back. -/
def released (m : Memory Tid) (a : Addr) : Memory Tid :=
  match m.heap a with
  | none => { m with ub := true }
  | some k =>
    { m.edit k (fun c => { c with freed := c.freed + 1 }) with
      heap := Function.update m.heap a none }

/-- The section at `a` wins the race. -/
def won (m : Memory Tid) (a : Addr) : Memory Tid :=
  { m.editAt a (fun _ => true) (fun c => { c with published := true }) with lock := some a }

/-- The section at `a` loses the race. -/
def lostAt (m : Memory Tid) (a : Addr) : Memory Tid :=
  m.editAt a (fun _ => true) fun c => { c with lost := true }

/-- Thread `t` enters a section it owns already, or that nobody owns. -/
def Enters (m : Memory Tid) (t : Tid) (a : Addr) (m' : Memory Tid) : Prop :=
  match m.heap a with
  | none => m' = { m with ub := true }
  | some k =>
    if (m.sections k).ready then
      ((m.sections k).owner = none ∨ (m.sections k).owner = some t) ∧
        m' = m.edit k fun c =>
          { c with owner := some t, count := c.count + 1, entered := c.entered + 1 }
    else m' = { m with ub := true }

/-- How one step of thread `t` is answered. Entering a section that another thread owns
is not answered at all: the thread waits. -/
def Answers (m : Memory Tid) (t : Tid) : (e : LockCall) → LockAnswer e → Memory Tid → Prop
  | .readLock, p, m' => p = m.lock ∧ m' = m
  | .malloc, p, m' =>
      (p = (none : Option Addr) ∧ m' = m)
        ∨ ∃ a, m.heap a = none ∧ p = some a ∧ m' = m.allocated t a
  | .initializeCriticalSection a, _, m' =>
      m' = m.editAt a (fun c => !c.ready)
        fun c => { c with ready := true, owner := none, count := 0 }
  | .compareExchange a, p, m' =>
      p = m.lock ∧
        m' = if m.lock = none then m.won a else m.lostAt a
  | .deleteCriticalSection a, _, m' =>
      m' = m.editAt a (fun c => c.ready && c.owner.isNone)
        fun c => { c with ready := false, deleted := c.deleted + 1 }
  | .free a, _, m' => m' = m.released a
  | .enterCriticalSection none, _, m' => m' = { m with ub := true }
  | .enterCriticalSection (some a), _, m' => m.Enters t a m'
  | .leaveCriticalSection none, _, m' => m' = { m with ub := true }
  | .leaveCriticalSection (some a), _, m' =>
      m' = m.editAt a (fun c => c.ready && decide (c.owner = some t))
        fun c => { c with count := c.count - 1, owner := if c.count ≤ 1 then none else c.owner }

end Memory

/-! ## The threads -/

/-- What a thread is doing. -/
inductive Phase where
  | out
  | locking (rest : LockProg Unit)
  | inside
  | unlocking (rest : LockProg Unit)

/-- Between its lock and its unlock: from entering the section until leaving it. -/
def Phase.Between : Phase → Prop
  | .locking (.ret _) | .inside | .unlocking (.call _ _) => True
  | _ => False

/-- The memory and what every thread is doing. -/
structure State (Tid : Type) where
  mem : Memory Tid
  phase : Tid → Phase

/-- Thread `t` goes on to another phase. -/
def State.goto (s : State Tid) (m : Memory Tid) (t : Tid) (ph : Phase) : State Tid :=
  ⟨m, Function.update s.phase t ph⟩

/-- One step of thread `t`. -/
inductive LockStep (C : CryptoLocks) : State Tid → Tid → State Tid → Prop where
  | beginLock {s : State Tid} {t : Tid} (api : Api C) : s.phase t = .out →
      LockStep C s t (s.goto s.mem t (.locking api.lock))
  | lockCall {s : State Tid} {t : Tid} {e : LockCall} {k : LockAnswer e → LockProg Unit}
      {r : LockAnswer e} {m : Memory Tid} : s.phase t = .locking (.call e k) →
      s.mem.Answers t e r m → LockStep C s t (s.goto m t (.locking (k r)))
  | locked {s : State Tid} {t : Tid} : s.phase t = .locking (.ret ()) →
      LockStep C s t (s.goto s.mem t .inside)
  | beginUnlock {s : State Tid} {t : Tid} (api : Api C) : s.phase t = .inside →
      LockStep C s t (s.goto s.mem t (.unlocking api.unlock))
  | unlockCall {s : State Tid} {t : Tid} {e : LockCall} {k : LockAnswer e → LockProg Unit}
      {r : LockAnswer e} {m : Memory Tid} : s.phase t = .unlocking (.call e k) →
      s.mem.Answers t e r m → LockStep C s t (s.goto m t (.unlocking (k r)))
  | unlocked {s : State Tid} {t : Tid} : s.phase t = .unlocking (.ret ()) →
      LockStep C s t (s.goto s.mem t .out)

/-- Threads that share one statically initialised lock. -/
def mutex (Tid : Type) [DecidableEq Tid] (C : CryptoLocks) : Lts (State Tid) Tid where
  Init s := s.mem.lock = none ∧ (∀ a, s.mem.heap a = none) ∧ s.mem.next = 0 ∧ s.mem.ub = false
    ∧ ∀ t, s.phase t = .out
  Step := LockStep C

end LibrePortable.Sync
