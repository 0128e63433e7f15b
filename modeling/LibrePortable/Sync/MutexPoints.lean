import LibrePortable.Sync.Mutex

/-!
# Where a thread can stand

A thread in the middle of a locking function is a program that is still to be run.
There are only sixteen such programs, the `Point`s, and `move_of_step` lists the moves
between them together with what each does to memory. Everything proved about runs is
proved from that list.
-/

namespace LibrePortable.Sync

open Lib Prog

variable {Tid : Type} [DecidableEq Tid] {C : CryptoLocks}

/-- A point of the locking functions. -/
inductive Point where
  | out | read | create | init (a : Addr) | cas (a : Addr) | delete (a : Addr) | free (a : Addr)
  | dead | reread | enter (p : Option Addr) | entered | inside | check | unread
  | leave (p : Option Addr) | left

/-- What is still to be run there. -/
def Point.code : Point → Phase
  | .out => .out
  | .read => .locking (lazyInit >>= fun _ => Sync.enter)
  | .create => .locking (Sync.create >>= fun _ => Sync.enter)
  | .init a => .locking ((do initializeCriticalSection a; publish a) >>= fun _ => Sync.enter)
  | .cas a => .locking (publish a >>= fun _ => Sync.enter)
  | .delete a => .locking (discard a >>= fun _ => Sync.enter)
  | .free a => .locking (Sync.free a >>= fun _ => Sync.enter)
  | .dead => .locking (exit >>= fun _ => Sync.enter)
  | .reread => .locking Sync.enter
  | .enter p => .locking (enterCriticalSection p)
  | .entered => .locking (.ret ())
  | .inside => .inside
  | .check => .unlocking (lazyInit >>= fun _ => Sync.leave)
  | .unread => .unlocking Sync.leave
  | .leave p => .unlocking (leaveCriticalSection p)
  | .left => .unlocking (.ret ())

theorem lock_code (api : Api C) : Phase.locking api.lock = Point.read.code := by
  cases api with
  | pthread =>
      show Phase.locking (pthreadMutexLock >>= fun _ => pure ()) = _
      rw [pthreadMutexLock, bind_bind]
      rfl
  | crypto mode mode' hl hu =>
      have hin : ¬ (C.type.slt 0#32 = true ∨ ¬ C.type.slt C.numLocks = true) := by
        rw [C.type_valid.1, C.type_valid.2]
        simp
      show Phase.locking (cryptoLock C mode C.type) = _
      rw [cryptoLock, if_neg hin, if_pos hl]
      rfl

theorem unlock_check {mode : Win.CInt} (hu : mode &&& C.lockBit = 0#32) :
    Phase.unlocking (cryptoLock C mode C.type) = Point.check.code := by
  have hin : ¬ (C.type.slt 0#32 = true ∨ ¬ C.type.slt C.numLocks = true) := by
    rw [C.type_valid.1, C.type_valid.2]
    simp
  rw [cryptoLock, if_neg hin, if_neg (not_not.mpr hu)]
  rfl

theorem unlock_code (api : Api C) :
    Phase.unlocking api.unlock = Point.unread.code
      ∨ Phase.unlocking api.unlock = Point.check.code := by
  cases api with
  | pthread => exact Or.inl rfl
  | crypto mode mode' hl hu => exact Or.inr (unlock_check hu)

/-! ## One step, by phase -/

section Inversion

variable {s s' : State Tid} {t : Tid}

theorem step_out (h : LockStep C s t s') (hp : s.phase t = .out) :
    ∃ api : Api C, s' = s.goto s.mem t (.locking api.lock) := by
  cases h with
  | beginLock api _ => exact ⟨api, rfl⟩
  | lockCall h' _ | locked h' | beginUnlock _ h' | unlockCall h' _ | unlocked h' =>
      rw [hp] at h'; cases h'

theorem step_locking {e : LockCall} {k : LockAnswer e → LockProg Unit} (h : LockStep C s t s')
    (hp : s.phase t = .locking (.call e k)) :
    ∃ r m, s.mem.Answers t e r m ∧ s' = s.goto m t (.locking (k r)) := by
  cases h with
  | lockCall h' ha => rw [hp] at h'; cases h'; exact ⟨_, _, ha, rfl⟩
  | beginLock _ h' | locked h' | beginUnlock _ h' | unlockCall h' _ | unlocked h' =>
      rw [hp] at h'; cases h'

theorem step_locked (h : LockStep C s t s') (hp : s.phase t = .locking (.ret ())) :
    s' = s.goto s.mem t .inside := by
  cases h with
  | locked _ => rfl
  | beginLock _ h' | lockCall h' _ | beginUnlock _ h' | unlockCall h' _ | unlocked h' =>
      rw [hp] at h'; cases h'

theorem step_inside (h : LockStep C s t s') (hp : s.phase t = .inside) :
    ∃ api : Api C, s' = s.goto s.mem t (.unlocking api.unlock) := by
  cases h with
  | beginUnlock api _ => exact ⟨api, rfl⟩
  | beginLock _ h' | lockCall h' _ | locked h' | unlockCall h' _ | unlocked h' =>
      rw [hp] at h'; cases h'

theorem step_unlocking {e : LockCall} {k : LockAnswer e → LockProg Unit} (h : LockStep C s t s')
    (hp : s.phase t = .unlocking (.call e k)) :
    ∃ r m, s.mem.Answers t e r m ∧ s' = s.goto m t (.unlocking (k r)) := by
  cases h with
  | unlockCall h' ha => rw [hp] at h'; cases h'; exact ⟨_, _, ha, rfl⟩
  | beginLock _ h' | lockCall h' _ | locked h' | beginUnlock _ h' | unlocked h' =>
      rw [hp] at h'; cases h'

theorem step_unlocked (h : LockStep C s t s') (hp : s.phase t = .unlocking (.ret ())) :
    s' = s.goto s.mem t .out := by
  cases h with
  | unlocked _ => rfl
  | beginLock _ h' | lockCall h' _ | locked h' | beginUnlock _ h' | unlockCall h' _ =>
      rw [hp] at h'; cases h'

end Inversion

/-! ## The moves -/

/-- `Move t m p m' p'`: thread `t` goes from `p` to `p'`, and memory from `m` to `m'`. -/
inductive Move (t : Tid) : Memory Tid → Point → Memory Tid → Point → Prop where
  | begin {m} : Move t m .out m .read
  | readNull {m} : m.lock = none → Move t m .read m .create
  | readSet {m} : m.lock ≠ none → Move t m .read m .reread
  | noMemory {m} : Move t m .create m .dead
  | malloc {m} {a : Addr} : m.heap a = none → Move t m .create (m.allocated t a) (.init a)
  | init {m} {a : Addr} : Move t m (.init a) (m.editAt a (fun c => !c.ready)
      fun c => { c with ready := true, owner := none, count := 0 }) (.cas a)
  | win {m} {a : Addr} : m.lock = none → Move t m (.cas a) (m.won a) .reread
  | lose {m} {a : Addr} : m.lock ≠ none → Move t m (.cas a) (m.lostAt a) (.delete a)
  | delete {m} {a : Addr} : Move t m (.delete a) (m.editAt a (fun c => c.ready && c.owner.isNone)
      fun c => { c with ready := false, deleted := c.deleted + 1 }) (.free a)
  | free {m} {a : Addr} : Move t m (.free a) (m.released a) .reread
  | reread {m} : Move t m .reread m (.enter m.lock)
  | enter {m m'} {p : Option Addr} : m.Answers t (.enterCriticalSection p) () m' →
      Move t m (.enter p) m' .entered
  | locked {m} : Move t m .entered m .inside
  | unlockDirect {m} : Move t m .inside m .unread
  | unlockCheck {m} : Move t m .inside m .check
  | check {m} : Move t m .check m .unread
  | unread {m} : Move t m .unread m (.leave m.lock)
  | leave {m m'} {p : Option Addr} : m.Answers t (.leaveCriticalSection p) () m' →
      Move t m (.leave p) m' .left
  | unlocked {m} : Move t m .left m .out

/-- **Every step of a thread is a move**, as long as the check before an unlock finds
the pointer set. -/
theorem move_of_step {s s' : State Tid} {t : Tid} {p : Point} (h : LockStep C s t s')
    (hp : s.phase t = p.code) (hcheck : p = .check → s.mem.lock ≠ none) :
    ∃ m' p', s' = s.goto m' t p'.code ∧ Move t s.mem p m' p' := by
  cases p with
  | out =>
      obtain ⟨api, rfl⟩ := step_out h hp
      exact ⟨_, _, congrArg _ (lock_code api), .begin⟩
  | read =>
      obtain ⟨(r : Option Addr), m, ⟨hr, rfl⟩, rfl⟩ := step_locking h hp
      cases r with
      | none => exact ⟨_, .create, rfl, .readNull hr.symm⟩
      | some a => exact ⟨_, .reread, rfl, .readSet (by rw [← hr]; exact Option.some_ne_none a)⟩
  | create =>
      obtain ⟨(r : Option Addr), m, hr, rfl⟩ := step_locking h hp
      rcases hr with ⟨rfl, rfl⟩ | ⟨a, hfree, rfl, rfl⟩
      · exact ⟨_, .dead, rfl, .noMemory⟩
      · exact ⟨_, .init a, rfl, .malloc hfree⟩
  | init a =>
      obtain ⟨r, m, rfl, rfl⟩ := step_locking h hp
      exact ⟨_, .cas a, rfl, .init⟩
  | cas a =>
      obtain ⟨(r : Option Addr), m, ⟨hr, hm⟩, rfl⟩ := step_locking h hp
      cases r with
      | none =>
          have hnull : s.mem.lock = none := hr.symm
          rw [if_pos hnull] at hm
          exact ⟨_, .reread, by rw [hm]; rfl, .win hnull⟩
      | some b =>
          have hset : s.mem.lock ≠ none := by rw [← hr]; exact Option.some_ne_none b
          rw [if_neg hset] at hm
          exact ⟨_, .delete a, by rw [hm]; rfl, .lose hset⟩
  | delete a =>
      obtain ⟨r, m, rfl, rfl⟩ := step_locking h hp
      exact ⟨_, .free a, rfl, .delete⟩
  | free a =>
      obtain ⟨r, m, rfl, rfl⟩ := step_locking h hp
      exact ⟨_, .reread, rfl, .free⟩
  | dead =>
      obtain ⟨r, -⟩ := step_locking h hp
      exact r.elim
  | reread =>
      obtain ⟨(r : Option Addr), m, ⟨rfl, rfl⟩, rfl⟩ := step_locking h hp
      exact ⟨_, .enter s.mem.lock, rfl, .reread⟩
  | enter q =>
      obtain ⟨r, m, ha, rfl⟩ := step_locking h hp
      exact ⟨m, .entered, rfl, .enter ha⟩
  | entered =>
      rw [step_locked h hp]
      exact ⟨_, .inside, rfl, .locked⟩
  | inside =>
      obtain ⟨api, rfl⟩ := step_inside h hp
      rcases unlock_code api with hc | hc
      · exact ⟨_, .unread, congrArg _ hc, .unlockDirect⟩
      · exact ⟨_, .check, congrArg _ hc, .unlockCheck⟩
  | check =>
      obtain ⟨(r : Option Addr), m, ⟨hr, rfl⟩, rfl⟩ := step_unlocking h hp
      cases r with
      | none => exact absurd hr.symm (hcheck rfl)
      | some a => exact ⟨_, .unread, rfl, .check⟩
  | unread =>
      obtain ⟨(r : Option Addr), m, ⟨rfl, rfl⟩, rfl⟩ := step_unlocking h hp
      exact ⟨_, .leave s.mem.lock, rfl, .unread⟩
  | leave q =>
      obtain ⟨r, m, ha, rfl⟩ := step_unlocking h hp
      exact ⟨m, .left, rfl, .leave ha⟩
  | left =>
      rw [step_unlocked h hp]
      exact ⟨_, .out, rfl, .unlocked⟩

/-- **Every move is a step of its thread**, where `CRYPTO_LOCK` is a bit. -/
theorem step_of_move {s : State Tid} {t : Tid} {p p' : Point} {m' : Memory Tid}
    (hbit : C.lockBit ≠ 0#32) (hp : s.phase t = p.code) (hm : Move t s.mem p m' p')
    (hcheck : p = .check → s.mem.lock ≠ none) :
    LockStep C s t (s.goto m' t p'.code) := by
  obtain ⟨m, ph⟩ := s
  cases hm with
  | begin =>
      have h := LockStep.beginLock (Api.pthread : Api C) hp
      rw [lock_code] at h
      exact h
  | readNull hnull =>
      exact @LockStep.lockCall _ _ C _ t .readLock _ (none : Option Addr) _ hp ⟨hnull.symm, rfl⟩
  | readSet hset =>
      obtain ⟨a, ha⟩ := Option.ne_none_iff_exists'.mp hset
      exact @LockStep.lockCall _ _ C _ t .readLock _ (some a) _ hp ⟨ha.symm, rfl⟩
  | noMemory =>
      exact @LockStep.lockCall _ _ C _ t .malloc _ (none : Option Addr) _ hp (.inl ⟨rfl, rfl⟩)
  | @malloc a hfree =>
      exact @LockStep.lockCall _ _ C _ t .malloc _ (some a) _ hp (.inr ⟨a, hfree, rfl, rfl⟩)
  | @init a =>
      exact @LockStep.lockCall _ _ C _ t (.initializeCriticalSection a) _ () _ hp rfl
  | @win a hnull =>
      exact @LockStep.lockCall _ _ C _ t (.compareExchange a) _ (none : Option Addr) _ hp
        ⟨hnull.symm, (if_pos hnull).symm⟩
  | @lose a hset =>
      obtain ⟨b, hb⟩ := Option.ne_none_iff_exists'.mp hset
      exact @LockStep.lockCall _ _ C _ t (.compareExchange a) _ (some b) _ hp
        ⟨hb.symm, (if_neg hset).symm⟩
  | @delete a => exact @LockStep.lockCall _ _ C _ t (.deleteCriticalSection a) _ () _ hp rfl
  | @free a => exact @LockStep.lockCall _ _ C _ t (.free a) _ () _ hp rfl
  | reread => exact @LockStep.lockCall _ _ C _ t .readLock _ m.lock _ hp ⟨rfl, rfl⟩
  | @enter _ q hans =>
      exact @LockStep.lockCall _ _ C _ t (.enterCriticalSection q) _ () _ hp hans
  | locked => exact .locked hp
  | unlockDirect => exact .beginUnlock (Api.pthread : Api C) hp
  | unlockCheck =>
      -- only CRYPTO_lock checks
      have hlocks : C.lockBit &&& C.lockBit ≠ 0#32 := by rwa [BitVec.and_self]
      have hunlocks : 0#32 &&& C.lockBit = 0#32 := BitVec.zero_and
      have h := LockStep.beginUnlock (Api.crypto C.lockBit 0#32 hlocks hunlocks) hp
      rw [Api.unlock, unlock_check hunlocks] at h
      exact h
  | check =>
      obtain ⟨a, ha⟩ := Option.ne_none_iff_exists'.mp (hcheck rfl)
      exact @LockStep.unlockCall _ _ C _ t .readLock _ (some a) _ hp ⟨ha.symm, rfl⟩
  | unread => exact @LockStep.unlockCall _ _ C _ t .readLock _ m.lock _ hp ⟨rfl, rfl⟩
  | @leave _ q hans =>
      exact @LockStep.unlockCall _ _ C _ t (.leaveCriticalSection q) _ () _ hp hans
  | unlocked => exact .unlocked hp

end LibrePortable.Sync
