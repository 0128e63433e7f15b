import LibrePortable.Sync.MutexSafety

/-!
# The life of a mutex

`pthread_mutex_init` and `pthread_mutex_destroy` may only be called while nobody uses the
mutex. Then they find no more than one section in memory, the one in the mutex: whoever
made another has thrown it away. So destroying leaves nothing behind, and a destroyed
mutex is as good as a statically initialised one, any number of times.
-/

namespace LibrePortable.Sync

open Lib Prog

variable {Tid : Type} [DecidableEq Tid] {C : CryptoLocks}

/-- `mutex->lock = malloc(…)` -/
def Memory.given (m : Memory Tid) (t : Tid) (a : Addr) : Memory Tid :=
  { m.allocated t a with lock := some a }

/-- What `InitializeCriticalSection` makes of the section in the mutex. -/
def Section.opened (c : Section Tid) : Section Tid :=
  { c with ready := true, owner := none, count := 0, published := true }

/-- `pthread_mutex_init` by thread `t`, where `malloc` gives `lcs`; `exit` has no result. -/
def pthreadMutexInit (m : Memory Tid) (t : Tid) (lcs : Option Addr) : Option (Memory Tid) := do
  let a ← lcs
  return (m.given t a).editAt a (fun c => !c.ready) Section.opened

/-- `pthread_mutex_destroy` -/
def pthreadMutexDestroy (m : Memory Tid) : Memory Tid :=
  match m.lock with
  | none => m
  | some a =>
    let m := m.editAt a (fun c => c.ready && c.owner.isNone)
      fun c => { c with ready := false, deleted := c.deleted + 1 }
    { m.released a with lock := none }

/-- Nobody uses the mutex. -/
def State.Idle (s : State Tid) : Prop := ∀ t, s.phase t = .out

/-- What happens to a mutex. The records of its sections end when it is destroyed. -/
inductive LifeStep (C : CryptoLocks) : State Tid → Unit → State Tid → Prop where
  | use {s s' : State Tid} {t : Tid} : LockStep C s t s' → LifeStep C s () s'
  | init {s : State Tid} {t : Tid} {a : Addr} {m : Memory Tid} : s.Idle → s.mem.lock = none →
      s.mem.heap a = none → pthreadMutexInit s.mem t (some a) = some m →
      LifeStep C s () ⟨m, s.phase⟩
  | destroy {s : State Tid} : s.Idle →
      LifeStep C s () ⟨{ pthreadMutexDestroy s.mem with next := 0 }, s.phase⟩

/-- A mutex that is used, destroyed and used again. -/
def mutexLife (Tid : Type) [DecidableEq Tid] (C : CryptoLocks) : Lts (State Tid) Unit where
  Init := (mutex Tid C).Init
  Step := LifeStep C

/-! ## What is in memory has not been freed -/

/-- No address leads to a section that was freed. -/
def Memory.Held (m : Memory Tid) : Prop :=
  ∀ a k, m.heap a = some k → (m.sections k).freed = 0

section Held

variable {m m' : Memory Tid} {pts : Tid → Point} {t : Tid} {p' : Point}

omit [DecidableEq Tid] in
theorem held_edit (hh : m.Held) (k : Nat) {f : Section Tid → Section Tid}
    (hf : ∀ c, (f c).freed = c.freed) : (m.edit k f).Held := by
  intro a j ha
  have hj := hh a j ha
  by_cases hjk : j = k
  · subst hjk
    rw [edit_self, hf]
    exact hj
  · rw [edit_ne m hjk]
    exact hj

omit [DecidableEq Tid] in
theorem held_editAt (hh : m.Held) (a : Addr) (ok : Section Tid → Bool)
    {f : Section Tid → Section Tid} (hf : ∀ c, (f c).freed = c.freed) :
    (m.editAt a ok f).Held := by
  unfold Memory.editAt
  split
  · exact hh
  · split
    · exact held_edit hh _ hf
    · exact hh

omit [DecidableEq Tid] in
theorem held_released (hi : Inv m pts) (hh : m.Held) (a : Addr) : (m.released a).Held := by
  unfold Memory.released
  split
  · exact hh
  · next k ha =>
      intro b j hb
      have hb : Function.update m.heap a none b = some j := hb
      have hba : b ≠ a := by
        intro heq
        rw [heq, Function.update_self] at hb
        cases hb
      rw [Function.update_of_ne hba] at hb
      have hjk : j ≠ k := fun heq => hba (hi.inj b a k (heq ▸ hb) ha)
      have hkept := edit_ne m hjk fun c => { c with freed := c.freed + 1 }
      exact (congrArg Section.freed hkept).trans (hh b j hb)

theorem held_move (hi : Inv m pts) (hh : m.Held) (hm : Move t m (pts t) m' p') : m'.Held := by
  generalize pts t = p at hm
  cases hm with
  | @malloc a hfree =>
      intro b j hb
      by_cases hba : b = a
      · subst hba
        have hj : m.next = j := by
          have hb : Function.update m.heap b (some m.next) b = some j := hb
          rw [Function.update_self] at hb
          exact Option.some.inj hb
        subst hj
        show (Function.update m.sections m.next (.new t) m.next).freed = 0
        rw [Function.update_self]
        rfl
      · rw [allocated_heap_ne m t hba] at hb
        rw [allocated_sections_ne m t a (Nat.ne_of_lt (hi.bounded b j hb))]
        exact hh b j hb
  | init => exact held_editAt hh _ _ fun _ => rfl
  | win _ => exact held_editAt hh _ _ fun _ => rfl
  | lose _ => exact held_editAt hh _ _ fun _ => rfl
  | delete => exact held_editAt hh _ _ fun _ => rfl
  | free => exact held_released hi hh _
  | @enter m' q hans =>
      cases q with
      | none => rw [show m' = _ from hans]; exact hh
      | some b =>
          simp only [Memory.Answers, Memory.Enters] at hans
          split at hans
          · rw [hans]; exact hh
          · split at hans
            · rw [hans.2]; exact held_edit hh _ fun _ => rfl
            · rw [hans]; exact hh
  | @leave m' q hans =>
      cases q with
      | none => rw [show m' = _ from hans]; exact hh
      | some b => rw [show m' = _ from hans]; exact held_editAt hh _ _ fun _ => rfl
  | begin | readNull _ | readSet _ | noMemory | reread | locked | unlockDirect | unlockCheck
  | check | unread | unlocked => exact hh

end Held

/-! ## Nobody uses it -/

section Idle

variable {s : State Tid}

/-- The invariant of the whole life. -/
def State.Alive (s : State Tid) : Prop := s.Sound ∧ s.mem.Held

omit [DecidableEq Tid] in
/-- Everybody stands outside. -/
theorem inv_idle (hs : s.Sound) (hidle : s.Idle) : Inv s.mem fun _ => Point.out := by
  obtain ⟨pts, hpts, hi⟩ := hs
  have hout : pts = fun _ => .out := by
    funext t
    have h := (hpts t).symm.trans (hidle t)
    revert h
    cases pts t <;> simp [Point.code]
  rwa [hout] at hi

omit [DecidableEq Tid] in
/-- **No section is in memory but the one in the mutex.** -/
theorem heap_idle (hs : s.Alive) (hidle : s.Idle) {a : Addr} {k : Nat}
    (ha : s.mem.heap a = some k) : s.mem.lock = some a := by
  have hi := inv_idle hs.1 hidle
  rcases hi.place k (hi.bounded a k ha) with ⟨t, b, hown, -⟩ | ⟨b, hl, hb⟩ | ⟨t, hgone⟩
  · cases hown
  · rwa [hi.inj a b k ha hb]
  · have hfreed := hs.2 a k ha
    rw [hgone] at hfreed
    cases hfreed

omit [DecidableEq Tid] in
/-- **Destroying leaves nothing behind.** -/
theorem pthreadMutexDestroy_spec (hs : s.Alive) (hidle : s.Idle) :
    (∀ a, (pthreadMutexDestroy s.mem).heap a = none) ∧ (pthreadMutexDestroy s.mem).lock = none ∧
      (pthreadMutexDestroy s.mem).ub = false := by
  have hi := inv_idle hs.1 hidle
  have hnone : ∀ a, s.mem.lock ≠ some a → s.mem.heap a = none := fun a hne =>
    Option.eq_none_iff_forall_ne_some.mpr fun k ha => hne (heap_idle hs hidle ha)
  cases hl : s.mem.lock with
  | none =>
      rw [pthreadMutexDestroy, hl]
      exact ⟨fun a => hnone a (by rw [hl]; exact nofun), hl, hi.defined⟩
  | some a =>
      obtain ⟨k, ha, huse⟩ := hi.lock a hl
      have howner : (s.mem.sections k).owner = none :=
        Option.eq_none_iff_forall_ne_some.mpr fun t ht => by
          have hb := (hi.holder a k hl ha t).mp ht
          cases hb
      have hok : ((s.mem.sections k).ready && (s.mem.sections k).owner.isNone) = true := by
        rw [huse.ready, howner]
        rfl
      have hreleased : ∀ m : Memory Tid, m.heap = s.mem.heap → (m.released a).heap =
          Function.update s.mem.heap a none ∧ (m.released a).ub = m.ub := by
        intro m hm
        simp [Memory.released, hm, ha, Memory.edit]
      simp only [pthreadMutexDestroy, hl]
      rw [editAt_eq ha hok]
      obtain ⟨hheap, hub⟩ := hreleased (s.mem.edit k _) rfl
      refine ⟨fun b => ?_, trivial, hub.trans hi.defined⟩
      rw [hheap]
      by_cases hb : b = a
      · subst hb
        exact Function.update_self _ _ _
      · rw [Function.update_of_ne hb]
        exact hnone b (by rw [hl]; exact fun h => hb (Option.some.inj h).symm)

theorem alive_init (h : (mutex Tid C).Init s) : s.Alive := by
  refine ⟨sound_init h, fun a k ha => ?_⟩
  rw [h.2.1 a] at ha
  cases ha

theorem alive_destroyed (C : CryptoLocks) (hs : s.Alive) (hidle : s.Idle) :
    (⟨{ pthreadMutexDestroy s.mem with next := 0 }, s.phase⟩ : State Tid).Alive := by
  obtain ⟨hheap, hlock, hub⟩ := pthreadMutexDestroy_spec hs hidle
  exact alive_init (C := C) ⟨hlock, hheap, rfl, hub, hidle⟩

omit [DecidableEq Tid] in
/-- **An initialised mutex is one that somebody has locked and unlocked.** -/
theorem alive_initialised {t : Tid} {a : Addr} {m : Memory Tid} (hs : s.Alive) (hidle : s.Idle)
    (hl : s.mem.lock = none) (hm : pthreadMutexInit s.mem t (some a) = some m) :
    (⟨m, s.phase⟩ : State Tid).Alive := by
  have hi := inv_idle hs.1 hidle
  have hnone : ∀ b, s.mem.heap b = none := fun b =>
    Option.eq_none_iff_forall_ne_some.mpr fun k hb => by
      have h := heap_idle hs hidle hb
      rw [hl] at h
      cases h
  have hheap : (s.mem.given t a).heap a = some s.mem.next := Function.update_self _ _ _
  have hnew : (s.mem.given t a).sections s.mem.next = .new t := Function.update_self _ _ _
  have hm : (s.mem.given t a).editAt a (fun c => !c.ready) Section.opened = m := Option.some.inj hm
  rw [editAt_eq hheap (by rw [hnew]; rfl)] at hm
  subst hm
  -- the one section is the new one
  have hone : ∀ b k, (s.mem.given t a).heap b = some k → b = a ∧ k = s.mem.next := by
    intro b k hb
    by_cases hba : b = a
    · subst hba
      exact ⟨rfl, Option.some.inj (hb.symm.trans hheap)⟩
    · have hb : (s.mem.allocated t a).heap b = some k := hb
      rw [allocated_heap_ne s.mem t hba, hnone] at hb
      cases hb
  have hrec : ((s.mem.given t a).edit s.mem.next Section.opened).sections s.mem.next =
      (Section.new t).opened := by
    rw [edit_self, hnew]
  refine ⟨⟨fun _ => .out, hidle, ?_⟩, ?_⟩
  · refine
      { defined := hi.defined, bounded := ?_, inj := ?_, own := fun _ _ h => (by cases h)
        lock := ?_, past := fun _ h => (by cases h), arg := fun _ _ h => (by cases h)
        holder := ?_, place := ?_ }
    · intro b k hb
      rw [(hone b k hb).2]
      exact Nat.lt_succ_self s.mem.next
    · intro b c k hb hc
      rw [(hone b k hb).1, (hone c k hc).1]
    · intro b hb
      obtain rfl : a = b := Option.some.inj hb
      refine ⟨s.mem.next, hheap, ?_⟩
      rw [hrec]
      exact ⟨rfl, rfl, rfl, rfl, rfl, rfl⟩
    · intro b k _ hb u
      rw [(hone b k hb).2, hrec]
      exact ⟨fun h => (by cases h), fun h => (by cases h)⟩
    · intro k hk
      by_cases hkn : k = s.mem.next
      · subst hkn
        exact Or.inr (Or.inl ⟨a, rfl, hheap⟩)
      · -- the older ones were thrown away
        right; right
        have hk : k < s.mem.next + 1 := hk
        have hold : k < s.mem.next := by omega
        have hsame : ((s.mem.given t a).edit s.mem.next Section.opened).sections k =
            s.mem.sections k := by
          rw [edit_ne _ hkn]
          exact allocated_sections_ne s.mem t a hkn
        rcases hi.place k hold with ⟨u, b, hown, -⟩ | ⟨b, hb, -⟩ | ⟨u, hgone⟩
        · cases hown
        · rw [hl] at hb
          cases hb
        · exact ⟨u, hsame.trans hgone⟩
  · intro b k hb
    rw [(hone b k hb).2, hrec]
    rfl

/-- Using the mutex keeps the invariant. -/
theorem alive_step {s' : State Tid} {t : Tid} (hs : s.Alive) (h : LockStep C s t s') :
    s'.Alive := by
  refine ⟨sound_step hs.1 h, ?_⟩
  obtain ⟨⟨pts, hpts, hi⟩, hheld⟩ := hs
  obtain ⟨m', p', rfl, hmove⟩ := move_of_step h (hpts t) fun hc => hi.past t (by rw [hc]; rfl)
  exact held_move hi hheld hmove

theorem alive_life {s' : State Tid} (hs : s.Alive) (h : LifeStep C s () s') : s'.Alive := by
  cases h with
  | use h => exact alive_step hs h
  | init hidle hl _ hm => exact alive_initialised hs hidle hl hm
  | destroy hidle => exact alive_destroyed C hs hidle

theorem alive_reachable (h : (mutexLife Tid C).Reachable s) : s.Alive :=
  Lts.Reachable.invariant (M := mutexLife Tid C) (I := State.Alive)
    (fun _ => alive_init (C := C)) (fun _ _ _ _ hs hstep => alive_life hs hstep) h

end Idle

/--
**A mutex is a lock from its first life to its last.**

Initialised by hand or by whoever locks it first, used by any number of threads, destroyed
and used again: every state is safe, and once nobody uses the mutex nothing is in memory
but the section in it, so that destroying it frees exactly that.
-/
theorem mutex_life {s : State Tid} (h : (mutexLife Tid C).Reachable s) :
    LockSafe s ∧ (s.Idle →
      (∀ a k, s.mem.heap a = some k → s.mem.lock = some a) ∧
        (∀ a, (pthreadMutexDestroy s.mem).heap a = none) ∧
        (pthreadMutexDestroy s.mem).lock = none ∧ (pthreadMutexDestroy s.mem).ub = false) := by
  have hs := alive_reachable h
  refine ⟨safe_of_sound hs.1, fun hidle => ⟨fun a k => heap_idle hs hidle, ?_⟩⟩
  exact pthreadMutexDestroy_spec hs hidle

/-- A life goes on with a move of thread `t`. -/
theorem life_move {m m' : Memory Tid} {ph : Tid → Phase} {p p' : Point} (t : Tid)
    (h : (mutexLife Tid C).Reachable ⟨m, ph⟩) (hbit : C.lockBit ≠ 0#32) (hm : Move t m p m' p')
    (hp : ph t = p.code) (hcheck : p ≠ .check) :
    (mutexLife Tid C).Reachable ⟨m', Function.update ph t p'.code⟩ :=
  h.tail (LifeStep.use (step_of_move hbit hp hm fun hc => absurd hc hcheck))

/-- Initialised, locked and unlocked, destroyed, and then locked and unlocked again by
another thread, who initialises it on the way. -/
theorem mutex_life_twice : ∃ s, (mutexLife Bool firstLock).Reachable s ∧ s.Idle ∧
    s.mem.lock = some 8 ∧ LockSafe s ∧
    (∀ a k, s.mem.heap a = some k → s.mem.lock = some a) ∧
    (∀ a, (pthreadMutexDestroy s.mem).heap a = none) ∧
    (pthreadMutexDestroy s.mem).lock = none ∧ (pthreadMutexDestroy s.mem).ub = false := by
  have h : (mutexLife Bool firstLock).Reachable twoThreads :=
    .init ⟨rfl, fun _ => rfl, rfl, rfl, fun _ => rfl⟩
  have hbit : firstLock.lockBit ≠ 0#32 := by decide
  have h := h.tail (LifeStep.init (t := true) (a := 7) (fun _ => rfl) rfl rfl rfl)
  -- used
  have h := life_move true h hbit .begin rfl nofun
  have h := life_move true h hbit (.readSet nofun) rfl nofun
  have h := life_move true h hbit .reread rfl nofun
  have h := life_move true h hbit (.entering true rfl rfl rfl) rfl nofun
  have h := life_move true h hbit .locked rfl nofun
  have h := life_move true h hbit .unlockDirect rfl nofun
  have h := life_move true h hbit .unread rfl nofun
  have h := life_move true h hbit (.leaving true rfl rfl rfl) rfl nofun
  have h := life_move true h hbit .unlocked rfl nofun
  -- destroyed
  have h := h.tail (LifeStep.destroy fun t => by cases t <;> rfl)
  -- and used again
  have h := life_move false h hbit .begin rfl nofun
  have h := life_move false h hbit (.readNull rfl) rfl nofun
  have h := life_move false h hbit (.malloc (a := 8) rfl) rfl nofun
  have h := life_move false h hbit .init rfl nofun
  have h := life_move false h hbit (.win rfl) rfl nofun
  have h := life_move false h hbit .reread rfl nofun
  have h := life_move false h hbit (.entering false rfl rfl rfl) rfl nofun
  have h := life_move false h hbit .locked rfl nofun
  have h := life_move false h hbit .unlockDirect rfl nofun
  have h := life_move false h hbit .unread rfl nofun
  have h := life_move false h hbit (.leaving false rfl rfl rfl) rfl nofun
  have h := life_move false h hbit .unlocked rfl nofun
  obtain ⟨hsafe, hleft⟩ := mutex_life h
  refine ⟨_, h, ?_, rfl, hsafe, hleft ?_⟩
  · intro t
    cases t <;> rfl
  · intro t
    cases t <;> rfl

end LibrePortable.Sync
