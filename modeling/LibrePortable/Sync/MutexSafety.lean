import LibrePortable.Sync.MutexProof

/-!
# What the lock guarantees

Carried from the points of the threads back to their programs: in every state that any
interleaving reaches, the pointer has been set at most once, what lost the race is on
its way out or gone, and at most one thread is between its lock and its unlock.
-/

namespace LibrePortable.Sync

open Lib Prog

variable {Tid : Type}

/-! ## In the words of the threads' programs -/

/-- What thread `t` does next. -/
def State.Next (s : State Tid) (t : Tid) (e : LockCall) : Prop :=
  ∃ k, s.phase t = .locking (.call e k)

/-- What every state of a run guarantees. -/
structure LockSafe (s : State Tid) : Prop where
  /-- Nothing undefined has happened. -/
  defined : s.mem.ub = false
  /-- The pointer leads to a section that is in use and has never been thrown away. -/
  published : ∀ a, s.mem.lock = some a → ∃ k, s.mem.heap a = some k
    ∧ (s.mem.sections k).published = true ∧ (s.mem.sections k).ready = true
    ∧ (s.mem.sections k).deleted = 0 ∧ (s.mem.sections k).freed = 0
  /-- Only one section is ever published, the one the pointer leads to. -/
  winner : ∀ k < s.mem.next, (s.mem.sections k).published = true →
    ∃ a, s.mem.lock = some a ∧ s.mem.heap a = some k
  /-- Only a published section is ever entered. -/
  entered : ∀ k < s.mem.next, (s.mem.sections k).entered ≠ 0 → (s.mem.sections k).published = true
  /-- A section that lost the race is deleted once and then freed once: it has been, or
  its maker does it next. -/
  losers : ∀ k < s.mem.next, (s.mem.sections k).lost = true →
    ((s.mem.sections k).deleted = 1 ∧ (s.mem.sections k).freed = 1)
      ∨ ((s.mem.sections k).deleted = 1 ∧ (s.mem.sections k).freed = 0
        ∧ ∃ a, s.mem.heap a = some k ∧ s.Next (s.mem.sections k).maker (.free a))
      ∨ ((s.mem.sections k).deleted = 0 ∧ (s.mem.sections k).freed = 0
        ∧ ∃ a, s.mem.heap a = some k ∧ s.Next (s.mem.sections k).maker (.deleteCriticalSection a))
  /-- A section that did not lose is never deleted or freed. -/
  kept : ∀ k < s.mem.next, (s.mem.sections k).lost = false →
    (s.mem.sections k).deleted = 0 ∧ (s.mem.sections k).freed = 0
  /-- At most one thread is between its lock and its unlock. -/
  exclusive : ∀ t t', (s.phase t).Between → (s.phase t').Between → t = t'

theorem between_code {p : Point} (h : p.code.Between) : p.between = true := by
  cases p with
  | entered | inside | check | unread | leave _ => rfl
  | out | read | create | init _ | cas _ | delete _ | free _ | dead | reread | enter _ | left =>
      exact h.elim

/-- Where a section is, with what its record says there. -/
theorem place_record {m : Memory Tid} {pts : Tid → Point} (hi : Inv m pts) {k : Nat}
    (hk : k < m.next) :
    (∃ t a, (pts t).owns = some a ∧ m.heap a = some k ∧ m.sections k = (pts t).record t)
      ∨ (∃ a, m.lock = some a ∧ m.heap a = some k ∧ (m.sections k).InUse)
      ∨ ∃ t, m.sections k = .gone t := by
  rcases hi.place k hk with ⟨t, a, hown, ha⟩ | ⟨a, hl, ha⟩ | h
  · obtain ⟨j, hj, hrec⟩ := hi.own t a hown
    obtain rfl : k = j := Option.some.inj (ha.symm.trans hj)
    exact Or.inl ⟨t, a, hown, ha, hrec⟩
  · obtain ⟨j, hj, huse⟩ := hi.lock a hl
    obtain rfl : k = j := Option.some.inj (ha.symm.trans hj)
    exact Or.inr (Or.inl ⟨a, hl, ha, huse⟩)
  · exact Or.inr (Or.inr h)

/-- A section that is still with its maker: neither published nor entered, and if it
lost, the maker's next step deletes or frees it. -/
theorem private_record {s : State Tid} {t : Tid} {p : Point} {a : Addr}
    (hp : s.phase t = p.code) (hown : p.owns = some a) :
    (p.record t).published = false ∧ (p.record t).entered = 0 ∧ (p.record t).freed = 0
      ∧ (p.record t).maker = t
      ∧ ((p.record t).lost = true →
        ((p.record t).deleted = 1 ∧ s.Next t (.free a))
          ∨ ((p.record t).deleted = 0 ∧ s.Next t (.deleteCriticalSection a)))
      ∧ ((p.record t).lost = false → (p.record t).deleted = 0) := by
  cases p with
  | init b | cas b => exact ⟨rfl, rfl, rfl, rfl, nofun, fun _ => rfl⟩
  | delete b =>
      obtain rfl := Option.some.inj hown
      exact ⟨rfl, rfl, rfl, rfl, fun _ => Or.inr ⟨rfl, _, hp⟩, nofun⟩
  | free b =>
      obtain rfl := Option.some.inj hown
      exact ⟨rfl, rfl, rfl, rfl, fun _ => Or.inl ⟨rfl, _, hp⟩, nofun⟩
  | out | read | create | dead | reread | enter _ | entered | inside | check | unread | leave _
  | left => cases hown

/-- The invariant of a whole state: every thread stands at a point. -/
def State.Sound (s : State Tid) : Prop :=
  ∃ pts : Tid → Point, (∀ t, s.phase t = (pts t).code) ∧ Inv s.mem pts

theorem safe_of_sound {s : State Tid} (hs : s.Sound) : LockSafe s := by
  obtain ⟨pts, hpts, hi⟩ := hs
  refine
    { defined := hi.defined, published := ?_, winner := ?_, entered := ?_, losers := ?_
      kept := ?_, exclusive := ?_ }
  · intro a hl
    obtain ⟨k, ha, huse⟩ := hi.lock a hl
    exact ⟨k, ha, huse.published, huse.ready, huse.deleted, huse.freed⟩
  · intro k hk hpub
    -- private and gone sections were never published
    rcases place_record hi hk with ⟨t, a, hown, -, hrec⟩ | ⟨a, hl, ha, -⟩ | ⟨t, hrec⟩
    · rw [hrec, (private_record (hpts t) hown).1] at hpub; cases hpub
    · exact ⟨a, hl, ha⟩
    · rw [hrec] at hpub; cases hpub
  · intro k hk hent
    rcases place_record hi hk with ⟨t, a, hown, -, hrec⟩ | ⟨a, -, -, huse⟩ | ⟨t, hrec⟩
    · rw [hrec] at hent; exact absurd (private_record (hpts t) hown).2.1 hent
    · exact huse.published
    · rw [hrec] at hent; exact absurd rfl hent
  · intro k hk hlost
    rcases place_record hi hk with ⟨t, a, hown, ha, hrec⟩ | ⟨a, -, -, huse⟩ | ⟨t, hrec⟩
    · obtain ⟨-, -, hfreed, hmaker, hnext, -⟩ := private_record (hpts t) hown
      rw [hrec] at hlost ⊢
      -- a loser is still with its maker, who deletes or frees it next
      rw [hmaker]
      rcases hnext hlost with ⟨hdel, hn⟩ | ⟨hdel, hn⟩
      · exact Or.inr (Or.inl ⟨hdel, hfreed, a, ha, hn⟩)
      · exact Or.inr (Or.inr ⟨hdel, hfreed, a, ha, hn⟩)
    · rw [huse.lost] at hlost; cases hlost
    · rw [hrec]; exact Or.inl ⟨rfl, rfl⟩
  · intro k hk hlost
    rcases place_record hi hk with ⟨t, a, hown, -, hrec⟩ | ⟨a, -, -, huse⟩ | ⟨t, hrec⟩
    · obtain ⟨-, -, hfreed, -, -, hdel⟩ := private_record (hpts t) hown
      rw [hrec] at hlost ⊢
      exact ⟨hdel hlost, hfreed⟩
    · exact ⟨huse.deleted, huse.freed⟩
    · rw [hrec] at hlost; cases hlost
  · intro t t' ht ht'
    rw [hpts] at ht ht'
    have hb := between_code ht
    have hb' := between_code ht'
    -- between lock and unlock a thread is the owner, and a section has one owner
    cases hl : s.mem.lock with
    | none => rw [(hi.nobody hl t).2.1] at hb; cases hb
    | some a =>
        obtain ⟨k, ha, -⟩ := hi.lock a hl
        have howner := (hi.holder a k hl ha t).mpr hb
        have howner' := (hi.holder a k hl ha t').mpr hb'
        exact Option.some.inj (howner.symm.trans howner')

variable [DecidableEq Tid] {C : CryptoLocks}

/-! ## Every run -/

theorem sound_init {s : State Tid} (h : (mutex Tid C).Init s) : s.Sound := by
  obtain ⟨hl, hheap, hnext, hub, hout⟩ := h
  refine ⟨fun _ => .out, hout, ?_⟩
  refine
    { defined := hub, bounded := ?_, inj := ?_, own := fun _ _ h => (by cases h), lock := ?_
      past := fun _ h => (by cases h), arg := fun _ _ h => (by cases h), holder := ?_, place := ?_ }
  · intro a k h; rw [hheap] at h; cases h
  · intro a b k h _; rw [hheap] at h; cases h
  · intro a h; rw [hl] at h; cases h
  · intro a k h _; rw [hl] at h; cases h
  · intro k hk; rw [hnext] at hk; exact absurd hk (Nat.not_lt_zero k)

theorem sound_step {s s' : State Tid} {t : Tid} (hs : s.Sound) (h : LockStep C s t s') :
    s'.Sound := by
  obtain ⟨pts, hpts, hi⟩ := hs
  -- one step of a program is one move between points
  obtain ⟨m', p', rfl, hmove⟩ := move_of_step h (hpts t) fun hc => hi.past t (by rw [hc]; rfl)
  refine ⟨Function.update pts t p', ?_, inv_move hi hmove⟩
  intro t'
  by_cases ht : t' = t
  · subst ht
    rw [Function.update_self]
    exact Function.update_self ..
  · rw [Function.update_of_ne ht, ← hpts t']
    exact Function.update_of_ne ht ..

theorem sound_reachable {s : State Tid} (h : (mutex Tid C).Reachable s) : s.Sound :=
  h.invariant (fun _ => sound_init) (fun _ _ _ _ hs hstep => sound_step hs hstep)

/-! ## The pointer -/

/-- A move that sets the pointer finds it NULL. -/
theorem move_lock {t : Tid} {m m' : Memory Tid} {p p' : Point} (h : Move t m p m' p') {a : Addr}
    (hl : m.lock = some a) : m'.lock = some a := by
  have hedit : ∀ (b : Addr) (ok : Section Tid → Bool) (f : Section Tid → Section Tid),
      (m.editAt b ok f).lock = m.lock := by
    intro b ok f
    unfold Memory.editAt
    split
    · rfl
    · split <;> rfl
  cases h with
  | win hnull => rw [hnull] at hl; cases hl
  | init | lose _ | delete => exact (hedit ..).trans hl
  | @free b =>
      unfold Memory.released
      split <;> exact hl
  | @enter m' q hans =>
      cases q with
      | none => rw [show m' = _ from hans]; exact hl
      | some b =>
          -- entering changes a section or nothing, never the pointer
          simp only [Memory.Answers, Memory.Enters] at hans
          split at hans
          · rw [hans]; exact hl
          · split at hans
            · rw [hans.2]; exact hl
            · rw [hans]; exact hl
  | @leave m' q hans =>
      cases q with
      | none => rw [show m' = _ from hans]; exact hl
      | some b => rw [show m' = _ from hans]; exact (hedit ..).trans hl
  | begin | readNull _ | readSet _ | noMemory | malloc _ | reread | locked | unlockDirect
  | unlockCheck | check | unread | unlocked => exact hl

/-! ## The guarantee -/

/--
**A lazily initialised lock is a lock.**

However many threads lock and unlock it, and however their steps interleave, every
state is safe, and once the pointer is set no later step changes it.
-/
theorem mutex_safe {s : State Tid} (h : (mutex Tid C).Reachable s) :
    LockSafe s ∧ ∀ es s', (mutex Tid C).Path s es s' → ∀ a, s.mem.lock = some a →
      s'.mem.lock = some a := by
  refine ⟨safe_of_sound (sound_reachable h), fun es s' hpath a hl => ?_⟩
  refine hpath.stable (P := fun s => s.mem.lock = some a) ?_ h hl
  intro u t u' hu hla hstep
  obtain ⟨pts, hpts, hi⟩ := sound_reachable hu
  obtain ⟨m', p', rfl, hmove⟩ := move_of_step hstep (hpts t) fun hc => hi.past t (by rw [hc]; rfl)
  exact move_lock hmove hla

/-- A run goes on with a move of thread `t`. -/
theorem reachable_move {m m' : Memory Tid} {ph : Tid → Phase} {p p' : Point} (t : Tid)
    (h : (mutex Tid C).Reachable ⟨m, ph⟩) (hbit : C.lockBit ≠ 0#32) (hm : Move t m p m' p')
    (hp : ph t = p.code) (hcheck : p ≠ .check) :
    (mutex Tid C).Reachable ⟨m', Function.update ph t p'.code⟩ :=
  h.tail (step_of_move hbit hp hm fun hc => absurd hc hcheck)

/-- What entering a section that nobody owns does to it. -/
def Section.enteredBy (t : Tid) (c : Section Tid) : Section Tid :=
  { c with owner := some t, count := c.count + 1, entered := c.entered + 1 }

theorem Move.entering {m : Memory Tid} {a : Addr} {k : Nat} (t : Tid) (ha : m.heap a = some k)
    (hready : (m.sections k).ready = true) (howner : (m.sections k).owner = none) :
    Move t m (.enter (some a)) (m.edit k (Section.enteredBy t)) .entered := by
  refine .enter ?_
  simp only [Memory.Answers, Memory.Enters, ha, hready, howner, if_true]
  exact ⟨.inl trivial, rfl⟩

/-- What leaving a section does to it. -/
def Section.left (c : Section Tid) : Section Tid :=
  { c with count := c.count - 1, owner := if c.count ≤ 1 then none else c.owner }

theorem Move.leaving {m : Memory Tid} {a : Addr} {k : Nat} (t : Tid) (ha : m.heap a = some k)
    (hready : (m.sections k).ready = true) (howner : (m.sections k).owner = some t) :
    Move t m (.leave (some a)) (m.edit k Section.left) .left :=
  .leave (editAt_eq ha (by simp [hready, howner])).symm

/-- `CRYPTO_LOCK` is 1, and the first lock is looked at. -/
def firstLock : CryptoLocks := ⟨1#32, 41#32, 0#32, by decide⟩

/-- Two threads, before either has done anything. -/
def twoThreads : State Bool :=
  ⟨⟨none, fun _ => none, fun _ => .new true, 0, false⟩, fun _ => .out⟩

/-- Both threads see the pointer NULL and make a section. One publishes its own and enters
it; the other throws its own away and is about to wait. -/
theorem mutex_safe_racing : ∃ s, (mutex Bool firstLock).Reachable s ∧ s.mem.lock = some 7 ∧
    (s.mem.sections 0).published = true ∧ (s.mem.sections 0).owner = some true ∧
    (s.mem.sections 1).lost = true ∧ (s.mem.sections 1).freed = 1 ∧
    s.phase false = (Point.enter (some 7)).code ∧ LockSafe s ∧
    ∀ es s', (mutex Bool firstLock).Path s es s' → ∀ a, s.mem.lock = some a →
      s'.mem.lock = some a := by
  have h : (mutex Bool firstLock).Reachable twoThreads :=
    .init ⟨rfl, fun _ => rfl, rfl, rfl, fun _ => rfl⟩
  have hbit : firstLock.lockBit ≠ 0#32 := by decide
  -- both look at the pointer
  have h := reachable_move true h hbit .begin rfl nofun
  have h := reachable_move false h hbit .begin rfl nofun
  have h := reachable_move true h hbit (.readNull rfl) rfl nofun
  have h := reachable_move false h hbit (.readNull rfl) rfl nofun
  -- and both make a section
  have h := reachable_move true h hbit (.malloc (a := 7) rfl) rfl nofun
  have h := reachable_move false h hbit (.malloc (a := 9) rfl) rfl nofun
  have h := reachable_move true h hbit .init rfl nofun
  have h := reachable_move false h hbit .init rfl nofun
  -- one wins
  have h := reachable_move true h hbit (.win rfl) rfl nofun
  have h := reachable_move false h hbit (.lose nofun) rfl nofun
  have h := reachable_move true h hbit .reread rfl nofun
  have h := reachable_move true h hbit (.entering true rfl rfl rfl) rfl nofun
  -- and one is late
  have h := reachable_move false h hbit .delete rfl nofun
  have h := reachable_move false h hbit .free rfl nofun
  have h := reachable_move false h hbit .reread rfl nofun
  exact ⟨_, h, rfl, rfl, rfl, rfl, rfl, rfl, mutex_safe h⟩

end LibrePortable.Sync
