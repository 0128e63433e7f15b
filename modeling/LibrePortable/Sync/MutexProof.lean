import LibrePortable.Sync.MutexPoints

/-!
# One section, one holder

Every section is in one of three places at any time: with the thread that made it and
has not yet won or thrown it away, in the mutex, or freed after losing the race. The
invariant says so, together with what the record of a section looks like in each place,
and that the owner of the published section is the one thread between its lock and its
unlock.
-/

namespace LibrePortable.Sync

open Lib Prog

variable {Tid : Type}

/-! ## What a point says about its thread -/

namespace Point

/-- The section a thread is alone with. -/
def owns : Point → Option Addr
  | .init a | .cas a | .delete a | .free a => some a
  | _ => none

/-- What that section's record looks like. -/
def record (t : Tid) : Point → Section Tid
  | .cas _ => { Section.new t with ready := true }
  | .delete _ => { Section.new t with ready := true, lost := true }
  | .free _ => { Section.new t with lost := true, deleted := 1 }
  | _ => .new t

/-- The pointer has been seen set, or been set. -/
def past : Point → Bool
  | .delete _ | .free _ | .reread | .enter _ | .entered | .inside | .check | .unread
  | .leave _ => true
  | _ => false

/-- What the thread read when it last looked, and is about to use. -/
def arg : Point → Option (Option Addr)
  | .enter p | .leave p => some p
  | _ => none

/-- Between its lock and its unlock. -/
def between : Point → Bool
  | .entered | .inside | .check | .unread | .leave _ => true
  | _ => false

end Point

/-- The record of a section that lost the race and has been thrown away. -/
def Section.gone (t : Tid) : Section Tid :=
  { Section.new t with lost := true, deleted := 1, freed := 1 }

/-- A section that has been published and is in use. -/
structure Section.InUse (c : Section Tid) : Prop where
  published : c.published = true
  lost : c.lost = false
  ready : c.ready = true
  deleted : c.deleted = 0
  freed : c.freed = 0
  count : c.count = if c.owner = none then 0 else 1

/-- The invariant. -/
structure Inv (m : Memory Tid) (pts : Tid → Point) : Prop where
  defined : m.ub = false
  bounded : ∀ a k, m.heap a = some k → k < m.next
  inj : ∀ a b k, m.heap a = some k → m.heap b = some k → a = b
  own : ∀ t a, (pts t).owns = some a →
    ∃ k, m.heap a = some k ∧ m.sections k = (pts t).record t
  lock : ∀ a, m.lock = some a → ∃ k, m.heap a = some k ∧ (m.sections k).InUse
  past : ∀ t, (pts t).past = true → m.lock ≠ none
  arg : ∀ t p, (pts t).arg = some p → p = m.lock
  holder : ∀ a k, m.lock = some a → m.heap a = some k →
    ∀ t, (m.sections k).owner = some t ↔ (pts t).between = true
  place : ∀ k < m.next, (∃ t a, (pts t).owns = some a ∧ m.heap a = some k)
    ∨ (∃ a, m.lock = some a ∧ m.heap a = some k) ∨ ∃ t, m.sections k = .gone t

/-! ## Editing a section -/

@[simp] theorem edit_self (m : Memory Tid) (k : Nat) (f : Section Tid → Section Tid) :
    (m.edit k f).sections k = f (m.sections k) := Function.update_self ..

theorem edit_ne (m : Memory Tid) {j k : Nat} (h : j ≠ k) (f : Section Tid → Section Tid) :
    (m.edit k f).sections j = m.sections j := Function.update_of_ne h ..

theorem editAt_eq {m : Memory Tid} {a : Addr} {k : Nat} {ok : Section Tid → Bool}
    {f : Section Tid → Section Tid} (ha : m.heap a = some k) (hok : ok (m.sections k) = true) :
    m.editAt a ok f = m.edit k f := by
  simp only [Memory.editAt, ha, hok, if_true]

theorem allocated_heap_ne (m : Memory Tid) (t : Tid) {a b : Addr} (h : b ≠ a) :
    (m.allocated t a).heap b = m.heap b := Function.update_of_ne h ..

theorem allocated_sections_ne (m : Memory Tid) (t : Tid) (a : Addr) {k : Nat} (h : k ≠ m.next) :
    (m.allocated t a).sections k = m.sections k := Function.update_of_ne h ..

section Preservation

variable {m : Memory Tid} {pts : Tid → Point} {t : Tid} {p' : Point}

/-- No private section is in the mutex. -/
theorem Inv.own_ne_lock (hi : Inv m pts) {a b : Addr} {k : Nat} (hown : (pts t).owns = some a)
    (ha : m.heap a = some k) (hb : m.lock = some b) : m.heap b ≠ some k := by
  intro hbk
  obtain ⟨k', hk', hrec⟩ := hi.own t a hown
  obtain rfl : k = k' := Option.some.inj (ha.symm.trans hk')
  obtain ⟨j, hj, huse⟩ := hi.lock b hb
  obtain rfl : k = j := Option.some.inj (hbk.symm.trans hj)
  have hpub := huse.published
  -- a section its maker still owns is not published
  rw [hrec] at hpub
  revert hpub
  cases pts t <;> simp [Point.record, Section.new]

/-- A private section has one owner: its maker. -/
theorem Inv.own_unique (hi : Inv m pts) {t' : Tid} {a b : Addr} {k : Nat}
    (hown : (pts t).owns = some a) (hown' : (pts t').owns = some b) (ha : m.heap a = some k)
    (hb : m.heap b = some k) : t = t' := by
  obtain ⟨j, hj, hrec⟩ := hi.own t a hown
  obtain ⟨j', hj', hrec'⟩ := hi.own t' b hown'
  obtain rfl : k = j := Option.some.inj (ha.symm.trans hj)
  obtain rfl : k = j' := Option.some.inj (hb.symm.trans hj')
  -- the record names the maker, so two owners of one section are one thread
  have hmaker : ∀ (u : Tid) (p : Point), (p.record u).maker = u := by
    intro u p; cases p <;> rfl
  rw [← hmaker t (pts t), ← hmaker t' (pts t'), ← hrec, ← hrec']

/-- Nobody is between lock and unlock, or about to be, while the pointer is NULL. -/
theorem Inv.nobody (hi : Inv m pts) (hl : m.lock = none) (t' : Tid) :
    (pts t').past = false ∧ (pts t').between = false ∧ (pts t').arg = none := by
  have hpast : (pts t').past = false := by
    rw [Bool.eq_false_iff]
    exact fun h => hi.past t' h hl
  revert hpast
  cases pts t' <;> simp [Point.past, Point.between, Point.arg]

/-- The section in the mutex is not a private one. -/
theorem Inv.ne_of_lock (hi : Inv m pts) {a b : Addr} {j k : Nat} (hown : (pts t).owns = some a)
    (ha : m.heap a = some k) (hb : m.lock = some b) (hj : m.heap b = some j) : j ≠ k := by
  intro heq
  subst heq
  exact hi.own_ne_lock hown ha hb hj

/-- Two threads own two sections. -/
theorem Inv.ne_of_owners (hi : Inv m pts) {t' : Tid} {a b : Addr} {j k : Nat}
    (hown : (pts t).owns = some a) (ha : m.heap a = some k) (h : (pts t').owns = some b)
    (hj : m.heap b = some j) (ht : t' ≠ t) : j ≠ k := by
  intro heq
  subst heq
  exact ht (hi.own_unique h hown hj ha)

theorem ne_of_owns_none {t' : Tid} {b : Addr} (hown : (pts t).owns = none)
    (h : (pts t').owns = some b) : t' ≠ t := by
  intro heq
  subst heq
  rw [hown] at h
  cases h

/-- A thread owns one section. -/
theorem ne_of_sections {t' : Tid} {a b : Addr} {j k : Nat} (hown : (pts t).owns = some a)
    (ha : m.heap a = some k) (h : (pts t').owns = some b) (hj : m.heap b = some j) (hjk : j ≠ k) :
    t' ≠ t := by
  intro heq
  subst heq
  obtain rfl : a = b := Option.some.inj (hown.symm.trans h)
  exact hjk (Option.some.inj (hj.symm.trans ha))

variable [DecidableEq Tid]

theorem Inv.past_moved (hi : Inv m pts) (hpast : p'.past = true → m.lock ≠ none) :
    ∀ t', (Function.update pts t p' t').past = true → m.lock ≠ none :=
  (Function.forall_update_iff pts fun _ p => p.past = true → m.lock ≠ none).mpr
    ⟨hpast, fun t' _ => hi.past t'⟩

theorem Inv.arg_moved (hi : Inv m pts) (harg : ∀ q, p'.arg = some q → q = m.lock) :
    ∀ t' q, (Function.update pts t p' t').arg = some q → q = m.lock :=
  (Function.forall_update_iff pts fun _ p => ∀ q, p.arg = some q → q = m.lock).mpr
    ⟨harg, fun t' _ => hi.arg t'⟩

/-- **A move that leaves memory alone.** -/
theorem inv_quiet (hi : Inv m pts) (hown : (pts t).owns = none) (hown' : p'.owns = none)
    (hb : p'.between = (pts t).between) (hpast : p'.past = true → m.lock ≠ none)
    (harg : ∀ q, p'.arg = some q → q = m.lock) : Inv m (Function.update pts t p') where
  defined := hi.defined
  bounded := hi.bounded
  inj := hi.inj
  lock := hi.lock
  own := (Function.forall_update_iff pts fun t' p => ∀ a, p.owns = some a →
    ∃ k, m.heap a = some k ∧ m.sections k = p.record t').mpr
      ⟨fun a h => absurd (hown'.symm.trans h) (Option.some_ne_none a).symm, fun t' _ => hi.own t'⟩
  past := hi.past_moved hpast
  arg := hi.arg_moved harg
  holder a k hl hk := (Function.forall_update_iff pts fun t' p =>
    (m.sections k).owner = some t' ↔ p.between = true).mpr
      ⟨by rw [hb]; exact hi.holder a k hl hk t, fun t' _ => hi.holder a k hl hk t'⟩
  -- the moving thread owned nothing, so no section is left without a place
  place k hk := by
    rcases hi.place k hk with ⟨t', a, h, ha⟩ | h
    · have ht := ne_of_owns_none hown h
      exact Or.inl ⟨t', a, by rw [Function.update_of_ne ht]; exact h, ha⟩
    · exact Or.inr h

/-- **A thread works on its own section.** -/
theorem inv_own (hi : Inv m pts) {a : Addr} {k : Nat} {f : Section Tid → Section Tid}
    (hown : (pts t).owns = some a) (ha : m.heap a = some k) (hown' : p'.owns = some a)
    (hf : f ((pts t).record t) = p'.record t) (hb : p'.between = (pts t).between)
    (hpast : p'.past = true → m.lock ≠ none) (harg : p'.arg = none) :
    Inv (m.edit k f) (Function.update pts t p') where
  defined := hi.defined
  bounded := hi.bounded
  inj := hi.inj
  own := (Function.forall_update_iff pts fun t' p => ∀ b, p.owns = some b →
    ∃ j, m.heap b = some j ∧ (m.edit k f).sections j = p.record t').mpr (by
      constructor
      · intro b h
        obtain rfl : a = b := Option.some.inj (hown'.symm.trans h)
        obtain ⟨j, hj, hrec⟩ := hi.own t a hown
        obtain rfl : k = j := Option.some.inj (ha.symm.trans hj)
        exact ⟨k, ha, by rw [edit_self, hrec, hf]⟩
      · intro t' ht b h
        obtain ⟨j, hj, hrec⟩ := hi.own t' b h
        have hjk := hi.ne_of_owners hown ha h hj ht
        exact ⟨j, hj, by rw [edit_ne _ hjk]; exact hrec⟩)
  lock b hl := by
    obtain ⟨j, hj, huse⟩ := hi.lock b hl
    have hjk := hi.ne_of_lock hown ha hl hj
    exact ⟨j, hj, by rw [edit_ne _ hjk]; exact huse⟩
  past := hi.past_moved hpast
  arg := hi.arg_moved fun q h => absurd (harg.symm.trans h) (Option.some_ne_none q).symm
  holder b j hl hj := (Function.forall_update_iff pts fun t' p =>
    ((m.edit k f).sections j).owner = some t' ↔ p.between = true).mpr (by
      have hjk := hi.ne_of_lock hown ha hl hj
      rw [edit_ne _ hjk, hb]
      exact ⟨hi.holder b j hl hj t, fun t' _ => hi.holder b j hl hj t'⟩)
  place j hj := by
    -- section `k` stays with `t`; every other one keeps its place
    by_cases hjk : j = k
    · exact Or.inl ⟨t, a, by rw [Function.update_self]; exact hown', hjk ▸ ha⟩
    · rcases hi.place j hj with ⟨t', b, h, hjb⟩ | h | ⟨t', h⟩
      · have ht := ne_of_sections hown ha h hjb hjk
        exact Or.inl ⟨t', b, by rw [Function.update_of_ne ht]; exact h, hjb⟩
      · exact Or.inr (Or.inl h)
      · exact Or.inr (Or.inr ⟨t', by rw [edit_ne _ hjk]; exact h⟩)

/-- **A thread enters or leaves the published section.** -/
theorem inv_published (hi : Inv m pts) {a : Addr} {k : Nat} {f : Section Tid → Section Tid}
    (hl : m.lock = some a) (ha : m.heap a = some k) (hown : (pts t).owns = none)
    (hown' : p'.owns = none) (huse : (f (m.sections k)).InUse)
    (howner : (f (m.sections k)).owner = some t ↔ p'.between = true)
    (hothers : ∀ t' ≠ t, (f (m.sections k)).owner = some t' ↔ (m.sections k).owner = some t')
    (harg : p'.arg = none) : Inv (m.edit k f) (Function.update pts t p') where
  defined := hi.defined
  bounded := hi.bounded
  inj := hi.inj
  own := (Function.forall_update_iff pts fun t' p => ∀ b, p.owns = some b →
    ∃ j, m.heap b = some j ∧ (m.edit k f).sections j = p.record t').mpr (by
      -- a private section is not the one in the mutex, so its record does not move
      refine ⟨fun b h => absurd (hown'.symm.trans h) (Option.some_ne_none b).symm, ?_⟩
      intro t' _ b h
      obtain ⟨j, hj, hrec⟩ := hi.own t' b h
      have hjk := (hi.ne_of_lock h hj hl ha).symm
      exact ⟨j, hj, by rw [edit_ne _ hjk]; exact hrec⟩)
  lock b hb := by
    obtain rfl : a = b := Option.some.inj (hl.symm.trans hb)
    exact ⟨k, ha, by rw [edit_self]; exact huse⟩
  past := hi.past_moved fun _ => by rw [hl]; exact Option.some_ne_none a
  arg := hi.arg_moved fun q h => absurd (harg.symm.trans h) (Option.some_ne_none q).symm
  holder b j hb hj := by
    obtain rfl : a = b := Option.some.inj (hl.symm.trans hb)
    obtain rfl : k = j := Option.some.inj (ha.symm.trans hj)
    rw [edit_self]
    refine (Function.forall_update_iff pts fun t' p =>
      (f (m.sections k)).owner = some t' ↔ p.between = true).mpr ⟨howner, fun t' ht => ?_⟩
    rw [hothers t' ht]
    exact hi.holder a k hl ha t'
  place j hj := by
    by_cases hjk : j = k
    · exact Or.inr (Or.inl ⟨a, hl, hjk ▸ ha⟩)
    · rcases hi.place j hj with ⟨t', b, h, hjb⟩ | h | ⟨t', h⟩
      · have ht := ne_of_owns_none hown h
        exact Or.inl ⟨t', b, by rw [Function.update_of_ne ht]; exact h, hjb⟩
      · exact Or.inr (Or.inl h)
      · exact Or.inr (Or.inr ⟨t', by rw [edit_ne _ hjk]; exact h⟩)

/-- **A new section.** -/
theorem inv_allocated (hi : Inv m pts) {a : Addr} (hfree : m.heap a = none)
    (hp : pts t = .create) : Inv (m.allocated t a) (Function.update pts t (.init a)) := by
  have hheap : ∀ {b k}, b ≠ a → (m.allocated t a).heap b = some k → m.heap b = some k := by
    intro b k hb h
    rwa [allocated_heap_ne m t hb] at h
  have hself : (m.allocated t a).heap a = some m.next := Function.update_self ..
  have hold : ∀ {b k}, m.heap b = some k → (m.allocated t a).heap b = some k ∧ k ≠ m.next
      ∧ (m.allocated t a).sections k = m.sections k := by
    intro b k h
    have hb : b ≠ a := by
      intro heq
      subst heq
      rw [hfree] at h
      cases h
    have hk : k ≠ m.next := Nat.ne_of_lt (hi.bounded b k h)
    exact ⟨by rw [allocated_heap_ne m t hb]; exact h, hk, allocated_sections_ne m t a hk⟩
  refine
    { defined := hi.defined, bounded := ?_, inj := ?_, own := ?_, lock := ?_, past := ?_
      arg := ?_, holder := ?_, place := ?_ }
  · intro b k h
    by_cases hb : b = a
    · subst hb
      obtain rfl := Option.some.inj (hself.symm.trans h)
      exact Nat.lt_succ_self _
    · exact Nat.lt_succ_of_lt (hi.bounded b k (hheap hb h))
  · intro b c k h h'
    -- the new section has a number that no address led to before
    by_cases hb : b = a <;> by_cases hc : c = a
    · rw [hb, hc]
    · subst hb
      obtain rfl := Option.some.inj (hself.symm.trans h)
      exact absurd (hi.bounded c _ (hheap hc h')) (Nat.lt_irrefl _)
    · subst hc
      obtain rfl := Option.some.inj (hself.symm.trans h')
      exact absurd (hi.bounded b _ (hheap hb h)) (Nat.lt_irrefl _)
    · exact hi.inj b c k (hheap hb h) (hheap hc h')
  · refine (Function.forall_update_iff pts fun t' p => ∀ b, p.owns = some b →
      ∃ k, (m.allocated t a).heap b = some k
        ∧ (m.allocated t a).sections k = p.record t').mpr ⟨?_, ?_⟩
    · intro b h
      obtain rfl : a = b := Option.some.inj h
      exact ⟨m.next, hself, Function.update_self ..⟩
    · intro t' _ b h
      obtain ⟨k, hk, hrec⟩ := hi.own t' b h
      -- the sections of the others are where they were
      obtain ⟨hk', -, hsec⟩ := hold hk
      exact ⟨k, hk', by rw [hsec]; exact hrec⟩
  · intro b hl
    obtain ⟨k, hk, huse⟩ := hi.lock b hl
    obtain ⟨hk', -, hsec⟩ := hold hk
    exact ⟨k, hk', by rw [hsec]; exact huse⟩
  · exact hi.past_moved fun h => (by cases h)
  · exact hi.arg_moved fun q h => (by cases h)
  · intro b k hl hk
    obtain ⟨j, hj, -⟩ := hi.lock b hl
    obtain ⟨hj', -, hsec⟩ := hold hj
    obtain rfl := Option.some.inj (hj'.symm.trans hk)
    rw [hsec]
    refine (Function.forall_update_iff pts fun t' p =>
      (m.sections j).owner = some t' ↔ p.between = true).mpr ⟨?_, fun t' _ => ?_⟩
    · rw [hi.holder b j hl hj t, hp]; rfl
    · exact hi.holder b j hl hj t'
  · intro k hk
    by_cases hkn : k = m.next
    · subst hkn
      exact Or.inl ⟨t, a, by rw [Function.update_self]; rfl, hself⟩
    · have hlt : k < m.next := by
        have : k < m.next + 1 := hk
        omega
      rcases hi.place k hlt with ⟨t', b, h, hb⟩ | ⟨b, hl, hb⟩ | ⟨t', h⟩
      · have ht := ne_of_owns_none (t := t) (by rw [hp]; rfl) h
        exact Or.inl ⟨t', b, by rw [Function.update_of_ne ht]; exact h, (hold hb).1⟩
      · exact Or.inr (Or.inl ⟨b, hl, (hold hb).1⟩)
      · exact Or.inr (Or.inr ⟨t', (allocated_sections_ne m t a hkn).trans h⟩)

/-- **A section is published.** -/
theorem inv_won (hi : Inv m pts) {a : Addr} (hp : pts t = .cas a) (hl : m.lock = none) :
    Inv (m.won a) (Function.update pts t .reread) := by
  have hown : (pts t).owns = some a := by rw [hp]; rfl
  obtain ⟨k, ha, hrec⟩ := hi.own t a hown
  -- what publishing changes: the pointer, and the record of section `k`
  obtain ⟨hub, hlock, hheap, hnext, hself, hother⟩ : (m.won a).ub = m.ub
      ∧ (m.won a).lock = some a ∧ (m.won a).heap = m.heap ∧ (m.won a).next = m.next
      ∧ (m.won a).sections k = { Section.new t with ready := true, published := true }
      ∧ ∀ j ≠ k, (m.won a).sections j = m.sections j := by
    rw [Memory.won, editAt_eq ha rfl]
    refine ⟨rfl, rfl, rfl, rfl, ?_, fun j hj => Function.update_of_ne hj ..⟩
    refine (edit_self m k fun c => { c with published := true }).trans ?_
    rw [hrec, hp]
    rfl
  generalize m.won a = m' at hub hlock hheap hnext hself hother ⊢
  refine
    { defined := hub.trans hi.defined, bounded := by rw [hheap, hnext]; exact hi.bounded
      inj := by rw [hheap]; exact hi.inj, own := ?_, lock := ?_
      past := fun _ _ => by rw [hlock]; exact Option.some_ne_none a
      arg := ?_, holder := ?_, place := ?_ }
  · rw [hheap]
    refine (Function.forall_update_iff pts fun t' p => ∀ b, p.owns = some b → ∃ j,
      m.heap b = some j ∧ m'.sections j = p.record t').mpr ⟨fun b h => (by cases h), ?_⟩
    intro t' ht b h
    obtain ⟨j, hj, hrecj⟩ := hi.own t' b h
    have hjk := hi.ne_of_owners hown ha h hj ht
    exact ⟨j, hj, (hother j hjk).trans hrecj⟩
  · intro b hb
    obtain rfl : a = b := Option.some.inj (hlock.symm.trans hb)
    refine ⟨k, by rw [hheap]; exact ha, ?_⟩
    rw [hself]
    exact ⟨rfl, rfl, rfl, rfl, rfl, rfl⟩
  · refine (Function.forall_update_iff pts fun _ p => ∀ q, p.arg = some q → q = m'.lock).mpr
      ⟨fun q h => (by cases h), fun t' _ q h => ?_⟩
    -- the pointer was NULL, so nobody has read it on the way to a section
    rw [(hi.nobody hl t').2.2] at h
    cases h
  · intro b j hb hj
    obtain rfl : a = b := Option.some.inj (hlock.symm.trans hb)
    rw [hheap] at hj
    obtain rfl : k = j := Option.some.inj (ha.symm.trans hj)
    rw [hself]
    refine (Function.forall_update_iff pts fun t' p =>
      (none : Option Tid) = some t' ↔ p.between = true).mpr ⟨by simp [Point.between], ?_⟩
    intro t' _
    -- nor is anybody between lock and unlock
    rw [(hi.nobody hl t').2.1]
    simp
  · intro j hj
    rw [hheap]
    by_cases hjk : j = k
    · exact Or.inr (Or.inl ⟨a, hlock, hjk ▸ ha⟩)
    · rcases hi.place j (hnext ▸ hj) with ⟨t', b, h, hjb⟩ | ⟨b, hb, -⟩ | ⟨t', h⟩
      · have ht := ne_of_sections hown ha h hjb hjk
        exact Or.inl ⟨t', b, by rw [Function.update_of_ne ht]; exact h, hjb⟩
      · rw [hl] at hb; cases hb
      · exact Or.inr (Or.inr ⟨t', (hother j hjk).trans h⟩)

/-- **A section is given back.** -/
theorem inv_released (hi : Inv m pts) {a : Addr} (hp : pts t = .free a) :
    Inv (m.released a) (Function.update pts t .reread) := by
  have hown : (pts t).owns = some a := by rw [hp]; rfl
  have hset : m.lock ≠ none := hi.past t (by rw [hp]; rfl)
  obtain ⟨k, ha, hrec⟩ := hi.own t a hown
  -- what giving back changes: the address, and the record of section `k`
  obtain ⟨hub, hlock, hgone, hne, hnext, hself, hother⟩ : (m.released a).ub = m.ub
      ∧ (m.released a).lock = m.lock ∧ (m.released a).heap a = none
      ∧ (∀ b ≠ a, (m.released a).heap b = m.heap b) ∧ (m.released a).next = m.next
      ∧ (m.released a).sections k = .gone t
      ∧ ∀ j ≠ k, (m.released a).sections j = m.sections j := by
    simp only [Memory.released, ha]
    refine ⟨rfl, rfl, Function.update_self .., fun b hb => Function.update_of_ne hb .., rfl, ?_,
      fun j hj => Function.update_of_ne hj ..⟩
    exact (edit_self m k _).trans (by rw [hrec, hp]; rfl)
  generalize m.released a = m' at hub hlock hgone hne hnext hself hother ⊢
  -- what is still reachable is what was reachable, less section `k`
  have hheap : ∀ {b j}, m'.heap b = some j → m.heap b = some j ∧ j ≠ k := by
    intro b j h
    have hb : b ≠ a := by
      intro heq
      subst heq
      rw [hgone] at h
      cases h
    rw [hne b hb] at h
    refine ⟨h, ?_⟩
    intro heq
    subst heq
    exact hb (hi.inj b a j h ha)
  have hold : ∀ {b j}, m.heap b = some j → j ≠ k → m'.heap b = some j := by
    intro b j h hjk
    have hb : b ≠ a := by
      intro heq
      subst heq
      exact hjk (Option.some.inj (h.symm.trans ha))
    rw [hne b hb, h]
  refine
    { defined := hub.trans hi.defined, bounded := ?_, inj := ?_, own := ?_, lock := ?_, past := ?_
      arg := ?_, holder := ?_, place := ?_ }
  · intro b j h
    rw [hnext]
    exact hi.bounded b j (hheap h).1
  · exact fun b c j h h' => hi.inj b c j (hheap h).1 (hheap h').1
  · refine (Function.forall_update_iff pts fun t' p => ∀ b, p.owns = some b → ∃ j,
      m'.heap b = some j ∧ m'.sections j = p.record t').mpr ⟨fun b h => (by cases h), ?_⟩
    intro t' ht b h
    obtain ⟨j, hj, hrecj⟩ := hi.own t' b h
    have hjk := hi.ne_of_owners hown ha h hj ht
    exact ⟨j, hold hj hjk, (hother j hjk).trans hrecj⟩
  · intro b hl
    rw [hlock] at hl
    obtain ⟨j, hj, huse⟩ := hi.lock b hl
    -- the section given back is private, so it is not the one in the mutex
    have hjk := hi.ne_of_lock hown ha hl hj
    exact ⟨j, hold hj hjk, by rw [hother j hjk]; exact huse⟩
  · rw [hlock]
    exact hi.past_moved fun _ => hset
  · rw [hlock]
    exact hi.arg_moved fun q h => (by cases h)
  · intro b j hl hj
    rw [hlock] at hl
    obtain ⟨hj, hjk⟩ := hheap hj
    rw [hother j hjk]
    refine (Function.forall_update_iff pts fun t' p =>
      (m.sections j).owner = some t' ↔ p.between = true).mpr ⟨?_, fun t' _ => ?_⟩
    · rw [hi.holder b j hl hj t, hp]; rfl
    · exact hi.holder b j hl hj t'
  · intro j hj
    rw [hlock]
    by_cases hjk : j = k
    · exact Or.inr (Or.inr ⟨t, hjk ▸ hself⟩)
    · rcases hi.place j (hnext ▸ hj) with ⟨t', b, h, hjb⟩ | ⟨b, hb, hjb⟩ | ⟨t', h⟩
      · have ht := ne_of_sections hown ha h hjb hjk
        exact Or.inl ⟨t', b, by rw [Function.update_of_ne ht]; exact h, hold hjb hjk⟩
      · exact Or.inr (Or.inl ⟨b, hb, hold hjb hjk⟩)
      · exact Or.inr (Or.inr ⟨t', (hother j hjk).trans h⟩)

/-- **Every move keeps the invariant.** -/
theorem inv_move {m' : Memory Tid} (hi : Inv m pts) (h : Move t m (pts t) m' p') :
    Inv m' (Function.update pts t p') := by
  generalize hp : pts t = p at h
  have hown : (pts t).owns = p.owns := by rw [hp]
  have hb : (pts t).between = p.between := by rw [hp]
  have hrec : (pts t).record t = p.record t := by rw [hp]
  have hpast := hi.past t
  rw [hp] at hpast
  cases h with
  | begin | readNull | noMemory => exact inv_quiet hi hown rfl (by rw [hb]; rfl) nofun nofun
  | unlocked => exact inv_quiet hi hown rfl (by rw [hb]; rfl) nofun nofun
  | readSet hset => exact inv_quiet hi hown rfl (by rw [hb]; rfl) (fun _ => hset) nofun
  | locked | unlockDirect | unlockCheck | check =>
      exact inv_quiet hi hown rfl (by rw [hb]; rfl) (fun _ => hpast rfl) nofun
  | reread | unread =>
      exact inv_quiet hi hown rfl (by rw [hb]; rfl) (fun _ => hpast rfl)
        (fun q hq => (Option.some.inj hq).symm)
  | malloc hfree => exact inv_allocated hi hfree hp
  | @init a =>
      obtain ⟨k, ha, hk⟩ := hi.own t a hown
      rw [editAt_eq ha (by rw [hk, hrec]; rfl)]
      exact inv_own hi hown ha rfl (by rw [hrec]; rfl) (by rw [hb]; rfl) nofun rfl
  | win hnull => exact inv_won hi hp hnull
  | @lose a hset =>
      obtain ⟨k, ha, hk⟩ := hi.own t a hown
      rw [Memory.lostAt, editAt_eq ha rfl]
      exact inv_own hi hown ha rfl (by rw [hrec]; rfl) (by rw [hb]; rfl) (fun _ => hset) rfl
  | @delete a =>
      obtain ⟨k, ha, hk⟩ := hi.own t a hown
      rw [editAt_eq ha (by rw [hk, hrec]; rfl)]
      exact inv_own hi hown ha rfl (by rw [hrec]; rfl) (by rw [hb]; rfl) (fun _ => hpast rfl) rfl
  | free => exact inv_released hi hp
  | @enter m' q hans =>
      obtain rfl := hi.arg t q (by rw [hp]; rfl)
      obtain ⟨a, hl⟩ := Option.ne_none_iff_exists'.mp (hpast rfl)
      obtain ⟨k, ha, huse⟩ := hi.lock a hl
      have hheld := hi.holder a k hl ha t
      rw [hl] at hans
      -- the section is ready, so entering it is defined
      simp only [Memory.Answers, Memory.Enters, ha, huse.ready, if_true] at hans
      obtain ⟨howner, rfl⟩ := hans
      -- the thread does not own the section already, so it waited until nobody did
      have hfree : (m.sections k).owner = none := by
        rcases howner with h | h
        · exact h
        · rw [hheld, hb] at h; cases h
      refine inv_published hi hl ha hown rfl ?_ (by simp [Point.between]) ?_ rfl
      · exact ⟨huse.published, huse.lost, huse.ready, huse.deleted, huse.freed,
          by simp [huse.count, hfree]⟩
      · intro t' ht
        simp [hfree, Ne.symm ht]
  | @leave m' q hans =>
      obtain rfl := hi.arg t q (by rw [hp]; rfl)
      obtain ⟨a, hl⟩ := Option.ne_none_iff_exists'.mp (hpast rfl)
      obtain ⟨k, ha, huse⟩ := hi.lock a hl
      -- the thread that leaves is between lock and unlock, so it is the owner
      have howner : (m.sections k).owner = some t := (hi.holder a k hl ha t).mpr hb
      rw [hl] at hans
      have hok : ((m.sections k).ready && decide ((m.sections k).owner = some t)) = true := by
        rw [huse.ready, howner, decide_eq_true rfl]; rfl
      have hcount : (m.sections k).count = 1 := by simp [huse.count, howner]
      simp only [Memory.Answers] at hans
      rw [editAt_eq ha hok] at hans
      subst hans
      refine inv_published hi hl ha hown rfl ?_ (by simp [hcount, Point.between]) ?_ rfl
      · exact ⟨huse.published, huse.lost, huse.ready, huse.deleted, huse.freed, by simp [hcount]⟩
      · intro t' ht
        simp [hcount, howner, Ne.symm ht]

end Preservation

end LibrePortable.Sync
