import LibrePortable.Lib.Transition

/-!
# Sentinels

A socket handle and a runtime descriptor may be the same number, so after making a pair
of sockets the emulation opens descriptors until it is past both handles, and then
closes again all but those that have the number of a handle. As long as these stay
open the runtime cannot hand the number out.
-/

namespace LibrePortable.Sock

open Lib

/-- The runtime's descriptor table. -/
structure Table where
  limit : Nat
  used : Nat → Bool

namespace Table

/-- The lowest descriptor that is free. -/
def lowestFree (T : Table) : Option Nat := (List.range T.limit).find? fun n => !T.used n

/-- Mark a descriptor as used or free. -/
def mark (T : Table) (n : Nat) (b : Bool) : Table :=
  { T with used := fun m => if m = n then b else T.used m }

/-- `_open`: the lowest free descriptor, or -1. -/
def crtOpen (T : Table) : Int × Table :=
  match T.lowestFree with
  | none => (-1, T)
  | some n => (n, T.mark n true)

/-- `_close`. -/
def crtClose (T : Table) (fd : Int) : Table := if 0 ≤ fd then T.mark fd.toNat false else T

end Table

/-- `create_issue_1069_sentinels`, on a table; `none` when the fuel runs out. -/
def createIssue1069Sentinels (socketVector : Int × Int) : Nat → Table → Option Table
  | 0, _ => none
  | fuel + 1, T =>
      let (fd, T) := T.crtOpen
      if fd = -1 ∨ (fd > socketVector.1 ∧ fd > socketVector.2) then some T
      else
        (createIssue1069Sentinels socketVector fuel T).map fun T =>
          if fd ≠ socketVector.1 ∧ fd ≠ socketVector.2 then T.crtClose fd else T

/-! ## The table -/

section Table

variable {T : Table} {m n : Nat}

theorem mark_used (T : Table) (n m : Nat) (b : Bool) :
    (T.mark n b).used m = if m = n then b else T.used m := rfl

@[simp] theorem mark_limit (T : Table) (n : Nat) (b : Bool) : (T.mark n b).limit = T.limit := rfl

theorem lowestFree_some (h : T.lowestFree = some n) :
    n < T.limit ∧ T.used n = false ∧ ∀ m < n, T.used m = true := by
  obtain ⟨hfree, hlt, hbelow⟩ := List.find?_range_eq_some.mp h
  refine ⟨List.mem_range.mp hlt, by simpa using hfree, fun m hm => ?_⟩
  simpa using hbelow m hm

theorem lowestFree_none (h : T.lowestFree = none) (hm : m < T.limit) : T.used m = true := by
  have := List.find?_eq_none.mp h m (List.mem_range.mpr hm)
  simpa using this

/-- **The two outcomes of `_open`.** -/
theorem crtOpen_cases (T : Table) :
    (T.crtOpen = (-1, T) ∧ ∀ m < T.limit, T.used m = true)
      ∨ ∃ n : Nat, T.crtOpen = ((n : Int), T.mark n true) ∧ n < T.limit ∧ T.used n = false
        ∧ ∀ m < n, T.used m = true := by
  cases h : T.lowestFree with
  | none => exact Or.inl ⟨by rw [Table.crtOpen, h], fun m hm => lowestFree_none h hm⟩
  | some n => exact Or.inr ⟨n, by rw [Table.crtOpen, h], lowestFree_some h⟩

theorem crtClose_natCast (T : Table) (n : Nat) : T.crtClose (n : Int) = T.mark n false := by
  rw [Table.crtClose, if_pos (Int.natCast_nonneg n), Int.toNat_natCast]

end Table

/-! ## The recursion -/

section Recursion

variable {sv : Int × Int} {T T' : Table} {fuel : Nat}

/-- Everything a call can do: stop at a full table, stop past both values, or go on and
close the descriptor again if it has neither value. -/
theorem sentinels_succ (sv : Int × Int) (fuel : Nat) (T : Table) :
    ((∀ m < T.limit, T.used m = true) ∧ createIssue1069Sentinels sv (fuel + 1) T = some T)
      ∨ ∃ n : Nat, n < T.limit ∧ T.used n = false ∧ (∀ m < n, T.used m = true) ∧
        if (n : Int) > sv.1 ∧ (n : Int) > sv.2 then
          createIssue1069Sentinels sv (fuel + 1) T = some (T.mark n true)
        else createIssue1069Sentinels sv (fuel + 1) T =
          (createIssue1069Sentinels sv fuel (T.mark n true)).map fun T' =>
            if (n : Int) ≠ sv.1 ∧ (n : Int) ≠ sv.2 then T'.crtClose n else T' := by
  rcases crtOpen_cases T with ⟨hopen, hfull⟩ | ⟨n, hopen, hlt, hfree, hbelow⟩
  · left
    refine ⟨hfull, ?_⟩
    rw [createIssue1069Sentinels, hopen]
    exact if_pos (Or.inl rfl)
  · right
    refine ⟨n, hlt, hfree, hbelow, ?_⟩
    have hne : ¬ (n : Int) = -1 := by omega
    rw [createIssue1069Sentinels, hopen]
    dsimp only
    split
    · rename_i h; exact if_pos (Or.inr h)
    · rename_i h; exact if_neg (not_or.mpr ⟨hne, h⟩)

/-- **The recursion ends**, with more fuel than there are numbers above the ones in use. -/
theorem sentinels_terminate : ∀ {fuel k : Nat} {T : Table}, (∀ m < k, T.used m = true) →
    T.limit - k < fuel → ∃ T', createIssue1069Sentinels sv fuel T = some T' := by
  intro fuel
  induction fuel with
  | zero => intro k T _ h; exact absurd h (Nat.not_lt_zero _)
  | succ fuel ih =>
      intro k T hk hfuel
      rcases sentinels_succ sv fuel T with ⟨-, h⟩ | ⟨n, hlt, hfree, hbelow, h⟩
      · exact ⟨T, h⟩
      · split at h
        · exact ⟨_, h⟩
        · -- the descriptor just opened was free, so it lies above those in use
          have hkn : k ≤ n := Nat.le_of_not_lt fun hc => by
            rw [hk n hc] at hfree
            cases hfree
          obtain ⟨T', hT'⟩ := @ih (n + 1) (T.mark n true) (by
            intro m hm
            rw [mark_used]
            split
            · rfl
            · exact hbelow m (by omega)) (by rw [mark_limit]; omega)
          rw [hT'] at h
          exact ⟨_, h⟩

/-- Fuel left over changes nothing. -/
theorem sentinels_mono : ∀ {fuel fuel' : Nat} {T T' : Table}, fuel ≤ fuel' →
    createIssue1069Sentinels sv fuel T = some T' →
      createIssue1069Sentinels sv fuel' T = some T' := by
  intro fuel
  induction fuel with
  | zero => intro fuel' T T' _ h; exact absurd h (by simp [createIssue1069Sentinels])
  | succ fuel ih =>
      intro fuel' T T' hle h
      obtain ⟨fuel', rfl⟩ : ∃ m, fuel' = m + 1 := ⟨fuel' - 1, by omega⟩
      unfold createIssue1069Sentinels at h ⊢
      dsimp only at h ⊢
      split at h
      · rename_i hstop; rw [if_pos hstop]; exact h
      · rename_i hstop
        obtain ⟨T₂, hT₂, rfl⟩ := Option.map_eq_some_iff.mp h
        rw [if_neg hstop, ih (by omega) hT₂]
        rfl

/-- The descriptor with the number `v`, if the table has one, is in use. -/
def Table.Holds (T : Table) (v : Int) : Prop :=
  ∀ n : Nat, (n : Int) = v → n < T.limit → T.used n = true

/-- **Both values are in use afterwards**, wherever they lie. -/
theorem sentinels_hold : ∀ {fuel : Nat} {T T' : Table},
    createIssue1069Sentinels sv fuel T = some T' →
      T'.limit = T.limit ∧ T'.Holds sv.1 ∧ T'.Holds sv.2 := by
  intro fuel
  induction fuel with
  | zero => intro T T' h; exact absurd h (by simp [createIssue1069Sentinels])
  | succ fuel ih =>
      intro T T' h
      rcases sentinels_succ sv fuel T with ⟨hfull, h'⟩ | ⟨n, hlt, -, hbelow, h'⟩
      · -- the table is full
        obtain rfl := Option.some.inj (h.symm.trans h')
        exact ⟨rfl, fun m _ hm => hfull m hm, fun m _ hm => hfull m hm⟩
      · split at h'
        · -- everything below `n` is in use, and both values are below
          rename_i hpast
          obtain rfl := Option.some.inj (h.symm.trans h')
          have hheld : ∀ m : Nat, (m : Int) < n → (T.mark n true).used m = true := by
            intro m hm
            rw [mark_used]
            split
            · rfl
            · exact hbelow m (by omega)
          exact ⟨rfl, fun m hm _ => hheld m (by omega), fun m hm _ => hheld m (by omega)⟩
        · rw [h] at h'
          obtain ⟨T₂, hT₂, rfl⟩ := Option.map_eq_some_iff.mp h'.symm
          obtain ⟨hlim, h₁, h₂⟩ := ih hT₂
          split
          · -- closing `n` gives up neither value
            rename_i hne
            rw [crtClose_natCast]
            have hkeep : ∀ v : Int, (n : Int) ≠ v → T₂.Holds v → (T₂.mark n false).Holds v := by
              intro v hv hold m hm hml
              have hmn : m ≠ n := by rintro rfl; exact hv hm
              rw [mark_used, if_neg hmn]
              exact hold m hm hml
            exact ⟨hlim, hkeep _ hne.1 h₁, hkeep _ hne.2 h₂⟩
          · exact ⟨hlim, h₁, h₂⟩

end Recursion

/-! ## What happens later -/

/-- A program that opens descriptors and closes some of them again. -/
structure Opens where
  table : Table
  mine : List Nat

/-- What can be seen of a step. -/
inductive OpensLabel where
  | opened (n : Nat)
  | full
  | closed (n : Nat)

/-- `_open`, or `_close` on a descriptor that an `_open` returned. -/
inductive OpensStep : Opens → OpensLabel → Opens → Prop where
  | opened {s : Opens} {n : Nat} {T : Table} : s.table.crtOpen = ((n : Int), T) →
      OpensStep s (.opened n) ⟨T, n :: s.mine⟩
  | full {s : Opens} {T : Table} : s.table.crtOpen = (-1, T) → OpensStep s .full ⟨T, s.mine⟩
  | closed {s : Opens} {n : Nat} : n ∈ s.mine →
      OpensStep s (.closed n) ⟨s.table.crtClose n, s.mine.filter (· ≠ n)⟩

/-- Every sequence of these, begun in table `T` with no descriptor of its own. -/
def later (T : Table) : Lts Opens OpensLabel where
  Init s := s = ⟨T, []⟩
  Step := OpensStep

/-- A value is out of reach: it is in use, and not by this program. -/
def Opens.OutOfReach (v : Int) (s : Opens) : Prop := s.table.Holds v ∧ ∀ n ∈ s.mine, (n : Int) ≠ v

/-- No `_open` returns a value that is out of reach. -/
theorem opened_ne {s s' : Opens} {v : Int} {n : Nat} (hv : s.OutOfReach v)
    (h : OpensStep s (.opened n) s') : (n : Int) ≠ v := by
  cases h with
  | opened hopen =>
      intro hnv
      rcases crtOpen_cases s.table with ⟨hc, -⟩ | ⟨m, hc, hlt, hfree, -⟩
      · have := congrArg Prod.fst (hopen.symm.trans hc)
        dsimp only at this
        omega
      · have hm : n = m := by
          have := congrArg Prod.fst (hopen.symm.trans hc)
          dsimp only at this
          omega
        subst hm
        -- what is in use is not handed out
        rw [hv.1 n hnv hlt] at hfree
        cases hfree

theorem outOfReach_step {s s' : Opens} {l : OpensLabel} {v : Int} (hv : s.OutOfReach v)
    (h : OpensStep s l s') : s'.OutOfReach v := by
  have hne := fun n (hl : OpensStep s (.opened n) s') => opened_ne hv hl
  cases h with
  | @opened n T hopen =>
      have hnv := hne n (.opened hopen)
      refine ⟨?_, ?_⟩
      · rcases crtOpen_cases s.table with ⟨hc, -⟩ | ⟨m, hc, -⟩
        · obtain rfl := congrArg Prod.snd (hopen.symm.trans hc)
          exact hv.1
        · obtain rfl := congrArg Prod.snd (hopen.symm.trans hc)
          intro j hj hjl
          show (s.table.mark m true).used j = true
          rw [mark_used]
          split
          · rfl
          · exact hv.1 j hj hjl
      · intro j hj
        rcases List.mem_cons.mp hj with rfl | hj
        · exact hnv
        · exact hv.2 j hj
  | full hopen =>
      rcases crtOpen_cases s.table with ⟨hc, -⟩ | ⟨m, hc, -⟩
      · obtain rfl := congrArg Prod.snd (hopen.symm.trans hc)
        exact hv
      · have := congrArg Prod.fst (hopen.symm.trans hc)
        dsimp only at this
        omega
  | @closed n hn =>
      refine ⟨?_, fun j hj => hv.2 j (List.mem_filter.mp hj).1⟩
      intro j hj hjl
      -- only descriptors of its own are closed, and the value is none of them
      have hjn : j ≠ n := by
        intro heq
        subst heq
        exact hv.2 j hn hj
      show (s.table.crtClose n).used j = true
      rw [crtClose_natCast, mark_used, if_neg hjn]
      rw [crtClose_natCast] at hjl
      exact hv.1 j hj hjl

/--
**The handles stay out of reach.**

Whatever descriptors are in use, wherever the two handles lie, the recursion returns,
and whatever is opened and closed after it, no `_open` returns the number of a handle.
-/
theorem sentinels_guard (sv : Int × Int) (T : Table) : ∃ T',
    (∀ fuel, T.limit < fuel → createIssue1069Sentinels sv fuel T = some T')
      ∧ ∀ s n s', (later T').Reachable s → (later T').Step s (.opened n) s' →
        (n : Int) ≠ sv.1 ∧ (n : Int) ≠ sv.2 := by
  obtain ⟨T', hT'⟩ := @sentinels_terminate sv (T.limit + 1) 0 T
    (fun m hm => absurd hm (Nat.not_lt_zero m)) (by omega)
  obtain ⟨-, h₁, h₂⟩ := sentinels_hold hT'
  refine ⟨T', fun fuel hfuel => sentinels_mono (by omega) hT', fun s n s' hs hstep => ?_⟩
  have hreach : ∀ v, T'.Holds v → s.OutOfReach v := by
    intro v hv
    refine hs.invariant (I := Opens.OutOfReach v) ?_ (fun _ _ _ _ hi h => outOfReach_step hi h)
    intro _ heq
    subst heq
    exact ⟨hv, fun n hn => absurd hn List.not_mem_nil⟩
  exact ⟨opened_ne (hreach _ h₁) hstep, opened_ne (hreach _ h₂) hstep⟩

end LibrePortable.Sock
