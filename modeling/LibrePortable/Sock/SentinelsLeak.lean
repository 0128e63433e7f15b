import Mathlib.Data.Finset.Card
import Mathlib.Data.Nat.Find
import LibrePortable.Sock.Sentinels

/-!
# What the sentinels leave behind

The comment above the recursion promises to leak the descriptors that conflict with one
of the two values. Every level decides for itself whether to close what it opened, and
the level that gets past both values returns before it decides. What it opened stays
open, unless the table was full before any level got that far.
-/

namespace LibrePortable.Sock

open Lib

variable {sv : Int × Int} {T T' : Table}

/-- The two values that are valid descriptor numbers are in use afterwards, and besides
them what was in use before. -/
def LeaksOnlyConflicts (sv : Int × Int) (T T' : Table) : Prop :=
  T'.limit = T.limit ∧
    ∀ m, T'.used m = true ↔ T.used m = true ∨ m < T.limit ∧ ((m : Int) = sv.1 ∨ (m : Int) = sv.2)

/-- No descriptor past both values is free. -/
def NoneFreePast (sv : Int × Int) (T : Table) : Prop :=
  ∀ n < T.limit, (n : Int) > sv.1 → (n : Int) > sv.2 → T.used n = true

/-- `n` is the lowest free descriptor past both values. -/
def LowestPast (sv : Int × Int) (T : Table) (n : Nat) : Prop :=
  n < T.limit ∧ T.used n = false ∧ (n : Int) > sv.1 ∧ (n : Int) > sv.2 ∧
    ∀ m < n, (m : Int) > sv.1 → (m : Int) > sv.2 → T.used m = true

/-! ## What stays open -/

section Recursion

variable {fuel m n : Nat}

/-- Where everything below `n` is in use, `n` itself is free and it is past both values,
it is the lowest such descriptor. -/
theorem lowestPast_iff_eq (hlt : n < T.limit) (hfree : T.used n = false)
    (hbelow : ∀ m < n, T.used m = true) (hpast : (n : Int) > sv.1 ∧ (n : Int) > sv.2) :
    LowestPast sv T m ↔ m = n := by
  constructor
  · intro hboth
    obtain ⟨-, hm, -, -, hleast⟩ := hboth
    rcases Nat.lt_trichotomy m n with h | h | h
    · exact absurd (hbelow m h) (by rw [hm]; exact Bool.false_ne_true)
    · exact h
    · exact absurd (hleast n h hpast.1 hpast.2) (by rw [hfree]; exact Bool.false_ne_true)
  · intro heq
    subst heq
    exact ⟨hlt, hfree, hpast.1, hpast.2, fun j hj _ _ => hbelow j hj⟩

/-- Taking a descriptor that is not past both values does not move the lowest one. -/
theorem lowestPast_mark (hpast : ¬ ((n : Int) > sv.1 ∧ (n : Int) > sv.2)) :
    LowestPast sv (T.mark n true) m ↔ LowestPast sv T m := by
  -- nothing that is past both values is `n`
  have hne : ∀ j : Nat, (j : Int) > sv.1 → (j : Int) > sv.2 → j ≠ n := by
    intro j h₁ h₂ heq
    subst heq
    exact hpast ⟨h₁, h₂⟩
  have hused : ∀ j : Nat, (j : Int) > sv.1 → (j : Int) > sv.2 →
      (T.mark n true).used j = T.used j := by
    intro j h₁ h₂
    rw [mark_used, if_neg (hne j h₁ h₂)]
  constructor
  · intro h
    obtain ⟨hlt, hfree, h₁, h₂, hleast⟩ := h
    exact ⟨hlt, (hused m h₁ h₂).symm.trans hfree, h₁, h₂, fun j hj hj₁ hj₂ =>
      (hused j hj₁ hj₂).symm.trans (hleast j hj hj₁ hj₂)⟩
  · intro h
    obtain ⟨hlt, hfree, h₁, h₂, hleast⟩ := h
    exact ⟨hlt, (hused m h₁ h₂).trans hfree, h₁, h₂, fun j hj hj₁ hj₂ =>
      (hused j hj₁ hj₂).trans (hleast j hj hj₁ hj₂)⟩

/-- **The descriptors in use afterwards**: those before, the two values, and the lowest
free descriptor past both. -/
theorem sentinels_used : ∀ {fuel : Nat} {T T' : Table},
    createIssue1069Sentinels sv fuel T = some T' → ∀ m, T'.used m = true ↔
      T.used m = true ∨ (m < T.limit ∧ ((m : Int) = sv.1 ∨ (m : Int) = sv.2))
        ∨ LowestPast sv T m := by
  intro fuel
  induction fuel with
  | zero => intro T T' h; exact absurd h (by simp [createIssue1069Sentinels])
  | succ fuel ih =>
      intro T T' h m
      rcases sentinels_succ sv fuel T with ⟨hfull, h'⟩ | ⟨n, hlt, hfree, hbelow, h'⟩
      · -- the table is full, so nothing was opened and nothing past the values is free
        obtain rfl := Option.some.inj (h.symm.trans h')
        refine ⟨Or.inl, ?_⟩
        intro hcase
        rcases hcase with hm | ⟨hm, -⟩ | ⟨hm, -⟩
        · exact hm
        · exact hfull m hm
        · exact hfull m hm
      · split at h'
        · -- past both values: `n` is the lowest such and stays open
          rename_i hpast
          obtain rfl := Option.some.inj (h.symm.trans h')
          rw [mark_used, lowestPast_iff_eq hlt hfree hbelow hpast]
          constructor
          · intro hm
            split at hm
            · exact Or.inr (Or.inr ‹_›)
            · exact Or.inl hm
          · intro hcase
            rcases hcase with hm | ⟨-, hm⟩ | hm
            · rw [hm]; split <;> rfl
            · have hmn : m < n := by omega
              rw [if_neg (Nat.ne_of_lt hmn)]
              exact hbelow m hmn
            · exact if_pos hm
        · -- the levels below see `n` in use; this one closes it unless it conflicts
          rename_i hpast
          rw [h] at h'
          obtain ⟨T₂, hT₂, hT'⟩ := Option.map_eq_some_iff.mp h'.symm
          have hused := ih hT₂ m
          rw [mark_used, mark_limit, lowestPast_mark hpast] at hused
          by_cases hmn : m = n
          · subst hmn
            have hnp : ¬ LowestPast sv T m := fun hl => hpast ⟨hl.2.2.1, hl.2.2.2.1⟩
            split at hT'
            · -- no conflict, so it is closed again
              rename_i hne
              subst hT'
              rw [crtClose_natCast, mark_used, if_pos rfl, hfree]
              have hnc : ¬ ((m : Int) = sv.1 ∨ (m : Int) = sv.2) := not_or.mpr hne
              simp only [Bool.false_eq_true, false_or, false_iff, not_or]
              exact ⟨fun hc => hnc hc.2, hnp⟩
            · rename_i hc
              subst hT'
              rw [hused, if_pos rfl, hfree]
              have hconf : (m : Int) = sv.1 ∨ (m : Int) = sv.2 := by
                by_contra hnc
                exact hc (not_or.mp hnc)
              exact ⟨fun _ => Or.inr (Or.inl ⟨hlt, hconf⟩), fun _ => Or.inl rfl⟩
          · rw [if_neg hmn] at hused
            split at hT'
            · subst hT'
              rw [crtClose_natCast, mark_used, if_neg hmn]
              exact hused
            · subst hT'
              exact hused

end Recursion

/-- There is a lowest free descriptor past both values, unless none is free. -/
theorem exists_lowestPast (h : ¬ NoneFreePast sv T) : ∃ n, LowestPast sv T n := by
  have hex : ∃ n, n < T.limit ∧ T.used n = false ∧ (n : Int) > sv.1 ∧ (n : Int) > sv.2 := by
    by_contra hno
    refine h fun n hn h₁ h₂ => ?_
    by_contra hfree
    exact hno ⟨n, hn, Bool.eq_false_iff.mpr hfree, h₁, h₂⟩
  classical
  obtain ⟨hlt, hfree, h₁, h₂⟩ := Nat.find_spec hex
  refine ⟨Nat.find hex, hlt, hfree, h₁, h₂, fun m hm hm₁ hm₂ => ?_⟩
  by_contra hused
  exact Nat.find_min hex hm ⟨by omega, Bool.eq_false_iff.mpr hused, hm₁, hm₂⟩

/-- **Only the conflicting descriptors stay open exactly where none past both values is
free**. -/
theorem leaksOnlyConflicts_iff {fuel : Nat} (h : createIssue1069Sentinels sv fuel T = some T') :
    LeaksOnlyConflicts sv T T' ↔ NoneFreePast sv T := by
  have hused := sentinels_used h
  constructor
  · -- the lowest free one past the values would be open afterwards, and conflicts with neither
    intro hboth
    obtain ⟨-, hleaks⟩ := hboth
    by_contra hpast
    obtain ⟨n, hn⟩ := exists_lowestPast hpast
    rcases (hleaks n).mp ((hused n).mpr (Or.inr (Or.inr hn))) with hu | ⟨-, hc⟩
    · rw [hn.2.1] at hu
      cases hu
    · have := hn.2.2.1
      have := hn.2.2.2.1
      omega
  · intro hnone
    refine ⟨(sentinels_hold h).1, fun m => (hused m).trans ?_⟩
    have hno : ¬ LowestPast sv T m := by
      intro hboth
      obtain ⟨hlt, hfree, h₁, h₂, -⟩ := hboth
      rw [hnone m hlt h₁ h₂] at hfree
      cases hfree
    rw [or_iff_left hno]

/-! ## Many pairs -/

/-- A process that makes pairs, opens descriptors and closes its own again. -/
structure Pairing where
  table : Table
  mine : List Nat
  pairs : Nat

inductive PairingLabel where
  | pair (socketVector : Int × Int)
  | opened (n : Nat)
  | full
  | closed (n : Nat)

/-- The steps of such a process; a pair may only be made where `ok` allows it. -/
inductive PairingStep (ok : Int × Int → Table → Prop) :
    Pairing → PairingLabel → Pairing → Prop where
  | pair {s : Pairing} {sv : Int × Int} {fuel : Nat} {T : Table} : ok sv s.table →
      createIssue1069Sentinels sv fuel s.table = some T →
      PairingStep ok s (.pair sv) ⟨T, s.mine, s.pairs + 1⟩
  | opened {s : Pairing} {n : Nat} {T : Table} : s.table.crtOpen = ((n : Int), T) →
      PairingStep ok s (.opened n) ⟨T, n :: s.mine, s.pairs⟩
  | full {s : Pairing} {T : Table} : s.table.crtOpen = (-1, T) →
      PairingStep ok s .full ⟨T, s.mine, s.pairs⟩
  | closed {s : Pairing} {n : Nat} : n ∈ s.mine →
      PairingStep ok s (.closed n) ⟨s.table.crtClose n, s.mine.filter (· ≠ n), s.pairs⟩

/-- Every sequence of these, begun in table `T`. -/
def pairing (ok : Int × Int → Table → Prop) (T : Table) : Lts Pairing PairingLabel where
  Init s := s = ⟨T, [], 0⟩
  Step := PairingStep ok

/-- The descriptors in use that were not in use in `T` and are not the process's own. -/
def Pairing.extra (T : Table) (s : Pairing) : Finset Nat :=
  (Finset.range s.table.limit).filter fun n =>
    s.table.used n = true ∧ T.used n = false ∧ n ∉ s.mine

theorem mem_extra {s : Pairing} {n : Nat} : n ∈ s.extra T ↔
    n < s.table.limit ∧ s.table.used n = true ∧ T.used n = false ∧ n ∉ s.mine := by
  rw [Pairing.extra, Finset.mem_filter, Finset.mem_range]

/-- `_open` takes one descriptor into use at most, the one it returns. -/
theorem used_crtOpen {T T' : Table} {fd : Int} {m : Nat} (h : T.crtOpen = (fd, T'))
    (hm : T'.used m = true) : T.used m = true ∨ (m : Int) = fd := by
  rcases crtOpen_cases T with ⟨hc, -⟩ | ⟨n, hc, -⟩
  · obtain ⟨-, rfl⟩ := Prod.mk.inj (h.symm.trans hc)
    exact Or.inl hm
  · obtain ⟨rfl, rfl⟩ := Prod.mk.inj (h.symm.trans hc)
    rw [mark_used] at hm
    split at hm
    · rename_i hmn; exact Or.inr (congrArg Int.ofNat hmn)
    · exact Or.inl hm

theorem crtOpen_limit {T T' : Table} {fd : Int} (h : T.crtOpen = (fd, T')) :
    T'.limit = T.limit := by
  rcases crtOpen_cases T with ⟨hc, -⟩ | ⟨n, hc, -⟩
  · rw [(Prod.mk.inj (h.symm.trans hc)).2]
  · rw [(Prod.mk.inj (h.symm.trans hc)).2]; rfl

/-- **One step**: a pair that leaks only conflicts adds at most its two values, anything
else adds nothing. -/
theorem extra_step {s s' : Pairing} {l : PairingLabel} (h : PairingStep NoneFreePast s l s')
    (hs : (s.extra T).card ≤ 2 * s.pairs) : (s'.extra T).card ≤ 2 * s'.pairs := by
  cases h with
  | @pair sv fuel T₂ hpast hT₂ =>
      obtain ⟨hlimit, hused⟩ := (leaksOnlyConflicts_iff hT₂).mpr hpast
      have hsub : Pairing.extra T ⟨T₂, s.mine, s.pairs + 1⟩
          ⊆ insert sv.1.toNat (insert sv.2.toNat (s.extra T)) := by
        intro m hm
        obtain ⟨hlt, hu, hfree, hmine⟩ := mem_extra.mp hm
        rw [Finset.mem_insert, Finset.mem_insert]
        rcases (hused m).mp hu with hu | ⟨-, h₁ | h₂⟩
        · exact Or.inr (Or.inr (mem_extra.mpr ⟨by rw [← hlimit]; exact hlt, hu, hfree, hmine⟩))
        · exact Or.inl (by omega)
        · exact Or.inr (Or.inl (by omega))
      have hcard := Finset.card_le_card hsub
      have h₁ := Finset.card_insert_le sv.1.toNat (insert sv.2.toNat (s.extra T))
      have h₂ := Finset.card_insert_le sv.2.toNat (s.extra T)
      show (Pairing.extra T ⟨T₂, s.mine, s.pairs + 1⟩).card ≤ 2 * (s.pairs + 1)
      omega
  | @opened n T₂ hopen =>
      refine Nat.le_trans (Finset.card_le_card fun m hm => ?_) hs
      obtain ⟨hlt, hu, hfree, hmine⟩ := mem_extra.mp hm
      obtain ⟨hmn, hmine⟩ := not_or.mp (mt List.mem_cons.mpr hmine)
      rcases used_crtOpen hopen hu with hu | hmn'
      · exact mem_extra.mpr ⟨by rw [← crtOpen_limit hopen]; exact hlt, hu, hfree, hmine⟩
      · exact absurd (Int.ofNat_inj.mp hmn') hmn
  | @full T₂ hopen =>
      refine Nat.le_trans (Finset.card_le_card fun m hm => ?_) hs
      obtain ⟨hlt, hu, hfree, hmine⟩ := mem_extra.mp hm
      rcases used_crtOpen hopen hu with hu | hmn'
      · exact mem_extra.mpr ⟨by rw [← crtOpen_limit hopen]; exact hlt, hu, hfree, hmine⟩
      · omega
  | @closed n hn =>
      refine Nat.le_trans (Finset.card_le_card fun m hm => ?_) hs
      obtain ⟨hlt, hu, hfree, hmine⟩ := mem_extra.mp hm
      dsimp only at hlt hu hmine
      rw [crtClose_natCast, mark_used] at hu
      rw [crtClose_natCast] at hlt
      split at hu
      · cases hu
      · rename_i hmn
        refine mem_extra.mpr ⟨hlt, hu, hfree, fun hm => hmine ?_⟩
        exact List.mem_filter.mpr ⟨hm, decide_eq_true hmn⟩

theorem extra_le {s : Pairing} (h : (pairing NoneFreePast T).Reachable s) :
    (s.extra T).card ≤ 2 * s.pairs := by
  refine h.invariant (I := fun s => (s.extra T).card ≤ 2 * s.pairs) ?_
    (fun _ _ _ _ hi hstep => extra_step hstep hi)
  intro _ heq
  subst heq
  have hempty : Pairing.extra T ⟨T, [], 0⟩ = ∅ := by
    refine Finset.eq_empty_of_forall_notMem fun m hm => ?_
    obtain ⟨-, hu, hfree, -⟩ := mem_extra.mp hm
    rw [hu] at hfree
    cases hfree
  rw [hempty]
  exact Nat.zero_le _

/--
**What the sentinels leak.**

The recursion returns on every table, and only the conflicting descriptors are left open
exactly where no descriptor past both values was free. A process whose pairs are all made
where none is free keeps two descriptors a pair at most, whatever it opens and closes in
between.
-/
theorem sentinels_leak (T : Table) :
    (∀ sv : Int × Int, ∃ T',
      (∀ fuel, T.limit < fuel → createIssue1069Sentinels sv fuel T = some T')
        ∧ (LeaksOnlyConflicts sv T T' ↔ NoneFreePast sv T))
    ∧ ∀ s : Pairing, (pairing NoneFreePast T).Reachable s →
        (s.extra T).card ≤ 2 * s.pairs := by
  refine ⟨fun sv => ?_, fun s h => extra_le h⟩
  obtain ⟨T', hT', -⟩ := sentinels_guard sv T
  exact ⟨T', hT', leaksOnlyConflicts_iff (hT' _ (Nat.lt_succ_self _))⟩

/-- Eight descriptors, the three standard ones in use. -/
def eight : Table := ⟨8, fun n => decide (n < 3)⟩

/-- **A descriptor too many**: the sockets 4 and 5 leave 6 open as well, and a process with
this one pair keeps three. -/
theorem sentinels_three :
    (∃ T', createIssue1069Sentinels (4, 5) 9 eight = some T' ∧ T'.used 6 = true
      ∧ ¬ LeaksOnlyConflicts (4, 5) eight T')
    ∧ ∃ s, (pairing (fun _ _ => True) eight).Reachable s ∧ s.pairs = 1
        ∧ (s.extra eight).card = 3 := by
  obtain ⟨T', hT'⟩ := Option.isSome_iff_exists.mp
    (by decide : (createIssue1069Sentinels (4, 5) 9 eight).isSome = true)
  have hobs : (createIssue1069Sentinels (4, 5) 9 eight).map
      (fun T' => (T'.used 6, Pairing.extra eight ⟨T', [], 1⟩)) = some (true, {4, 5, 6}) := by decide
  rw [hT', Option.map_some] at hobs
  obtain ⟨h6, hextra⟩ := Prod.mk.inj (Option.some.inj hobs)
  refine ⟨⟨T', hT', h6, fun hleaks => ?_⟩, ⟨T', [], 1⟩, ?_, rfl, by rw [hextra]; decide⟩
  · have := (hleaks.2 6).mp h6
    revert this
    decide
  · have hinit : (pairing (fun _ _ => True) eight).Reachable ⟨eight, [], 0⟩ := .init rfl
    exact hinit.tail (PairingStep.pair trivial hT')

end LibrePortable.Sock
