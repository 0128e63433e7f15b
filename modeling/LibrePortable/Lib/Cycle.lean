import Mathlib.Data.Int.GCD
import Mathlib.Data.Int.ModEq
import Mathlib.Dynamics.PeriodicPts.Defs
import Mathlib.Tactic.LinearCombination
import Mathlib.Tactic.Ring

/-!
# Moving the contents of an array along cycles

A permutation of positions can be applied to an array in place: follow each cycle from
one of its positions, its leader, and swap what stands there with every position met.
When the walk is back at the leader, the content of each position of the cycle has moved
one step on.
-/

namespace LibrePortable.Lib

open Function

section Walk

variable {ι α : Type} [DecidableEq ι]

/-- Exchange the contents of two positions. -/
def swapAt (a : ι → α) (i j : ι) : ι → α :=
  fun x => if x = i then a j else if x = j then a i else a x

/-- `k` swaps with the leader `c`, at the positions that follow `pos`. -/
def walk (next : ι → ι) (c : ι) : Nat → ι → (ι → α) → ι → α
  | 0, _, a => a
  | k + 1, pos, a => walk next c k (next pos) (swapAt a (next pos) c)

/-- The positions that follow `c` are distinct for `L` steps, and the last step is back at `c`. -/
structure IsCycle (next : ι → ι) (L : Nat) (c : ι) : Prop where
  pos : 0 < L
  inj : ∀ i j, i < L → j < L → next^[i] c = next^[j] c → i = j
  back : IsPeriodicPt next L c

/-- The positions of the cycle that `c` leads. -/
def Orbit (next : ι → ι) (c x : ι) : Prop := ∃ k, x = next^[k] c

variable {next : ι → ι} {L : Nat} {c x : ι} {a : ι → α}

theorem swapAt_self (a : ι → α) (i : ι) : swapAt a i i = a := by
  funext x
  by_cases h : x = i
  · rw [swapAt, if_pos h, h]
  · rw [swapAt, if_neg h, if_neg h]

/-- The last swap of a walk. -/
theorem walk_succ (next : ι → ι) (c : ι) (k : Nat) (pos : ι) (a : ι → α) :
    walk next c (k + 1) pos a = swapAt (walk next c k pos a) (next^[k + 1] pos) c := by
  induction k generalizing pos a with
  | zero => rfl
  | succ k ih => rw [walk, ih, ← walk, iterate_succ_apply next (k + 1) pos]

/-- Inside a walk: the contents met so far have moved on by one, and the leader holds the
content of the position reached. -/
structure Moved (next : ι → ι) (c : ι) (j : Nat) (a b : ι → α) : Prop where
  moved : ∀ k < j, b (next^[k + 1] c) = a (next^[k] c)
  leader : b c = a (next^[j] c)
  others : ∀ x, (∀ k ≤ j, x ≠ next^[k] c) → b x = a x

theorem walk_moved (h : IsCycle next L c) (a : ι → α) :
    ∀ j < L, Moved next c j a (walk next c j c a) := by
  intro j
  induction j with
  | zero => exact fun _ => ⟨fun k hk => absurd hk (Nat.not_lt_zero k), rfl, fun _ _ => rfl⟩
  | succ j ih =>
      intro hj
      have hprev := ih (by omega)
      have hne : ∀ k ≤ j, next^[j + 1] c ≠ next^[k] c := fun k hk he =>
        absurd (h.inj _ _ hj (by omega) he) (by omega)
      have hnec : ¬ c = next^[j + 1] c := fun he => hne 0 (Nat.zero_le j) he.symm
      rw [walk_succ]
      refine ⟨fun k hk => ?_, ?_, fun x hx => ?_⟩
      · rcases Nat.lt_or_ge k j with hlt | hge
        · have hpos : ¬ next^[k + 1] c = next^[j + 1] c := fun he =>
            absurd (h.inj _ _ (by omega) hj he) (by omega)
          have hlead : ¬ next^[k + 1] c = c := fun he =>
            absurd (h.inj (k + 1) 0 (by omega) h.pos he) (by omega)
          rw [swapAt, if_neg hpos, if_neg hlead, hprev.moved k hlt]
        · obtain rfl : k = j := by omega
          rw [swapAt, if_pos rfl, hprev.leader]
      · rw [swapAt, if_neg hnec, if_pos rfl, hprev.others _ hne]
      · have hlead : ¬ x = c := hx 0 (Nat.zero_le _)
        rw [swapAt, if_neg (hx (j + 1) (Nat.le_refl _)), if_neg hlead,
          hprev.others x fun k hk => hx k (by omega)]

omit [DecidableEq ι] in
/-- A position of a cycle is met in less than a whole round. -/
theorem IsCycle.orbit_lt (h : IsCycle next L c) (hx : Orbit next c x) :
    ∃ k < L, x = next^[k] c := by
  obtain ⟨k, rfl⟩ := hx
  exact ⟨k % L, Nat.mod_lt k h.pos, (h.back.iterate_mod_apply k).symm⟩

/-- **A whole round** moves every content of the cycle one step on, and no other. -/
theorem walk_cycle (h : IsCycle next L c) (a : ι → α) :
    (∀ x, Orbit next c x → walk next c L c a (next x) = a x) ∧
      ∀ x, ¬ Orbit next c x → walk next c L c a x = a x := by
  obtain ⟨k, rfl⟩ : ∃ k, L = k + 1 := ⟨L - 1, by have := h.pos; omega⟩
  have hmoved := walk_moved h a k (Nat.lt_succ_self k)
  have hlast : walk next c (k + 1) c a = walk next c k c a := by
    rw [walk_succ, show next^[k + 1] c = c from h.back, swapAt_self]
  rw [hlast]
  refine ⟨fun x hx => ?_, fun x hx => hmoved.others x fun j _ he => hx ⟨j, he⟩⟩
  obtain ⟨j, hj, rfl⟩ := h.orbit_lt hx
  rw [← iterate_succ_apply' next j c]
  rcases Nat.lt_or_ge j k with hlt | hge
  · exact hmoved.moved j hlt
  · obtain rfl : j = k := by omega
    rw [show next^[j + 1] c = c from h.back, hmoved.leader]

/-- The walks from several leaders, one after the other. -/
def walks (next : ι → ι) (L : Nat) : List ι → (ι → α) → ι → α
  | [], a => a
  | c :: cs, a => walks next L cs (walk next c L c a)

omit [DecidableEq ι] in
theorem Orbit.step (hx : Orbit next c x) : Orbit next c (next x) := by
  obtain ⟨k, rfl⟩ := hx
  exact ⟨k + 1, (iterate_succ_apply' next k c).symm⟩

/-- **Walks along disjoint cycles** move every content on them one step on, and no other. -/
theorem walks_spec : ∀ {cs : List ι} (a : ι → α), (∀ c ∈ cs, IsCycle next L c) →
    cs.Pairwise (fun c c' => ∀ x, Orbit next c x → ¬ Orbit next c' x) →
    (∀ c ∈ cs, ∀ x, Orbit next c x → walks next L cs a (next x) = a x) ∧
      ∀ x, (∀ c ∈ cs, ¬ Orbit next c x) → walks next L cs a x = a x := by
  intro cs
  induction cs with
  | nil => exact fun a _ _ => ⟨fun c hc => absurd hc List.not_mem_nil, fun _ _ => rfl⟩
  | cons c cs ih =>
      intro a hcycle hdisj
      obtain ⟨hhead, htail⟩ := List.pairwise_cons.mp hdisj
      obtain ⟨hon, hoff⟩ := walk_cycle (hcycle c (List.mem_cons_self ..)) a
      obtain ⟨hon', hoff'⟩ := ih (walk next c L c a)
        (fun c' hc' => hcycle c' (List.mem_cons_of_mem _ hc')) htail
      refine ⟨fun c' hc' x hx => ?_, fun x hx => ?_⟩
      · rcases List.mem_cons.mp hc' with rfl | hmem
        · -- the later walks do not come back to this cycle
          rw [walks, hoff' _ fun d hd => hhead d hd _ hx.step, hon x hx]
        · rw [walks, hon' c' hmem x hx, hoff x fun hc => hhead c' hmem x hc hx]
      · rw [walks, hoff' x fun d hd => hx d (List.mem_cons_of_mem _ hd),
          hoff x (hx c (List.mem_cons_self ..))]

end Walk

/-! ## Adding modulo `N` -/

section Modulo

variable {N m x y k : Nat}

/-- `N / gcd N m` steps of `m` are whole turns. -/
theorem add_turn_mod (x : Nat) (N m : Nat) : (x + N / N.gcd m * m) % N = x % N := by
  have hdvd : N ∣ N / N.gcd m * m := by
    obtain ⟨q, hq⟩ := N.gcd_dvd_right m
    refine ⟨q, ?_⟩
    calc N / N.gcd m * m = N / N.gcd m * (N.gcd m * q) := by rw [← hq]
      _ = N / N.gcd m * N.gcd m * q := (Nat.mul_assoc ..).symm
      _ = N * q := by rw [Nat.div_mul_cancel (N.gcd_dvd_left m)]
  rw [Nat.add_mod, Nat.mod_eq_zero_of_dvd hdvd, Nat.add_zero, Nat.mod_mod]

/-- Fewer steps of `m` do not meet again. -/
theorem add_mul_mod_inj (hN : 0 < N) {i j : Nat} (hi : i < N / N.gcd m) (hj : j < N / N.gcd m)
    (h : (x + i * m) % N = (x + j * m) % N) : i = j := by
  have hmul : i * m ≡ j * m [MOD N] := Nat.ModEq.add_left_cancel' x h
  exact (Nat.ModEq.cancel_right_div_gcd hN hmul).eq_of_lt_of_lt hi hj

/-- Steps of `m` lead to every number with the same remainder modulo `gcd N m`. -/
theorem exists_add_mul_mod (hN : 0 < N) (hy : y < N) (h : x % N.gcd m = y % N.gcd m) :
    ∃ k, (x + k * m) % N = y := by
  have hdvd : ((N.gcd m : Nat) : ℤ) ∣ (y : ℤ) - x := (Nat.modEq_iff_dvd).mp h
  obtain ⟨q, hq⟩ := hdvd
  have hbez := Nat.gcd_eq_gcd_ab N m
  -- the number of steps that the identity gives, brought into range
  obtain ⟨k, hk⟩ := Int.eq_ofNat_of_zero_le
    (Int.emod_nonneg (N.gcdB m * q) (by omega : (N : ℤ) ≠ 0))
  refine ⟨k, ?_⟩
  have hcong : ((x + k * m : Nat) : ℤ) ≡ (y : ℤ) [ZMOD N] := by
    have hkmod : (k : ℤ) ≡ N.gcdB m * q [ZMOD N] := by
      rw [← hk]
      exact Int.mod_modEq _ _
    have hsplit : (y : ℤ) = x + N.gcdB m * q * m + N * (N.gcdA m * q) := by
      linear_combination hq + q * hbez
    calc ((x + k * m : Nat) : ℤ) = x + k * m := by push_cast; ring
      _ ≡ x + N.gcdB m * q * m [ZMOD N] := (hkmod.mul_right _).add_left _
      _ ≡ x + N.gcdB m * q * m + N * (N.gcdA m * q) [ZMOD N] := by
          exact (Int.modEq_iff_dvd.mpr ⟨N.gcdA m * q, by ring⟩)
      _ = y := hsplit.symm
  have := Int.natCast_modEq_iff.mp hcong
  rwa [Nat.ModEq, Nat.mod_eq_of_lt hy] at this

end Modulo

end LibrePortable.Lib
