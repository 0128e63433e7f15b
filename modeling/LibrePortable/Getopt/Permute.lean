import Mathlib.Tactic.SplitIfs
import LibrePortable.Lib.Cycle

/-!
# `permute_args`

The block of operands that were skipped and the block of options behind it change places.
This is done in the array itself, along the cycles of the permutation. Each cycle is
walked from one of the first positions of the second block.
-/

namespace LibrePortable.Getopt

open Lib

variable {α : Type}

/-- `gcd`. A division by zero has no result. -/
def gcd : Nat → Int → Int → Option Int
  | 0, _, _ => none
  | fuel + 1, a, b =>
      if b = 0 then none
      else
        let c := a.tmod b
        if c ≠ 0 then gcd fuel b c else some b

/-- `nargv[i]`, for an element of the vector. -/
def argAt (nargv : List α) (i : Int) : Option α := if 0 ≤ i then nargv[i.toNat]? else none

/-- The three assignments of a swap. -/
def swapArgs (nargv : List α) (pos cstart : Int) : Option (List α) :=
  (argAt nargv pos).bind fun swap =>
    (argAt nargv cstart).map fun x => (nargv.set pos.toNat x).set cstart.toNat swap

/-- The inner loop of `permute_args`. -/
def cycle (panonoptEnd nnonopts nopts cstart : Int) : Nat → Int → List α → Option (List α)
  | 0, _, nargv => some nargv
  | j + 1, pos, nargv =>
      let pos := if pos ≥ panonoptEnd then pos - nnonopts else pos + nopts
      (swapArgs nargv pos cstart).bind (cycle panonoptEnd nnonopts nopts cstart j pos)

/-- The outer loop of `permute_args`, from its counter `i` on. -/
def cycles (panonoptEnd nnonopts nopts cyclelen : Int) : Nat → Int → List α → Option (List α)
  | 0, _, nargv => some nargv
  | k + 1, i, nargv =>
      let cstart := panonoptEnd + i
      (cycle panonoptEnd nnonopts nopts cstart cyclelen.toNat cstart nargv).bind
        (cycles panonoptEnd nnonopts nopts cyclelen k (i + 1))

/-- `permute_args`. -/
def permuteArgs (panonoptStart panonoptEnd optEnd : Int) (nargv : List α) : Option (List α) :=
  let nnonopts := panonoptEnd - panonoptStart
  let nopts := optEnd - panonoptEnd
  (gcd (nopts.toNat + 1) nnonopts nopts).bind fun ncycle =>
    let cyclelen := (optEnd - panonoptStart).tdiv ncycle
    cycles panonoptEnd nnonopts nopts cyclelen ncycle.toNat 0 nargv

/-! ## The greatest common divisor -/

theorem gcd_spec : ∀ {fuel a b : Nat}, 0 < b → b < fuel →
    gcd fuel (a : Int) b = some (Nat.gcd a b : Int) := by
  intro fuel
  induction fuel with
  | zero => intro a b _ h; exact absurd h (Nat.not_lt_zero b)
  | succ fuel ih =>
      intro a b hpos hfuel
      have hmod : (a : Int).tmod b = ((a % b : Nat) : Int) := (Int.ofNat_tmod a b).symm
      have hstep : Nat.gcd a b = Nat.gcd b (a % b) := by
        rw [Nat.gcd_comm, Nat.gcd_rec, Nat.gcd_comm]
      rw [gcd, if_neg (by omega), hmod]
      by_cases hzero : a % b = 0
      · rw [if_neg (by rw [hzero]; simp), hstep, hzero, Nat.gcd_zero_right]
      · have hlt : a % b < b := Nat.mod_lt a hpos
        rw [if_pos (by omega), ih (by omega) (by omega), hstep]

/-! ## The walk -/

section Cycles

/-- The position after `p`, for blocks of `n` and `m` elements that meet at `e`. -/
def nextPos (e n m p : Nat) : Nat := if e ≤ p then p - n else p + m

variable {s n m : Nat} {l : List α}

/-- The lengths of two blocks that start at `s`, and of both together. -/
theorem block_lengths (s n m : Nat) : ((s + n : Nat) : Int) - (s : Nat) = (n : Nat) ∧
    ((s + n + m : Nat) : Int) - ((s + n : Nat) : Int) = (m : Nat) ∧
    ((s + n + m : Nat) : Int) - (s : Nat) = ((n + m : Nat) : Int) :=
  ⟨by omega, by omega, by omega⟩

theorem argAt_natCast (l : List α) (i : Nat) : argAt l (i : Int) = l[i]? := by
  rw [argAt, if_pos (Int.natCast_nonneg i), Int.toNat_natCast]

/-- **A swap inside the vector.** -/
theorem swapArgs_spec {i j : Nat} (hi : i < l.length) (hj : j < l.length) :
    ∃ l', swapArgs l i j = some l' ∧ l'.length = l.length ∧
      (fun x => l'[x]?) = swapAt (fun x => l[x]?) i j := by
  refine ⟨(l.set i l[j]).set j l[i], ?_, by simp, ?_⟩
  · rw [swapArgs, argAt_natCast, argAt_natCast, List.getElem?_eq_getElem hi,
      List.getElem?_eq_getElem hj]
    rfl
  · funext x
    simp only [swapAt, List.getElem?_set, List.length_set]
    by_cases hxj : j = x
    · subst hxj
      by_cases hij : j = i
      · simp [hij, hi]
      · simp [hij, hi, hj]
    · by_cases hxi : i = x
      · subst hxi
        simp [hxj, hi, hj]
      · simp [hxi, hxj, Ne.symm hxi, Ne.symm hxj]

/-- The code's positions are those of `nextPos`. -/
theorem nextPos_natCast (e n m p : Nat) (hn : n ≤ e) :
    (if (p : Int) ≥ e then (p : Int) - n else (p : Int) + m) = (nextPos e n m p : Nat) := by
  rw [nextPos]
  split <;> split <;> omega

/-- The positions stay between the start of the first block and the end of the second. -/
theorem nextPos_mem {p : Nat} (h : s ≤ p ∧ p < s + n + m) :
    s ≤ nextPos (s + n) n m p ∧ nextPos (s + n) n m p < s + n + m := by
  rw [nextPos]
  split <;> omega

/-- **The inner loop** is a walk. -/
theorem cycle_spec {c : Nat} (hc : s ≤ c ∧ c < s + n + m) : ∀ {k p : Nat} {l : List α},
    s + n + m ≤ l.length → s ≤ p ∧ p < s + n + m →
    ∃ l', cycle ((s + n : Nat) : Int) n m c k p l = some l' ∧ l'.length = l.length ∧
      (fun x => l'[x]?) = walk (nextPos (s + n) n m) c k p (fun x => l[x]?) := by
  intro k
  induction k with
  | zero => exact fun _ _ => ⟨_, rfl, rfl, rfl⟩
  | succ k ih =>
      intro p l hlen hp
      have hnext := nextPos_mem hp
      obtain ⟨l1, hswap, hlen1, hget1⟩ := swapArgs_spec (l := l)
        (Nat.lt_of_lt_of_le hnext.2 hlen) (Nat.lt_of_lt_of_le hc.2 hlen)
      obtain ⟨l2, hrest, hlen2, hget2⟩ := ih (l := l1) (by omega) hnext
      refine ⟨l2, ?_, hlen2.trans hlen1, ?_⟩
      · rw [cycle, nextPos_natCast _ _ _ _ (by omega), hswap]
        exact hrest
      · rw [hget2, hget1, walk]

/-- **The outer loop** walks from one leader after the other. -/
theorem cycles_spec {L : Nat} : ∀ {k i : Nat} {l : List α},
    s + n + m ≤ l.length → i + k ≤ m →
    ∃ l', cycles ((s + n : Nat) : Int) n m L k i l = some l' ∧ l'.length = l.length ∧
      (fun x => l'[x]?) =
        walks (nextPos (s + n) n m) L ((List.range' i k).map fun i => s + n + i)
          (fun x => l[x]?) := by
  intro k
  induction k with
  | zero => exact fun _ _ => ⟨_, rfl, rfl, rfl⟩
  | succ k ih =>
      intro i l hlen hik
      have hc : s ≤ s + n + i ∧ s + n + i < s + n + m := by omega
      obtain ⟨l1, hcycle, hlen1, hget1⟩ := cycle_spec (k := L) hc hlen hc
      obtain ⟨l2, hrest, hlen2, hget2⟩ := ih (i := i + 1) (l := l1) (by omega) (by omega)
      refine ⟨l2, ?_, hlen2.trans hlen1, ?_⟩
      · rw [cycles, ← Int.natCast_add, Int.toNat_natCast, hcycle]
        exact hrest
      · rw [hget2, hget1]
        rfl

end Cycles

/-! ## The cycles of the exchange -/

section Exchange

variable {s n m : Nat}

theorem nextPos_add {y : Nat} (hy : y < n + m) :
    nextPos (s + n) n m (s + y) = s + (y + m) % (n + m) := by
  rw [nextPos]
  split
  · rw [Nat.mod_eq_sub_mod (by omega), Nat.mod_eq_of_lt (by omega)]
    omega
  · rw [Nat.mod_eq_of_lt (by omega)]
    omega

/-- `k` steps add `k * m`, modulo the length of both blocks. -/
theorem nextPos_iterate {x : Nat} (hx : x < n + m) (k : Nat) :
    (nextPos (s + n) n m)^[k] (s + x) = s + (x + k * m) % (n + m) := by
  induction k with
  | zero => rw [Nat.zero_mul, Nat.add_zero, Nat.mod_eq_of_lt hx]; rfl
  | succ k ih =>
      rw [Function.iterate_succ_apply', ih, nextPos_add (Nat.mod_lt _ (by omega)),
        Nat.mod_add_mod, Nat.succ_mul, Nat.add_assoc]

/-- Every position of the range starts a cycle of `(n + m) / gcd n m` steps. -/
theorem nextPos_isCycle {x : Nat} (hx : x < n + m) (hm : 0 < m) :
    IsCycle (nextPos (s + n) n m) ((n + m) / n.gcd m) (s + x) := by
  have hgcd : (n + m).gcd m = n.gcd m := Nat.gcd_add_self_left ..
  refine ⟨?_, fun i j hi hj h => ?_, ?_⟩
  · rw [← hgcd]
    exact Nat.div_pos (Nat.le_of_dvd (by omega) (Nat.gcd_dvd_left _ _))
      (Nat.gcd_pos_of_pos_right _ hm)
  · rw [nextPos_iterate hx, nextPos_iterate hx] at h
    rw [← hgcd] at hi hj
    exact add_mul_mod_inj (by omega) hi hj (Nat.add_left_cancel h)
  · show _ = _
    -- `(n + m) / gcd n m` steps of `m` are whole turns
    rw [nextPos_iterate hx, ← hgcd, add_turn_mod, Nat.mod_eq_of_lt hx]

/-- A cycle keeps the remainder modulo the number of cycles. -/
theorem orbit_mod {x y : Nat} (hx : x < n + m)
    (h : Orbit (nextPos (s + n) n m) (s + x) (s + y)) : y % n.gcd m = x % n.gcd m := by
  obtain ⟨k, hk⟩ := h
  -- both blocks together, and every step, are multiples of the number of cycles
  rw [nextPos_iterate hx] at hk
  obtain rfl : y = (x + k * m) % (n + m) := Nat.add_left_cancel hk
  have hdvd : n.gcd m ∣ n + m := Nat.dvd_add (Nat.gcd_dvd_left n m) (Nat.gcd_dvd_right n m)
  have hstep : n.gcd m ∣ k * m := Dvd.dvd.mul_left (Nat.gcd_dvd_right n m) k
  rw [Nat.mod_mod_of_dvd _ hdvd, Nat.add_mod, Nat.mod_eq_zero_of_dvd hstep, Nat.add_zero,
    Nat.mod_mod]

/-- The positions of a cycle lie in the range. -/
theorem orbit_range {x p : Nat} (hx : x < n + m)
    (h : Orbit (nextPos (s + n) n m) (s + x) p) : ∃ y < n + m, p = s + y := by
  obtain ⟨k, rfl⟩ := h
  exact ⟨_, Nat.mod_lt _ (by omega), nextPos_iterate hx k⟩

/-- The leaders: the first `gcd n m` positions of the second block. -/
def leaders (s n m : Nat) : List Nat := (List.range' 0 (n.gcd m)).map fun i => s + n + i

theorem mem_leaders {c : Nat} : c ∈ leaders s n m ↔ ∃ i < n.gcd m, c = s + (n + i) := by
  simp [leaders, Nat.add_assoc, eq_comm]

/-- A leader's remainder is its number. -/
theorem leader_mod {i : Nat} (hi : i < n.gcd m) : (n + i) % n.gcd m = i := by
  rw [Nat.add_mod, Nat.mod_eq_zero_of_dvd (Nat.gcd_dvd_left n m), Nat.zero_add, Nat.mod_mod,
    Nat.mod_eq_of_lt hi]

theorem leader_lt {i : Nat} (hi : i < n.gcd m) (hm : 0 < m) : n + i < n + m := by
  have := Nat.le_of_dvd hm (Nat.gcd_dvd_right n m)
  omega

/-- The cycles of two leaders have no position in common. -/
theorem leaders_disjoint (s n : Nat) {m : Nat} (hm : 0 < m) :
    (leaders s n m).Pairwise fun c c' => ∀ x, Orbit (nextPos (s + n) n m) c x →
      ¬ Orbit (nextPos (s + n) n m) c' x := by
  refine List.pairwise_map.mpr (List.Pairwise.imp_of_mem ?_ List.nodup_range')
  intro i j hi hj hij p hp hp'
  have hi' : i < n.gcd m := by simpa using hi
  have hj' : j < n.gcd m := by simpa using hj
  rw [Nat.add_assoc] at hp hp'
  obtain ⟨y, -, rfl⟩ := orbit_range (leader_lt hi' hm) hp
  have h1 := orbit_mod (leader_lt hi' hm) hp
  have h2 := orbit_mod (leader_lt hj' hm) hp'
  rw [leader_mod hi'] at h1
  rw [leader_mod hj'] at h2
  exact hij (h1.symm.trans h2)

/-- Every position of the range is on the cycle of a leader. -/
theorem leaders_cover {y : Nat} (hy : y < n + m) (hm : 0 < m) :
    ∃ c ∈ leaders s n m, Orbit (nextPos (s + n) n m) c (s + y) := by
  have hgcd : (n + m).gcd m = n.gcd m := Nat.gcd_add_self_left ..
  have hi : y % n.gcd m < n.gcd m := Nat.mod_lt _ (Nat.gcd_pos_of_pos_right _ hm)
  have hcong : (n + y % n.gcd m) % (n + m).gcd m = y % (n + m).gcd m := by
    rw [hgcd, leader_mod hi]
  -- the leader with the same remainder is on its cycle
  obtain ⟨k, hk⟩ := exists_add_mul_mod (by omega) hy hcong
  refine ⟨_, mem_leaders.mpr ⟨_, hi, rfl⟩, k, ?_⟩
  rw [nextPos_iterate (leader_lt hi hm), hk]

end Exchange

/-! ## The result -/

section Result

variable {s n m : Nat} {l : List α}

/-- **`permute_args`, position by position.** -/
theorem permuteArgs_get (hm : 0 < m) (hlen : s + n + m ≤ l.length) :
    ∃ l', permuteArgs (s : Int) ((s + n : Nat) : Int) ((s + n + m : Nat) : Int) l = some l' ∧
      l'.length = l.length ∧ (∀ y < n + m, l'[s + (y + m) % (n + m)]? = l[s + y]?) ∧
      ∀ p, ¬ (s ≤ p ∧ p < s + n + m) → l'[p]? = l[p]? := by
  obtain ⟨hn', hm', hN⟩ := block_lengths s n m
  have hle : n.gcd m ≤ m := Nat.le_of_dvd hm (Nat.gcd_dvd_right n m)
  obtain ⟨l', hrun, hlen', hget⟩ := cycles_spec (s := s) (n := n) (m := m)
    (L := (n + m) / n.gcd m) (k := n.gcd m) (i := 0) hlen (by omega)
  have hcycles : ∀ c ∈ leaders s n m, IsCycle (nextPos (s + n) n m) ((n + m) / n.gcd m) c := by
    intro c hc
    obtain ⟨i, hi, rfl⟩ := mem_leaders.mp hc
    exact nextPos_isCycle (leader_lt hi hm) hm
  obtain ⟨hon, hoff⟩ := walks_spec (fun x => l[x]?) hcycles (leaders_disjoint s n hm)
  refine ⟨l', ?_, hlen', fun y hy => ?_, fun p hp => ?_⟩
  · rw [permuteArgs, hn', hm', hN, Int.toNat_natCast, gcd_spec hm (Nat.lt_succ_self m),
      Option.bind_some, Int.toNat_natCast, ← Int.ofNat_tdiv]
    exact hrun
  · obtain ⟨c, hc, horbit⟩ := leaders_cover (s := s) hy hm
    rw [← nextPos_add hy]
    exact (congrFun hget _).trans (hon c hc _ horbit)
  · refine (congrFun hget p).trans (hoff p fun c hc horbit => hp ?_)
    obtain ⟨i, hi, rfl⟩ := mem_leaders.mp hc
    obtain ⟨y, hy, rfl⟩ := orbit_range (leader_lt hi hm) horbit
    omega

/-- What stands at position `p` of four lists in a row. -/
theorem getElem?_blocks (pre xs ys post : List α) (p : Nat) :
    (pre ++ xs ++ ys ++ post)[p]? =
      if p < pre.length then pre[p]?
      else if p < pre.length + xs.length then xs[p - pre.length]?
      else if p < pre.length + xs.length + ys.length then ys[p - pre.length - xs.length]?
      else post[p - pre.length - xs.length - ys.length]? := by
  simp only [List.getElem?_append, List.length_append, Nat.sub_sub]
  split_ifs <;> first | rfl | omega

/-- **`permute_args` exchanges two blocks** and leaves the rest of the vector alone. -/
theorem permuteArgs_spec (pre xs post : List α) {ys : List α} (hys : ys ≠ []) :
    permuteArgs (pre.length : Int) ((pre.length + xs.length : Nat) : Int)
        ((pre.length + xs.length + ys.length : Nat) : Int) (pre ++ xs ++ ys ++ post)
      = some (pre ++ ys ++ xs ++ post) := by
  have hm : 0 < ys.length := List.length_pos_of_ne_nil hys
  obtain ⟨l', hrun, -, hin, hout⟩ := permuteArgs_get (s := pre.length) (n := xs.length)
    (m := ys.length) (l := pre ++ xs ++ ys ++ post) hm (by simp; omega)
  rw [hrun]
  refine congrArg some (List.ext_getElem? fun p => ?_)
  rw [getElem?_blocks pre ys xs post]
  by_cases hp : pre.length ≤ p ∧ p < pre.length + xs.length + ys.length
  · obtain ⟨z, rfl⟩ : ∃ z, p = pre.length + z := ⟨p - pre.length, by omega⟩
    rw [if_neg (by omega), Nat.add_sub_cancel_left]
    by_cases hz : z < ys.length
    · -- the second block comes to the front
      have hmod : (xs.length + z + ys.length) % (xs.length + ys.length) = z := by
        rw [show xs.length + z + ys.length = z + (xs.length + ys.length) by omega,
          Nat.add_mod_right, Nat.mod_eq_of_lt (by omega)]
      have := hin (xs.length + z) (by omega)
      rw [hmod, getElem?_blocks] at this
      rw [this, if_neg (by omega), if_neg (by omega), if_pos (by omega), if_pos (by omega)]
      congr 1
      omega
    · -- and the first one behind it
      have hmod : (z - ys.length + ys.length) % (xs.length + ys.length) = z := by
        rw [Nat.sub_add_cancel (by omega), Nat.mod_eq_of_lt (by omega)]
      have := hin (z - ys.length) (by omega)
      rw [hmod, getElem?_blocks] at this
      rw [this, if_neg (by omega), if_pos (by omega), if_neg (by omega), if_pos (by omega)]
      congr 1
      omega
  · rw [hout p hp, getElem?_blocks]
    by_cases hpre : p < pre.length
    · rw [if_pos hpre, if_pos hpre]
    · rw [if_neg hpre, if_neg hpre, if_neg (by omega), if_neg (by omega), if_neg (by omega),
        if_neg (by omega)]
      congr 1
      omega

end Result

end LibrePortable.Getopt
