import LibrePortable.Getopt.Permute

/-!
# What `permute_args` touches

The exchange is a sequence of swaps whose positions do not depend on what is in the
vector. They are listed here, and for two blocks that are not empty they all lie between
the start of the first and the end of the second. At the end, all this is said of any two
blocks of any array.
-/

namespace LibrePortable.Getopt

variable {α : Type}

/-- The swaps of the inner loop of `permute_args`. -/
def cycleSwaps (panonoptEnd nnonopts nopts cstart : Int) : Nat → Int → List (Int × Int)
  | 0, _ => []
  | j + 1, pos =>
      let pos := if pos ≥ panonoptEnd then pos - nnonopts else pos + nopts
      (pos, cstart) :: cycleSwaps panonoptEnd nnonopts nopts cstart j pos

/-- The swaps of the outer loop, from its counter `i` on. -/
def cyclesSwaps (panonoptEnd nnonopts nopts cyclelen : Int) : Nat → Int → List (Int × Int)
  | 0, _ => []
  | k + 1, i =>
      let cstart := panonoptEnd + i
      cycleSwaps panonoptEnd nnonopts nopts cstart cyclelen.toNat cstart
        ++ cyclesSwaps panonoptEnd nnonopts nopts cyclelen k (i + 1)

/-- The swaps of `permute_args`. -/
def permuteSwaps (panonoptStart panonoptEnd optEnd : Int) : List (Int × Int) :=
  let nnonopts := panonoptEnd - panonoptStart
  let nopts := optEnd - panonoptEnd
  match gcd (nopts.toNat + 1) nnonopts nopts with
  | none => []
  | some ncycle =>
      cyclesSwaps panonoptEnd nnonopts nopts ((optEnd - panonoptStart).tdiv ncycle) ncycle.toNat 0

/-- One swap after the other. -/
def swapAll : List (Int × Int) → List α → Option (List α)
  | [], nargv => some nargv
  | (pos, cstart) :: swaps, nargv => (swapArgs nargv pos cstart).bind (swapAll swaps)

/-! ## The loops are these swaps -/

section Loops

variable {e n m c L : Int}

theorem swapAll_append (xs ys : List (Int × Int)) (l : List α) :
    swapAll (xs ++ ys) l = (swapAll xs l).bind (swapAll ys) := by
  induction xs generalizing l with
  | nil => rfl
  | cons x xs ih =>
      obtain ⟨pos, cstart⟩ := x
      rw [List.cons_append, swapAll, swapAll, Option.bind_assoc]
      exact Option.bind_congr fun l' _ => ih l'

theorem cycle_eq_swapAll : ∀ (k : Nat) (pos : Int) (l : List α),
    cycle e n m c k pos l = swapAll (cycleSwaps e n m c k pos) l
  | 0, _, _ => rfl
  | k + 1, pos, l => by
      rw [cycle, cycleSwaps, swapAll]
      exact Option.bind_congr fun l' _ => cycle_eq_swapAll k _ l'

theorem cycles_eq_swapAll : ∀ (k : Nat) (i : Int) (l : List α),
    cycles e n m L k i l = swapAll (cyclesSwaps e n m L k i) l
  | 0, _, _ => rfl
  | k + 1, i, l => by
      rw [cycles, cyclesSwaps, swapAll_append, cycle_eq_swapAll]
      exact Option.bind_congr fun l' _ => cycles_eq_swapAll k (i + 1) l'

/-- **`permute_args` is its swaps**, once the greatest common divisor has been found. -/
theorem permuteArgs_eq_swapAll (a b o : Int) (l : List α) :
    permuteArgs a b o l =
      (gcd ((o - b).toNat + 1) (b - a) (o - b)).bind fun _ => swapAll (permuteSwaps a b o) l := by
  rw [permuteArgs, permuteSwaps]
  dsimp only
  cases gcd ((o - b).toNat + 1) (b - a) (o - b) with
  | none => rfl
  | some ncycle => exact cycles_eq_swapAll ..

end Loops

/-! ## Where they lie -/

section Range

variable {s n m : Nat}

/-- Both positions of a swap lie in the two blocks. -/
def Inside (lo hi : Nat) (x : Int × Int) : Prop :=
  (lo ≤ x.1 ∧ x.1 < hi) ∧ (lo ≤ x.2 ∧ x.2 < hi)

theorem cycleSwaps_inside {c : Nat} (hc : s ≤ c ∧ c < s + n + m) : ∀ {k p : Nat},
    s ≤ p ∧ p < s + n + m → ∀ x ∈ cycleSwaps ((s + n : Nat) : Int) n m c k p,
      Inside s (s + n + m) x := by
  intro k
  induction k with
  | zero => exact fun _ _ hx => absurd hx List.not_mem_nil
  | succ k ih =>
      intro p hp x hx
      have hnext := nextPos_mem hp
      rw [cycleSwaps, nextPos_natCast _ _ _ _ (by omega)] at hx
      rcases List.mem_cons.mp hx with rfl | hx
      · exact ⟨by dsimp only; omega, by dsimp only; omega⟩
      · exact ih hnext x hx

theorem cyclesSwaps_inside {L : Nat} : ∀ {k i : Nat}, i + k ≤ m →
    ∀ x ∈ cyclesSwaps ((s + n : Nat) : Int) n m L k i, Inside s (s + n + m) x := by
  intro k
  induction k with
  | zero => exact fun _ _ hx => absurd hx List.not_mem_nil
  | succ k ih =>
      intro i hik x hx
      rw [cyclesSwaps, ← Int.natCast_add] at hx
      have hc : s ≤ s + n + i ∧ s + n + i < s + n + m := by omega
      rcases List.mem_append.mp hx with hx | hx
      · exact cycleSwaps_inside hc hc x hx
      · exact ih (i := i + 1) (by omega) x hx

/-- **The swaps stay inside the two blocks.** -/
theorem permuteSwaps_inside (hm : 0 < m) : ∀ x ∈ permuteSwaps (s : Int) ((s + n : Nat) : Int)
    ((s + n + m : Nat) : Int), Inside s (s + n + m) x := by
  obtain ⟨hn', hm', hN⟩ := block_lengths s n m
  have hle : n.gcd m ≤ m := Nat.le_of_dvd hm (Nat.gcd_dvd_right n m)
  rw [permuteSwaps, hn', hm', hN, Int.toNat_natCast, gcd_spec hm (Nat.lt_succ_self m)]
  dsimp only
  rw [Int.toNat_natCast, ← Int.ofNat_tdiv]
  exact cyclesSwaps_inside (i := 0) (by omega)

end Range

/-- A call of `permute_args` that a vector of `nargc` elements allows: neither block is empty,
no divisor is 0, and no element outside the two blocks is touched. -/
structure GoodExchange (nargc panonoptStart panonoptEnd optEnd : Int) : Prop where
  start : 1 ≤ panonoptStart
  first : panonoptStart < panonoptEnd
  second : panonoptEnd < optEnd
  last : optEnd ≤ nargc
  divisor : ∃ ncycle, gcd ((optEnd - panonoptEnd).toNat + 1) (panonoptEnd - panonoptStart)
    (optEnd - panonoptEnd) = some ncycle ∧ 0 < ncycle
  swaps : ∀ {α : Type} (nargv : List α), permuteArgs panonoptStart panonoptEnd optEnd nargv =
    swapAll (permuteSwaps panonoptStart panonoptEnd optEnd) nargv
  written : ∀ x ∈ permuteSwaps panonoptStart panonoptEnd optEnd,
    (1 ≤ x.1 ∧ x.1 < nargc) ∧ (1 ≤ x.2 ∧ x.2 < nargc)

/-- The number of cycles of two blocks, of which the second is not empty. -/
theorem gcd_blocks {s n m : Nat} (hm : 0 < m) :
    gcd ((((s + n + m : Nat) : Int) - ((s + n : Nat) : Int)).toNat + 1)
      (((s + n : Nat) : Int) - (s : Nat)) (((s + n + m : Nat) : Int) - ((s + n : Nat) : Int)) =
        some ((n.gcd m : Nat) : Int) := by
  obtain ⟨hn', hm', -⟩ := block_lengths s n m
  rw [hn', hm', Int.toNat_natCast]
  exact gcd_spec hm (Nat.lt_succ_self m)

/-- Two blocks behind the program's name that are not empty. -/
theorem goodExchange {s n m N : Nat} (hs : 1 ≤ s) (hn : 0 < n) (hm : 0 < m) (hN : s + n + m ≤ N) :
    GoodExchange N (s : Int) ((s + n : Nat) : Int) ((s + n + m : Nat) : Int) where
  start := by omega
  first := by omega
  second := by omega
  last := by omega
  divisor := by
    have hpos := Nat.gcd_pos_of_pos_right n hm
    exact ⟨_, gcd_blocks hm, by omega⟩
  swaps nargv := by rw [permuteArgs_eq_swapAll, gcd_blocks hm, Option.bind_some]
  written x hx := by
    obtain ⟨⟨h1, h2⟩, h3, h4⟩ := permuteSwaps_inside hm x hx
    exact ⟨⟨by omega, by omega⟩, by omega, by omega⟩

/-! ## Any two blocks -/

section Blocks

variable {s e o : Int} {l l' : List α}

/-- `l'` is `l` with the blocks `[s, e)` and `[e, o)` exchanged. -/
structure BlocksExchanged (s e o : Int) (l l' : List α) : Prop where
  length : l'.length = l.length
  /-- The second block starts where the first one did. -/
  second : ∀ i, e ≤ i → i < o → argAt l' (i - (e - s)) = argAt l i
  /-- The first block follows. -/
  first : ∀ i, s ≤ i → i < e → argAt l' (i + (o - e)) = argAt l i
  others : ∀ i, ¬ (s ≤ i ∧ i < o) → argAt l' i = argAt l i

/-- What a call of `permute_args` does to the blocks `[s, e)` and `[e, o)`. -/
structure Exchanges (s e o : Int) (l : List α) : Prop where
  blocks : ∃ l', permuteArgs s e o l = some l' ∧ BlocksExchanged s e o l l'
  /-- Nothing is read or written but by the swaps. -/
  swaps : permuteArgs s e o l = swapAll (permuteSwaps s e o) l
  inside : ∀ x ∈ permuteSwaps s e o, (s ≤ x.1 ∧ x.1 < o) ∧ (s ≤ x.2 ∧ x.2 < o)
  /-- `gcd` comes to an end, after no more rounds than the second block has elements. -/
  divisor : ∀ fuel, (o - e).toNat < fuel →
    gcd fuel (e - s) (o - e) = some (Int.gcd (e - s) (o - e) : Int)
  /-- Both blocks together are a multiple of the number of cycles. -/
  cyclelen : (Int.gcd (e - s) (o - e) : Int) ∣ o - s

theorem argAt_neg {i : Int} (hi : i < 0) : argAt l i = none := if_neg (by omega)

/-- `permuteArgs_get`, with the positions of the source. -/
theorem BlocksExchanged.of_get {s n m : Nat} (hlen : l'.length = l.length)
    (hin : ∀ y < n + m, l'[s + (y + m) % (n + m)]? = l[s + y]?)
    (hout : ∀ p, ¬ (s ≤ p ∧ p < s + n + m) → l'[p]? = l[p]?) :
    BlocksExchanged (s : Int) ((s + n : Nat) : Int) ((s + n + m : Nat) : Int) l l' where
  length := hlen
  second i hi hio := by
    obtain ⟨y, rfl⟩ : ∃ y : Nat, i = ((s + (n + y) : Nat) : Int) := ⟨(i - s - n).toNat, by omega⟩
    have hmod : (n + y + m) % (n + m) = y := by
      rw [Nat.add_right_comm, Nat.add_mod_left, Nat.mod_eq_of_lt (by omega)]
    have hpos : ((s + (n + y) : Nat) : Int) - (((s + n : Nat) : Int) - (s : Nat)) =
        ((s + y : Nat) : Int) := by omega
    have := hin (n + y) (by omega)
    rw [hpos, argAt_natCast, argAt_natCast, ← this, hmod]
  first i hi hie := by
    obtain ⟨y, rfl⟩ : ∃ y : Nat, i = ((s + y : Nat) : Int) := ⟨(i - s).toNat, by omega⟩
    have hmod : (y + m) % (n + m) = y + m := Nat.mod_eq_of_lt (by omega)
    have hpos : ((s + y : Nat) : Int) + (((s + n + m : Nat) : Int) - ((s + n : Nat) : Int)) =
        ((s + (y + m) : Nat) : Int) := by omega
    have := hin y (by omega)
    rw [hpos, argAt_natCast, argAt_natCast, ← this, hmod]
  others i hi := by
    rcases Int.lt_or_le i 0 with hneg | hpos
    · rw [argAt_neg hneg, argAt_neg hneg]
    · obtain ⟨p, rfl⟩ := Int.eq_ofNat_of_zero_le hpos
      rw [argAt_natCast, argAt_natCast]
      exact hout p (by omega)

/-- **`permute_args` exchanges two blocks**, one behind the other, of any array. -/
theorem blocks_exchanged (hs : 0 ≤ s) (hse : s < e) (heo : e < o) (ho : o ≤ l.length) :
    Exchanges s e o l := by
  obtain ⟨s, rfl⟩ := Int.eq_ofNat_of_zero_le hs
  obtain ⟨n, rfl⟩ : ∃ n : Nat, e = ((s + n : Nat) : Int) := ⟨(e - s).toNat, by omega⟩
  obtain ⟨m, rfl⟩ : ∃ m : Nat, o = ((s + n + m : Nat) : Int) := ⟨(o - s - n).toNat, by omega⟩
  have hm : 0 < m := by omega
  obtain ⟨hn', hm', hN⟩ := block_lengths s n m
  have hlen : s + n + m ≤ l.length := by omega
  obtain ⟨l', hrun, hlen', hin, hout⟩ := permuteArgs_get hm hlen
  refine ⟨⟨l', hrun, .of_get hlen' hin hout⟩, ?_, permuteSwaps_inside hm, fun fuel hfuel => ?_, ?_⟩
  · rw [permuteArgs_eq_swapAll, gcd_blocks hm, Option.bind_some]
  · rw [hm', Int.toNat_natCast] at hfuel
    rw [hn', hm', Int.gcd_natCast_natCast]
    exact gcd_spec hm hfuel
  · rw [hn', hm', hN, Int.natCast_add]
    exact Int.dvd_add (Int.gcd_dvd_left ..) (Int.gcd_dvd_right ..)

/-- Two elements and three more, between one in front and one behind. -/
theorem blocks_exchanged_five : Exchanges 1 3 6 [0, 1, 2, 3, 4, 5, 6] :=
  blocks_exchanged (by decide) (by decide) (by decide) (by decide)

end Blocks

end LibrePortable.Getopt
