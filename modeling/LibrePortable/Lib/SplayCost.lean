import Mathlib.Analysis.SpecialFunctions.Log.Base
import LibrePortable.Lib.Splay

/-!
# What splaying costs

One splay may go through the whole tree, but it leaves a tree in which the next one is
cheaper. Every node counts with the logarithm of the nodes below it; a run of the loop
raises the sum over all nodes only by as much as it stays below `3 lg n + 2` turns.

Two turns in the same direction lower the sum, because of the rotation. A turn that
changes the direction does so together with the next one, so the two are counted at
once: `Splays.amortized` carries a second bound, for a turn that has just changed it.
-/

namespace LibrePortable.Lib

/-- The logarithm of a number of nodes. -/
noncomputable def lg (n : Nat) : ℝ := Real.logb 2 n

theorem lg_zero : lg 0 = 0 := by simp [lg]

theorem lg_nonneg (n : Nat) : 0 ≤ lg n := by
  rcases Nat.eq_zero_or_pos n with rfl | hn
  · exact lg_zero.ge
  · exact Real.logb_nonneg one_lt_two (by exact_mod_cast hn)

theorem lg_le {m n : Nat} (h : m ≤ n) : lg m ≤ lg n := by
  rcases Nat.eq_zero_or_pos m with rfl | hm
  · rw [lg_zero]
    exact lg_nonneg n
  · exact Real.logb_le_logb_of_le one_lt_two (by exact_mod_cast hm) (by exact_mod_cast h)

/-- Two parts of a whole are small together. -/
theorem lg_add_lg {m n k : Nat} (hm : 0 < m) (hn : 0 < n) (h : m + n ≤ k) :
    lg m + lg n + 2 ≤ 2 * lg k := by
  have hm' : (0 : ℝ) < m := by exact_mod_cast hm
  have hn' : (0 : ℝ) < n := by exact_mod_cast hn
  have hk' : (m : ℝ) + n ≤ k := by exact_mod_cast h
  have hfour : Real.logb 2 (2 ^ 2) = 2 := by
    rw [Real.logb_pow, Real.logb_self_eq_one one_lt_two]
    norm_num
  have hprod : (m : ℝ) * n * 2 ^ 2 ≤ (k : ℝ) ^ 2 := by
    have hsq : ((m : ℝ) + n) ^ 2 ≤ (k : ℝ) ^ 2 := pow_le_pow_left₀ (by positivity) hk' 2
    nlinarith [sq_nonneg ((m : ℝ) - n)]
  calc lg m + lg n + 2 = Real.logb 2 (m * n * 2 ^ 2) := by
        rw [Real.logb_mul (by positivity) (by positivity),
          Real.logb_mul hm'.ne' hn'.ne', hfour, lg, lg]
    _ ≤ Real.logb 2 ((k : ℝ) ^ 2) := Real.logb_le_logb_of_le one_lt_two (by positivity) hprod
    _ = 2 * lg k := by rw [Real.logb_pow, lg]; norm_num

namespace Splay

open BinaryTree

variable {α : Type} {cut : α → Int} {d : Side} {a b t t' : BinaryTree α} {x : α} {n : Nat}

/-- The sum over all nodes. -/
noncomputable def potential : BinaryTree α → ℝ
  | nil => 0
  | node _ l r => potential l + potential r + lg (l.numNodes + r.numNodes + 1)

theorem potential_fork : potential (fork d a x b) =
    potential a + potential b + lg (a.numNodes + b.numNodes + 1) := by
  cases d with
  | left => rfl
  | right => simp only [fork, potential, add_comm]

theorem potential_nonneg (t : BinaryTree α) : 0 ≤ potential t := by
  induction t with
  | nil => exact le_refl _
  | node x l r ihl ihr =>
      have := lg_nonneg (l.numNodes + r.numNodes + 1)
      rw [potential]
      linarith

/-- What the turn before may still cost if it put a node with `k` others aside and the
search now goes the other way. -/
def Repaid (cut : α → Int) (t : BinaryTree α) (n : Nat) (t' : BinaryTree α) : Prop :=
  ∀ (d : Side) (a : BinaryTree α) (y : α) (e p : BinaryTree α) (w : α) (q : BinaryTree α) (k : Nat),
    t = fork d a y e → ¬ d.Towards (cut y) → t' = fork d p w q →
    n + 1 + potential t' + lg (q.numNodes + k + 1) ≤
      potential t + lg t.numNodes + 3 * lg (t.numNodes + k + 1) + 2

/-- A search that has gone to side `d` comes from the other side only. -/
theorem repaid_fork {p r : BinaryTree α} {w : α} (hx : d.Towards (cut x))
    (h : ∀ k, n + 1 + potential (fork d p w r) + lg (p.numNodes + k + 1) ≤
      potential (fork d a x b) + lg (fork d a x b).numNodes +
        3 * lg ((fork d a x b).numNodes + k + 1) + 2) :
    Repaid cut (fork d a x b) n (fork d p w r) := by
  intro d' a' y e p' w' q' k ht hy ht'
  rcases Side.eq_or_eq_other d d' with rfl | rfl
  · obtain ⟨-, rfl, -⟩ := fork_inj ht
    exact absurd hx hy
  · rw [fork_other] at ht'
    obtain ⟨rfl, -, -⟩ := fork_inj ht'
    exact h k

/-- **Splaying costs `3 lg n + 2` turns**, less what the tree gets better by. -/
theorem Splays.amortized (h : Splays cut t n t') :
    n + potential t' ≤ potential t + 3 * lg t.numNodes + 2 ∧ Repaid cut t n t' := by
  induction h with
  | @found x a b h0 =>
      have hT := lg_nonneg (node x a b).numNodes
      refine ⟨by push_cast; linarith, ?_⟩
      intro d a' y e p w q k _ _ ht'
      have hle : lg (q.numNodes + k + 1) ≤ lg ((node x a b).numNodes + k + 1) := by
        refine lg_le ?_
        rw [ht', numNodes_fork]
        omega
      have hM := lg_nonneg ((node x a b).numNodes + k + 1)
      push_cast
      linarith
  | @edge d x b hx =>
      have hT := lg_nonneg (fork d nil x b).numNodes
      refine ⟨by push_cast; linarith, repaid_fork hx fun k => ?_⟩
      have hle : lg ((nil : BinaryTree α).numNodes + k + 1) ≤
          lg ((fork d nil x b).numNodes + k + 1) := by
        refine lg_le ?_
        simp only [numNodes_fork, numNodes]
        omega
      have hM := lg_nonneg ((fork d nil x b).numNodes + k + 1)
      push_cast
      linarith
  | @turned d x y b e hx hy =>
      have hT := lg_nonneg (e.numNodes + 1)
      have hle : lg (e.numNodes + b.numNodes + 1) ≤ lg (e.numNodes + 1 + b.numNodes + 1) :=
        lg_le (by omega)
      have hsame : lg (e.numNodes + b.numNodes + 1 + 1) = lg (e.numNodes + 1 + b.numNodes + 1) := by
        congr 1
        omega
      have hN := lg_nonneg (e.numNodes + 1 + b.numNodes + 1)
      refine ⟨?_, repaid_fork hx fun k => ?_⟩
      · simp only [potential_fork, numNodes_fork, numNodes, potential, Nat.zero_add]
        push_cast
        linarith
      · have hk : lg (k + 1) ≤ lg (e.numNodes + 1 + b.numNodes + 1 + k + 1) := lg_le (by omega)
        have hM : lg (e.numNodes + 1 + b.numNodes + 1) ≤
          lg (e.numNodes + 1 + b.numNodes + 1 + k + 1) := lg_le (by omega)
        simp only [potential_fork, numNodes_fork, numNodes, potential, Nat.zero_add]
        push_cast
        linarith
  | @zigzig d x y w a b e p q n hx hy hs ih =>
      have hsize := hs.numNodes_eq
      rw [numNodes_fork] at hsize
      obtain ⟨ih, -⟩ := ih
      rw [potential_fork, hsize] at ih
      -- the rotation pays: what is below `y` before and below `x` after are apart
      have hpay : lg a.numNodes + lg (e.numNodes + b.numNodes + 1) + 2 ≤
          2 * lg (a.numNodes + e.numNodes + 1 + b.numNodes + 1) :=
        lg_add_lg (by omega) (by omega) (by omega)
      have ha : lg a.numNodes ≤ lg (a.numNodes + e.numNodes + 1) := lg_le (by omega)
      have hq : lg (q.numNodes + (e.numNodes + b.numNodes + 1) + 1) ≤
          lg (a.numNodes + e.numNodes + 1 + b.numNodes + 1) := lg_le (by omega)
      have hsame : lg (p.numNodes + (q.numNodes + (e.numNodes + b.numNodes + 1) + 1) + 1) =
          lg (a.numNodes + e.numNodes + 1 + b.numNodes + 1) := by
        congr 1
        omega
      refine ⟨?_, repaid_fork hx fun k => ?_⟩
      · simp only [potential_fork, numNodes_fork, hsame]
        push_cast
        linarith
      · have hp : lg (p.numNodes + k + 1) ≤
          lg (a.numNodes + e.numNodes + 1 + b.numNodes + 1 + k + 1) := lg_le (by omega)
        have hM : lg (a.numNodes + e.numNodes + 1 + b.numNodes + 1) ≤
          lg (a.numNodes + e.numNodes + 1 + b.numNodes + 1 + k + 1) := lg_le (by omega)
        simp only [potential_fork, numNodes_fork, hsame]
        push_cast
        linarith
  | @zig d x y w a b e p q n hx hy hs ih =>
      have hsize := hs.numNodes_eq
      obtain ⟨ih, hrepaid⟩ := ih
      have hnext := hrepaid d a y e p w q b.numNodes rfl hy rfl
      simp only [numNodes_fork] at hsize
      simp only [potential_fork, numNodes_fork, hsize] at ih hnext
      have hsame : lg (p.numNodes + (q.numNodes + b.numNodes + 1) + 1) =
          lg (a.numNodes + e.numNodes + 1 + b.numNodes + 1) := by
        congr 1
        omega
      refine ⟨?_, repaid_fork hx fun k => ?_⟩
      · simp only [potential_fork, numNodes_fork, hsame]
        push_cast
        linarith
      · -- this turn and the one before it part what is left
        have hpay : lg (p.numNodes + k + 1) + lg (q.numNodes + b.numNodes + 1) + 2 ≤
            2 * lg (a.numNodes + e.numNodes + 1 + b.numNodes + 1 + k + 1) :=
          lg_add_lg (by omega) (by omega) (by omega)
        have hl : lg (a.numNodes + e.numNodes + 1) ≤
          lg (a.numNodes + e.numNodes + 1 + b.numNodes + 1) := lg_le (by omega)
        have hM : lg (a.numNodes + e.numNodes + 1 + b.numNodes + 1) ≤
          lg (a.numNodes + e.numNodes + 1 + b.numNodes + 1 + k + 1) := lg_le (by omega)
        simp only [potential_fork, numNodes_fork, hsame]
        push_cast
        linarith

/-- The bound for one splay. -/
noncomputable def splayBound (t : BinaryTree α) : ℝ := 3 * lg t.numNodes + 2

theorem splayBound_nonneg (t : BinaryTree α) : 0 ≤ splayBound t := by
  have := lg_nonneg t.numNodes
  rw [splayBound]
  linarith

end Splay

end LibrePortable.Lib
