import Mathlib.Data.Finset.Basic
import Mathlib.Data.List.Nodup

/-!
# Three-way comparisons

A comparison function returns a number whose sign says how its arguments compare. Two
elements may be equal without being the same, so the order is a total preorder. A list
sorted strictly by it shows its elements in a definite order, and a search for `x` sees
the signs of `cmp x` fall along the list.
-/

namespace LibrePortable.Lib

variable {α : Type}

/-- The signs are those of a total preorder. -/
structure Consistent (cmp : α → α → Int) : Prop where
  swap : ∀ a b, 0 < cmp a b ↔ cmp b a < 0
  trans : ∀ a b c, cmp a b ≤ 0 → cmp b c ≤ 0 → cmp a c ≤ 0

namespace Consistent

variable {cmp : α → α → Int} {a b c : α}

theorem refl (hcmp : Consistent cmp) (a : α) : cmp a a = 0 := by
  have h := hcmp.swap a a
  omega

theorem symm (hcmp : Consistent cmp) (h : cmp a b = 0) : cmp b a = 0 := by
  have h₁ := hcmp.swap a b
  have h₂ := hcmp.swap b a
  omega

theorem le_of_not_lt (hcmp : Consistent cmp) (h : ¬ cmp a b < 0) : cmp b a ≤ 0 := by
  have h₁ := hcmp.swap b a
  omega

theorem lt_of_le_of_lt (hcmp : Consistent cmp) (h₁ : cmp a b ≤ 0) (h₂ : cmp b c < 0) :
    cmp a c < 0 := by
  by_contra h
  -- otherwise `c` is at most `a`, and so at most `b`
  have hcb := hcmp.trans c a b (hcmp.le_of_not_lt h) h₁
  have := hcmp.swap c b
  omega

/-- Comparing by a difference. -/
theorem sub (key : α → Int) : Consistent fun a b => key a - key b where
  swap a b := by omega
  trans a b c := by omega

end Consistent

/-- Strictly increasing. -/
def Sorted (cmp : α → α → Int) (xs : List α) : Prop := xs.Pairwise (cmp · · < 0)

/-- From the first sign that is not positive on, the signs are negative. -/
def Falls (cut : α → Int) (xs : List α) : Prop := xs.Pairwise fun a b => cut a ≤ 0 → cut b < 0

section Lists

variable {cmp : α → α → Int} {cut : α → Int} {as bs xs ys : List α} {x y : α}

theorem Sorted.falls (hcmp : Consistent cmp) (h : Sorted cmp xs) (x : α) : Falls (cmp x) xs :=
  h.imp fun hab ha => hcmp.lt_of_le_of_lt ha hab

theorem Sorted.nodup (hcmp : Consistent cmp) (h : Sorted cmp xs) : xs.Nodup :=
  List.Pairwise.imp (fun {a b} hab => by
    intro heq
    subst heq
    rw [hcmp.refl] at hab
    exact Int.lt_irrefl 0 hab) h

/-- An element goes between the smaller and the larger ones. -/
theorem Sorted.insert (hcmp : Consistent cmp) (h : Sorted cmp (as ++ bs))
    (ha : ∀ z ∈ as, 0 < cmp x z) (hb : ∀ z ∈ bs, cmp x z < 0) : Sorted cmp (as ++ x :: bs) := by
  obtain ⟨has, hbs, hab⟩ := List.pairwise_append.mp h
  refine List.pairwise_append.mpr ⟨has, List.pairwise_cons.mpr ⟨hb, hbs⟩, fun a hma b hmb => ?_⟩
  rcases List.mem_cons.mp hmb with rfl | hmb
  · exact (hcmp.swap b a).mp (ha a hma)
  · exact hab a hma b hmb

theorem Falls.neg_of_le (h : Falls cut (as ++ y :: bs)) (hy : cut y ≤ 0) : ∀ z ∈ bs, cut z < 0 :=
  fun z hz => (List.pairwise_cons.mp (List.pairwise_append.mp h).2.1).1 z hz hy

theorem Falls.pos_of_le (h : Falls cut (as ++ y :: bs)) (hy : 0 ≤ cut y) : ∀ z ∈ as, 0 < cut z :=
  fun z hz => by
    have := (List.pairwise_append.mp h).2.2 z hz y List.mem_cons_self
    omega

theorem Falls.left (h : Falls cut (as ++ y :: bs)) : Falls cut as := (List.pairwise_append.mp h).1

theorem Falls.right (h : Falls cut (as ++ y :: bs)) : Falls cut bs :=
  (List.pairwise_cons.mp (List.pairwise_append.mp h).2.1).2

/-! ## What a search along the list finds -/

variable {P : α → Bool}

/-- Nothing before a positive sign has been missed. -/
theorem Falls.find_pos (h : Falls cut (as ++ y :: bs)) (hP : ∀ z, P z → cut z ≤ 0)
    (hy : 0 < cut y) : (as ++ y :: bs).find? P = bs.find? P := by
  have hpos := h.pos_of_le (Int.le_of_lt hy)
  have hnone : as.find? P = none := List.find?_eq_none.mpr fun z hz hPz =>
    absurd (hP z hPz) (Int.not_le.mpr (hpos z hz))
  have hPy : ¬ P y := fun hPy => absurd (hP y hPy) (Int.not_le.mpr hy)
  rw [List.find?_append, hnone, Option.none_or, List.find?_cons_of_neg hPy]

theorem Falls.find_zero (h : Falls cut (as ++ y :: bs)) (hP : ∀ z, P z → cut z ≤ 0)
    (hy : cut y = 0) (hPy : P y) : (as ++ y :: bs).find? P = some y := by
  have hpos := h.pos_of_le (Int.le_of_eq hy.symm)
  have hnone : as.find? P = none := List.find?_eq_none.mpr fun z hz hPz =>
    absurd (hP z hPz) (Int.not_le.mpr (hpos z hz))
  rw [List.find?_append, hnone, Option.none_or, List.find?_cons_of_pos hPy]

/-- Behind a negative sign there is no zero. -/
theorem Falls.find_eq_neg (h : Falls cut (as ++ y :: bs)) (hy : cut y < 0) :
    ((as ++ y :: bs).find? fun z => cut z = 0) = as.find? fun z => cut z = 0 := by
  have hneg := h.neg_of_le (Int.le_of_lt hy)
  have hnone : ((y :: bs).find? fun z => cut z = 0) = none := by
    refine List.find?_eq_none.mpr fun z hz hz0 => ?_
    rcases List.mem_cons.mp hz with rfl | hz
    · simp at hz0
      omega
    · have := hneg z hz
      simp at hz0
      omega
  rw [List.find?_append, hnone, Option.or_none]

theorem find_le_neg (hy : cut y < 0) : ((as ++ y :: bs).find? fun z => cut z ≤ 0) =
    (as.find? fun z => cut z ≤ 0).or (some y) := by
  rw [List.find?_append, List.find?_cons_of_pos (by simp; omega)]

end Lists

/-- The first in the order `le` of the elements of `s` that have `P`. -/
def First (le : α → α → Prop) (P : α → Prop) (s : Finset α) : Option α → Prop
  | none => ∀ z ∈ s, ¬ P z
  | some y => y ∈ s ∧ P y ∧ ∀ z ∈ s, P z → le y z

end LibrePortable.Lib
