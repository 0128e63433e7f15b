import Mathlib.Logic.Basic

/-!
# Loops with fuel

A loop that may not end is a recursion that gives up after `fuel` turns. More fuel
never changes a result that less fuel has already led to, so what a loop computes does
not depend on how much it was given.
-/

namespace LibrePortable.Lib

variable {α β : Type}

/-- Where `a` is a result, `b` is the same one. -/
def Below (a b : Option α) : Prop := ∀ v, a = some v → b = some v

theorem Below.refl (a : Option α) : Below a a := fun _ h => h

theorem Below.none (b : Option α) : Below none b := nofun

theorem Below.bind {a b : Option α} {f g : α → Option β} (hab : Below a b)
    (hfg : ∀ v, Below (f v) (g v)) : Below (a.bind f) (b.bind g) := by
  intro w hw
  obtain ⟨v, hv, hw⟩ := Option.bind_eq_some_iff.mp hw
  rw [hab v hv]
  exact hfg v w hw

theorem Below.ite {P : Prop} [Decidable P] {a a' b b' : Option α} (ha : Below a a')
    (hb : Below b b') : Below (if P then a else b) (if P then a' else b') := by
  split
  · exact ha
  · exact hb

/-- A loop that gives up at 0 and makes one turn at a time. -/
theorem below_of_turn {σ : Type} {f : Nat → σ → Option β} (hzero : ∀ s, f 0 s = none)
    (hturn : ∀ m n : Nat, (∀ s, Below (f m s) (f n s)) → ∀ s, Below (f (m + 1) s) (f (n + 1) s))
    {m n : Nat} (hmn : m ≤ n) (s : σ) : Below (f m s) (f n s) := by
  induction m generalizing n s with
  | zero =>
      rw [hzero]
      exact Below.none _
  | succ m ih =>
      obtain ⟨n, rfl⟩ := Nat.exists_eq_add_one.mpr (Nat.zero_lt_of_lt hmn)
      exact hturn m n (ih (Nat.le_of_succ_le_succ hmn)) s

/-- Two amounts of fuel that both lead to a result lead to the same one. -/
theorem Below.unique {f : Nat → Option α} (hf : ∀ m n, m ≤ n → Below (f m) (f n)) {m n : Nat}
    {v w : α} (hv : f m = some v) (hw : f n = some w) : v = w := by
  have h := hf m _ (Nat.le_max_left m n) v hv
  rw [hf n _ (Nat.le_max_right m n) w hw] at h
  exact (Option.some.inj h).symm

/-- A result for every amount of fuel beyond `k` is one result. -/
theorem Below.eventually {f : Nat → Option α} (hf : ∀ m n, m ≤ n → Below (f m) (f n)) {k : Nat}
    {P : α → Prop} (h : ∀ n, k < n → ∃ v, f n = some v ∧ P v) :
    ∃ v, (∀ n, k < n → f n = some v) ∧ P v := by
  obtain ⟨v, hv, hP⟩ := h (k + 1) (Nat.lt_succ_self k)
  exact ⟨v, fun n hn => hf (k + 1) n hn v hv, hP⟩

theorem Below.map {a b : Option α} (hab : Below a b) (g : α → β) :
    Below (a.map g) (b.map g) := by
  intro w hw
  obtain ⟨v, hv, hw⟩ := Option.map_eq_some_iff.mp hw
  rw [hab v hv]
  exact congrArg some hw

end LibrePortable.Lib
