/-!
# Loops on a meter

A loop that may not end takes one unit from a tank for every turn and gives up when the
tank is empty. What is left goes to the next loop, so a computation of several loops
runs on one tank, and what it takes from it is what all of them cost together.
-/

namespace LibrePortable.Lib

/-- A computation that runs on a tank, and fails when that is empty. -/
abbrev Metered (α : Type) := StateT Nat Option α

/-- What takes nothing from the tank. -/
def unmetered {α : Type} (o : Option α) : Metered α := fun fuel => o.map (·, fuel)

variable {α β σ : Type}

/-- `f` gives `v` and takes exactly `n` units for it. -/
structure Takes (f : Metered α) (n : Nat) (v : α) : Prop where
  enough : ∀ k, f (n + k) = some (v, k)
  short : ∀ k, k < n → f k = none

namespace Takes

variable {f : Metered α} {g : α → Metered β} {m n : Nat} {v : α} {w : β}

theorem pure (v : α) : Takes (Pure.pure v : Metered α) 0 v where
  enough k := by rw [Nat.zero_add]; rfl
  short k hk := absurd hk (Nat.not_lt_zero k)

theorem bind (hf : Takes f m v) (hg : Takes (g v) n w) : Takes (f >>= g) (m + n) w where
  enough k := by
    have hfk := hf.enough (n + k)
    have hgk := hg.enough k
    simp only [Bind.bind, StateT.bind, Nat.add_assoc, hfk]
    exact hgk
  short k hk := by
    simp only [Bind.bind, StateT.bind]
    rcases Nat.lt_or_ge k m with hlt | hge
    · rw [hf.short k hlt]
      rfl
    · obtain ⟨k, rfl⟩ := Nat.exists_eq_add_of_le hge
      rw [hf.enough k]
      exact hg.short k (by omega)

/-- What a run has given and taken is what it gives and takes. -/
theorem of_eq_some (hf : Takes f n v) {w : α} {k l : Nat} (h : f k = some (w, l)) :
    w = v ∧ k = n + l := by
  rcases Nat.lt_or_ge k n with hlt | hge
  · rw [hf.short k hlt] at h
    cases h
  · obtain ⟨k, rfl⟩ := Nat.exists_eq_add_of_le hge
    rw [hf.enough k] at h
    cases h
    exact ⟨rfl, rfl⟩

theorem unmetered {o : Option α} (h : o = some v) : Takes (unmetered o) 0 v where
  enough k := by rw [Lib.unmetered, h, Nat.zero_add]; rfl
  short k hk := absurd hk (Nat.not_lt_zero k)

/-- A step that takes nothing, and then the rest. -/
theorem after {o : Option α} (h : o = some v) (hg : Takes (g v) n w) :
    Takes (Lib.unmetered o >>= g) n w := by
  have := (Takes.unmetered h).bind hg
  rwa [Nat.zero_add] at this

section Loops

variable {loop : Nat → σ → Option (α × Nat)} {s s' : σ}

/-- The last turn of a loop. -/
theorem last (hzero : loop 0 s = none) (h : ∀ fuel, loop (fuel + 1) s = some (v, fuel)) :
    Takes (loop · s) 1 v where
  enough k := by rw [Nat.add_comm]; exact h k
  short k hk := by
    obtain rfl := Nat.lt_one_iff.mp hk
    exact hzero

/-- A turn after which the loop goes on. -/
theorem turn (hzero : loop 0 s = none) (h : ∀ fuel, loop (fuel + 1) s = loop fuel s')
    (hs : Takes (loop · s') n v) : Takes (loop · s) (n + 1) v where
  enough k := by
    have := hs.enough k
    rw [Nat.add_right_comm]
    exact (h _).trans this
  short k hk := by
    cases k with
    | zero => exact hzero
    | succ k => exact (h k).trans (hs.short k (Nat.lt_of_succ_lt_succ hk))

end Loops

end Takes

end LibrePortable.Lib
