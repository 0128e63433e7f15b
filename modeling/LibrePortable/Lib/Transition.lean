/-!
# Transition systems

States, the states a run can begin in, and labelled steps. A safety property is
proved by showing that it holds initially and that one step preserves it;
`Reachable.invariant` packages that induction once.
-/

namespace LibrePortable.Lib

/-- A labelled transition system. -/
structure Lts (σ ε : Type) where
  /-- Where a run may begin. -/
  Init : σ → Prop
  /-- One step, and what can be observed of it. -/
  Step : σ → ε → σ → Prop

namespace Lts

variable {σ ε : Type} {M : Lts σ ε}

/-- The states that some run passes through. -/
inductive Reachable (M : Lts σ ε) : σ → Prop where
  | init {s : σ} : M.Init s → Reachable M s
  | tail {s s' : σ} {e : ε} : Reachable M s → M.Step s e s' → Reachable M s'

/-- `Path s es s'`: from `s`, steps showing `es` lead to `s'`. -/
inductive Path (M : Lts σ ε) : σ → List ε → σ → Prop where
  | nil (s : σ) : Path M s [] s
  | cons {s s' s'' : σ} {e : ε} {es : List ε} :
      M.Step s e s' → Path M s' es s'' → Path M s (e :: es) s''

/-- **The invariant rule.** -/
theorem Reachable.invariant {I : σ → Prop} (init : ∀ s, M.Init s → I s)
    (step : ∀ s e s', Reachable M s → I s → M.Step s e s' → I s')
    {s : σ} (h : Reachable M s) : I s := by
  induction h with
  | init h => exact init _ h
  | tail hr hs ih => exact step _ _ _ hr ih hs

/-- A property no step takes away is never lost along a path. -/
theorem Path.stable {P : σ → Prop}
    (step : ∀ s e s', Reachable M s → P s → M.Step s e s' → P s')
    {s s' : σ} {es : List ε} (h : Path M s es s') (hr : Reachable M s) (hp : P s) : P s' := by
  induction h with
  | nil _ => exact hp
  | cons hs _ ih => exact ih (hr.tail hs) (step _ _ _ hr hp hs)

/-- A path is cut between any two of its steps. -/
theorem Path.split {s s'' : σ} {es₁ es₂ : List ε} (h : Path M s (es₁ ++ es₂) s'') :
    ∃ s', Path M s es₁ s' ∧ Path M s' es₂ s'' := by
  induction es₁ generalizing s with
  | nil => exact ⟨s, .nil s, h⟩
  | cons e es₁ ih =>
      cases h with
      | cons hs hp =>
          obtain ⟨s', h₁, h₂⟩ := ih hp
          exact ⟨s', .cons hs h₁, h₂⟩

theorem Path.append {s s' s'' : σ} {es₁ es₂ : List ε} (h₁ : Path M s es₁ s')
    (h₂ : Path M s' es₂ s'') : Path M s (es₁ ++ es₂) s'' := by
  induction h₁ with
  | nil _ => exact h₂
  | cons hs _ ih => exact .cons hs (ih h₂)

/-- The invariant rule for the steps of one path. -/
theorem Path.invariant {P : σ → Prop} {Q : ε → Prop}
    (step : ∀ s e s', P s → Q e → M.Step s e s' → P s') {s s' : σ} {es : List ε}
    (h : Path M s es s') (hp : P s) (hq : ∀ e ∈ es, Q e) : P s' := by
  induction h with
  | nil _ => exact hp
  | cons hs _ ih =>
      exact ih (step _ _ _ hp (hq _ List.mem_cons_self) hs)
        fun e he => hq e (List.mem_cons_of_mem _ he)

end Lts

end LibrePortable.Lib
