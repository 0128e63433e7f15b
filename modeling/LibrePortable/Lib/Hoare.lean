import LibrePortable.Lib.Prog

/-!
# Pre- and postconditions

What a program does inside its surroundings, for every execution that starts where a
precondition holds. The rules follow the program: one for a return, one for a call, and
one for two programs in turn. A precondition has to survive what others do before the
first call, so the first two ask for stability.
-/

namespace LibrePortable.Lib

variable {E : Type} {R : E → Type} {α β σ : Type}

/-- No move of others takes `P` away. -/
def Surroundings.Stable (W : Surroundings E R σ) (P : σ → Prop) : Prop :=
  ∀ s s', P s → W.Drift s s' → P s'

/-- Started where `P` holds, whatever `p` returns and leaves behind satisfies `Q`. -/
def Prog.Meets (W : Surroundings E R σ) (P : σ → Prop) (p : Prog E R α) (Q : α → σ → Prop) :
    Prop :=
  ∀ s tr a s', P s → Prog.Exec W p s tr a s' → Q a s'

namespace Prog

variable {W : Surroundings E R σ} {P P' : σ → Prop} {Q Q' : α → σ → Prop}

/-- An execution of two programs in turn is an execution of each. -/
theorem Exec.bind_inv {p : Prog E R α} {f : α → Prog E R β} {s s' : σ} {tr : List (Event E R)}
    {b : β} (h : Exec W (p >>= f) s tr b s') :
    ∃ tr₁ tr₂ a s₁, tr = tr₁ ++ tr₂ ∧ Exec W p s tr₁ a s₁ ∧ Exec W (f a) s₁ tr₂ b s' := by
  generalize hq : p >>= f = q at h
  induction h generalizing p with
  | ret b s =>
      cases p with
      | ret a =>
          have hf : f a = .ret b := hq
          exact ⟨[], [], a, s, rfl, .ret a s, by rw [hf]; exact .ret b s⟩
      | call e k => cases hq
  | @call e k _ _ _ _ _ _ ha h ih =>
      cases p with
      | ret a =>
          have hf : f a = .call e k := hq
          exact ⟨[], _, a, _, rfl, .ret a _, by rw [hf]; exact .call ha h⟩
      | call e k =>
          cases hq
          obtain ⟨tr₁, tr₂, a, s₁, rfl, h₁, h₂⟩ := ih rfl
          exact ⟨_ :: tr₁, tr₂, a, s₁, rfl, .call ha h₁, h₂⟩
  | drift hd _ ih =>
      obtain ⟨tr₁, tr₂, a, s₁, rfl, h₁, h₂⟩ := ih hq
      exact ⟨tr₁, tr₂, a, s₁, rfl, .drift hd h₁, h₂⟩

/-- An execution of each, one after the other, is an execution of both. -/
theorem Exec.bind {p : Prog E R α} {f : α → Prog E R β} {s s₁ s' : σ} {tr₁ tr₂ : List (Event E R)}
    {a : α} {b : β} (h₁ : Exec W p s tr₁ a s₁) (h₂ : Exec W (f a) s₁ tr₂ b s') :
    Exec W (p >>= f) s (tr₁ ++ tr₂) b s' := by
  induction h₁ with
  | ret a s => exact h₂
  | call ha _ ih => exact .call ha (ih h₂)
  | drift hd _ ih => exact .drift hd (ih h₂)

/-- A program that returns at once. -/
theorem Meets.ret {a : α} (stable : W.Stable P) (h : ∀ s, P s → Q a s) :
    Meets W P (.ret a) Q := by
  intro s tr b s' hs hexec
  obtain ⟨rfl, hs'⟩ := Exec.ret_of_stable stable hexec hs
  exact h s' hs'

/-- **A call**: `M` says what holds once it has been answered. -/
theorem Meets.call {e : E} {k : R e → Prog E R α} {M : R e → σ → Prop} (stable : W.Stable P)
    (answer : ∀ s r s', P s → W.Answer s e r s' → M r s') (rest : ∀ r, Meets W (M r) (k r) Q) :
    Meets W P (.call e k) Q := by
  intro s tr a s' hs hexec
  obtain ⟨r, s₀, s₁, tr', hs₀, ha, h⟩ := Exec.call_of_stable stable hexec hs
  exact rest r s₁ tr' a s' (answer s₀ r s₁ hs₀ ha) h

/-- A call at the start of a block. -/
theorem Meets.call_bind {e : E} {f : R e → Prog E R α} {M : R e → σ → Prop} (stable : W.Stable P)
    (answer : ∀ s r s', P s → W.Answer s e r s' → M r s') (rest : ∀ r, Meets W (M r) (f r) Q) :
    Meets W P (.call e .ret >>= f) Q :=
  Meets.call stable answer rest

/-- One call and nothing else, where nobody else moves. -/
theorem Meets.one {e : E} {M : R e → σ → Prop} (quiet : ∀ s s', ¬ W.Drift s s')
    (answer : ∀ s r s', P s → W.Answer s e r s' → M r s') : Meets W P (.call e .ret) M :=
  Meets.call (fun s s' _ hd => absurd hd (quiet s s')) answer fun _ =>
    Meets.ret (fun s s' _ hd => absurd hd (quiet s s')) fun _ hs => hs

/-- **Two programs in turn**: `M` says what holds in between. -/
theorem Meets.bind {p : Prog E R α} {f : α → Prog E R β} {M : α → σ → Prop} {Q : β → σ → Prop}
    (first : Meets W P p M) (rest : ∀ a, Meets W (M a) (f a) Q) : Meets W P (p >>= f) Q := by
  intro s tr b s' hs hexec
  obtain ⟨tr₁, tr₂, a, s₁, -, h₁, h₂⟩ := Exec.bind_inv hexec
  exact rest a s₁ tr₂ b s' (first s tr₁ a s₁ hs h₁) h₂

/-- A branch, with the test at hand in both arms. -/
theorem Meets.ite {c : Prop} [Decidable c] {p q : Prog E R α} (yes : c → Meets W P p Q)
    (no : ¬ c → Meets W P q Q) : Meets W P (if c then p else q) Q := by
  split
  · exact yes ‹_›
  · exact no ‹_›

/-- A fact that is not about the state. -/
theorem Meets.of_fact {φ : Prop} {p : Prog E R α} (h : φ → Meets W P p Q) :
    Meets W (fun s => φ ∧ P s) p Q :=
  fun s tr a s' hs hexec => h hs.1 s tr a s' hs.2 hexec

/-- A value that only the precondition knows. -/
theorem Meets.of_exists {ι : Type} {P : ι → σ → Prop} {p : Prog E R α}
    (h : ∀ i, Meets W (P i) p Q) : Meets W (fun s => ∃ i, P i s) p Q := by
  rintro s tr a s' ⟨i, hs⟩ hexec
  exact h i s tr a s' hs hexec

/-- A program that only makes calls that keep `P`. -/
theorem Meets.of_onlyCalls {C : E → Prop} {p : Prog E R α} (hp : p.OnlyCalls C)
    (stable : W.Stable P) (keeps : ∀ e, C e → ∀ s r s', P s → W.Answer s e r s' → P s') :
    Meets W P p fun _ => P := by
  induction p with
  | ret a => exact Meets.ret stable fun _ hs => hs
  | call e k ih => exact Meets.call stable (keeps e hp.1) fun r => ih r (hp.2 r)

/-- One state at a time. -/
theorem Meets.of_each {p : Prog E R α} (h : ∀ s, P s → Meets W (· = s) p Q) : Meets W P p Q :=
  fun s tr a s' hs hexec => h s hs s tr a s' rfl hexec

theorem Meets.pre {p : Prog E R α} (h : Meets W P p Q) (hP : ∀ s, P' s → P s) : Meets W P' p Q :=
  fun s tr a s' hs hexec => h s tr a s' (hP s hs) hexec

theorem Meets.mono {p : Prog E R α} (h : Meets W P p Q) (pre : ∀ s, P' s → P s)
    (post : ∀ a s, Q a s → Q' a s) : Meets W P' p Q' :=
  fun s tr a s' hs hexec => post a s' (h s tr a s' (pre s hs) hexec)

end Prog

end LibrePortable.Lib
