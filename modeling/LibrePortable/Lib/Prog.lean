import Mathlib.Logic.Relation

/-!
# Programs that call their surroundings

A C function that goes through the operating system is a tree: at every node it
either returns or makes one call and continues with whatever answer comes back.
`Prog E R α` is that tree, for an alphabet of calls `E` whose answers have the
types `R`. Nothing here says what the calls mean. That is supplied in one of
two ways:

* `Runs` lets every call be answered by anything at all, and records the calls
  and their answers as a trace;
* `Exec` runs the program inside `Surroundings`, which keep a state, restrict the
  answers, and may move on their own between any two calls.
-/

namespace LibrePortable.Lib

/-- A program making calls `e : E`, each answered by an `R e`. -/
inductive Prog (E : Type) (R : E → Type) (α : Type) : Type where
  | ret (a : α) : Prog E R α
  | call (e : E) (k : R e → Prog E R α) : Prog E R α

/-- One call together with the answer it got. -/
abbrev Event (E : Type) (R : E → Type) : Type := (e : E) × R e

namespace Prog

variable {E : Type} {R : E → Type} {α β : Type}

/-- Run `p`, then continue with what it returned. -/
def bind : Prog E R α → (α → Prog E R β) → Prog E R β
  | .ret a, f => f a
  | .call e k, f => .call e (fun r => (k r).bind f)

instance : Monad (Prog E R) where
  pure := .ret
  bind := Prog.bind

@[simp] theorem bind_call (e : E) (k : R e → Prog E R α) (f : α → Prog E R β) :
    (Prog.call e k >>= f) = .call e (fun r => k r >>= f) := rfl

theorem bind_bind {γ : Type} (p : Prog E R α) (f : α → Prog E R β) (g : β → Prog E R γ) :
    (p >>= f >>= g) = (p >>= fun a => f a >>= g) := by
  induction p with
  | ret a => rfl
  | call e k ih =>
      rw [bind_call, bind_call, bind_call]
      exact congrArg (Prog.call e) (funext ih)

/-! ## Every sequence of answers -/

/-- `Runs p tr a`: answering the calls of `p` as in `tr` makes it return `a`. -/
inductive Runs : Prog E R α → List (Event E R) → α → Prop where
  | ret (a : α) : Runs (.ret a) [] a
  | call {e : E} {k : R e → Prog E R α} {tr : List (Event E R)} {a : α} (r : R e) :
      Runs (k r) tr a → Runs (.call e k) (⟨e, r⟩ :: tr) a

@[simp] theorem runs_ret {a b : α} {tr : List (Event E R)} :
    Runs (.ret a : Prog E R α) tr b ↔ tr = [] ∧ b = a := by
  constructor
  · intro h; cases h; exact ⟨rfl, rfl⟩
  · rintro ⟨rfl, rfl⟩; exact .ret _

@[simp] theorem runs_call {e : E} {k : R e → Prog E R α} {tr : List (Event E R)} {a : α} :
    Runs (.call e k) tr a ↔ ∃ r tr', tr = ⟨e, r⟩ :: tr' ∧ Runs (k r) tr' a := by
  constructor
  · intro h
    cases h with
    | call r h => exact ⟨r, _, rfl, h⟩
  · rintro ⟨r, tr', rfl, h⟩; exact .call r h

/-- A run of two programs in turn is a run of each. -/
theorem Runs.bind_inv {p : Prog E R α} {f : α → Prog E R β} {tr : List (Event E R)} {b : β}
    (h : Runs (p >>= f) tr b) :
    ∃ tr₁ tr₂ a, tr = tr₁ ++ tr₂ ∧ Runs p tr₁ a ∧ Runs (f a) tr₂ b := by
  induction p generalizing tr with
  | ret a => exact ⟨[], tr, a, rfl, .ret a, h⟩
  | call e k ih =>
      obtain ⟨r, tr', rfl, h'⟩ := runs_call.mp h
      obtain ⟨tr₁, tr₂, a, rfl, h₁, h₂⟩ := ih r h'
      exact ⟨⟨e, r⟩ :: tr₁, tr₂, a, rfl, .call r h₁, h₂⟩

/-- A branch is taken. -/
theorem Runs.ite_inv {c : Prop} [Decidable c] {p q : Prog E R α} {tr : List (Event E R)} {a : α}
    (h : Runs (if c then p else q) tr a) : (c ∧ Runs p tr a) ∨ (¬ c ∧ Runs q tr a) := by
  split at h
  · exact Or.inl ⟨‹_›, h⟩
  · exact Or.inr ⟨‹_›, h⟩

/-- A program always has a run, if every call has an answer. -/
theorem exists_runs (answer : (e : E) → R e) (p : Prog E R α) : ∃ tr a, Runs p tr a := by
  induction p with
  | ret a => exact ⟨[], a, .ret a⟩
  | call e k ih =>
      obtain ⟨tr, a, h⟩ := ih (answer e)
      exact ⟨_, a, .call (answer e) h⟩

/-! ## The calls a program can make -/

/-- Whatever the answers, `p` only makes calls that satisfy `P`. -/
def OnlyCalls (P : E → Prop) : Prog E R α → Prop
  | .ret _ => True
  | .call e k => P e ∧ ∀ r, (k r).OnlyCalls P

theorem OnlyCalls.bind {P : E → Prop} {p : Prog E R α} {f : α → Prog E R β}
    (hp : p.OnlyCalls P) (hf : ∀ a, (f a).OnlyCalls P) : (p >>= f).OnlyCalls P := by
  induction p with
  | ret a => exact hf a
  | call e k ih => exact ⟨hp.1, fun r => ih r (hp.2 r)⟩

theorem OnlyCalls.mono {P Q : E → Prop} {p : Prog E R α} (hPQ : ∀ e, P e → Q e)
    (hp : p.OnlyCalls P) : p.OnlyCalls Q := by
  induction p with
  | ret a => trivial
  | call e k ih => exact ⟨hPQ e hp.1, fun r => ih r (hp.2 r)⟩

theorem OnlyCalls.ite {P : E → Prop} {c : Prop} [Decidable c] {p q : Prog E R α}
    (hp : p.OnlyCalls P) (hq : q.OnlyCalls P) : (if c then p else q).OnlyCalls P := by
  split
  · exact hp
  · exact hq

theorem OnlyCalls.runs {P : E → Prop} {p : Prog E R α} {tr : List (Event E R)} {a : α}
    (hp : p.OnlyCalls P) (h : Runs p tr a) : ∀ ev ∈ tr, P ev.1 := by
  induction h with
  | ret a => exact fun ev he => absurd he List.not_mem_nil
  | call r _ ih =>
      intro ev he
      rcases List.mem_cons.mp he with rfl | he
      · exact hp.1
      · exact ih (hp.2 r) ev he

end Prog

/-! ## Surroundings with a state -/

/-- What answers a program's calls: a state, the answers each state allows, and
the moves the state can make on its own between two calls. -/
structure Surroundings (E : Type) (R : E → Type) (σ : Type) where
  /-- `Answer s e r s'`: in state `s` the call `e` may be answered `r`, leading to `s'`. -/
  Answer : σ → (e : E) → R e → σ → Prop
  /-- Moves made by others. -/
  Drift : σ → σ → Prop

namespace Prog

variable {E : Type} {R : E → Type} {α : Type} {σ : Type}

/-- `Exec W p s tr a s'`: inside `W`, started in `s`, the program returns `a` and
leaves `s'` behind, having made the calls in `tr`; others move in between. -/
inductive Exec (W : Surroundings E R σ) :
    Prog E R α → σ → List (Event E R) → α → σ → Prop where
  | ret (a : α) (s : σ) : Exec W (.ret a) s [] a s
  | call {e : E} {k : R e → Prog E R α} {r : R e} {s s' s'' : σ} {tr : List (Event E R)} {a : α} :
      W.Answer s e r s' → Exec W (k r) s' tr a s'' → Exec W (.call e k) s (⟨e, r⟩ :: tr) a s''
  | drift {p : Prog E R α} {s s' s'' : σ} {tr : List (Event E R)} {a : α} :
      W.Drift s s' → Exec W p s' tr a s'' → Exec W p s tr a s''

/-- What happens inside surroundings is one of the runs the program has. -/
theorem Exec.runs {W : Surroundings E R σ} {p : Prog E R α} {s s' : σ}
    {tr : List (Event E R)} {a : α} (h : Exec W p s tr a s') : Runs p tr a := by
  induction h with
  | ret a s => exact .ret a
  | call _ _ ih => exact .call _ ih
  | drift _ _ ih => exact ih

/-- Surroundings that allow more have the same executions, and others. -/
theorem Exec.mono {W W' : Surroundings E R σ}
    (answer : ∀ {s e r s'}, W.Answer s e r s' → W'.Answer s e r s')
    (drift : ∀ {s s'}, W.Drift s s' → W'.Drift s s') {p : Prog E R α} {s s' : σ}
    {tr : List (Event E R)} {a : α} (h : Exec W p s tr a s') : Exec W' p s tr a s' := by
  induction h with
  | ret a s => exact .ret a s
  | call ha _ ih => exact .call (answer ha) ih
  | drift hd _ ih => exact .drift (drift hd) ih

/-- Where nobody else moves, a program that returns has changed nothing. -/
theorem Exec.ret_inv {W : Surroundings E R σ} (hd : ∀ s s', ¬ W.Drift s s') {a b : α}
    {s s' : σ} {tr : List (Event E R)} (h : Exec W (.ret a) s tr b s') :
    tr = [] ∧ b = a ∧ s' = s := by
  cases h with
  | ret _ _ => exact ⟨rfl, rfl, rfl⟩
  | drift h _ => exact absurd h (hd _ _)

/-- Where nobody else moves, the first thing to happen is the first call. -/
theorem Exec.call_inv {W : Surroundings E R σ} (hd : ∀ s s', ¬ W.Drift s s') {e : E}
    {k : R e → Prog E R α} {a : α} {s s' : σ} {tr : List (Event E R)}
    (h : Exec W (.call e k) s tr a s') :
    ∃ r s₁ tr', tr = ⟨e, r⟩ :: tr' ∧ W.Answer s e r s₁ ∧ Exec W (k r) s₁ tr' a s' := by
  cases h with
  | call ha h => exact ⟨_, _, _, rfl, ha, h⟩
  | drift h _ => exact absurd h (hd _ _)

/-- The same at the start of a block. -/
theorem Exec.call_bind_inv {W : Surroundings E R σ} (hd : ∀ s s', ¬ W.Drift s s') {β : Type} {e : E}
    {f : R e → Prog E R β} {b : β} {s s' : σ} {tr : List (Event E R)}
    (h : Exec W (.call e .ret >>= f) s tr b s') :
    ∃ r s₁ tr', tr = ⟨e, r⟩ :: tr' ∧ W.Answer s e r s₁ ∧ Exec W (f r) s₁ tr' b s' :=
  Exec.call_inv hd h

/-- Up to the first call only others move: what no drift can take away still holds
when it is answered. -/
theorem Exec.call_of_stable {W : Surroundings E R σ} {I : σ → Prop}
    (drift : ∀ s s', I s → W.Drift s s' → I s') {e : E} {k : R e → Prog E R α} {a : α} {s s' : σ}
    {tr : List (Event E R)} (h : Exec W (.call e k) s tr a s') (hi : I s) :
    ∃ r s₀ s₁ tr', I s₀ ∧ W.Answer s₀ e r s₁ ∧ Exec W (k r) s₁ tr' a s' := by
  generalize hp : Prog.call e k = p at h
  induction h with
  | ret _ _ => cases hp
  | call ha h _ => cases hp; exact ⟨_, _, _, _, hi, ha, h⟩
  | drift hd _ ih => exact ih (drift _ _ hi hd) hp

/-- After the last call only others move. -/
theorem Exec.ret_of_stable {W : Surroundings E R σ} {I : σ → Prop}
    (drift : ∀ s s', I s → W.Drift s s' → I s') {a b : α} {s s' : σ} {tr : List (Event E R)}
    (h : Exec W (.ret a) s tr b s') (hi : I s) : b = a ∧ I s' := by
  generalize hp : (Prog.ret a : Prog E R α) = p at h
  induction h with
  | ret _ _ => cases hp; exact ⟨rfl, hi⟩
  | call _ _ _ => cases hp
  | drift hd _ ih => exact ih (drift _ _ hi hd) hp

/-- One way to go on is enough for an execution to exist. -/
theorem Exec.exists_call {W : Surroundings E R σ} {e : E} {k : R e → Prog E R α} {r : R e}
    {s s₁ : σ} {a : α} (ha : W.Answer s e r s₁) (h : ∃ tr s', Exec W (k r) s₁ tr a s') :
    ∃ tr s', Exec W (.call e k) s tr a s' := by
  obtain ⟨tr, s', h⟩ := h
  exact ⟨_, s', .call ha h⟩

/-- A call at the start of a block. -/
theorem Exec.exists_call_bind {W : Surroundings E R σ} {β : Type} {e : E} {f : R e → Prog E R β}
    {r : R e} {s s₁ : σ} {a : β} (ha : W.Answer s e r s₁) (h : ∃ tr s', Exec W (f r) s₁ tr a s') :
    ∃ tr s', Exec W (.call e .ret >>= f) s tr a s' := Exec.exists_call ha h

/-- The same with the final state given. -/
theorem Exec.exists_call_to {W : Surroundings E R σ} {e : E} {k : R e → Prog E R α} {r : R e}
    {s s₁ s' : σ} {a : α} (ha : W.Answer s e r s₁) (h : ∃ tr, Exec W (k r) s₁ tr a s') :
    ∃ tr, Exec W (.call e k) s tr a s' := by
  obtain ⟨tr, h⟩ := h
  exact ⟨_, .call ha h⟩

theorem Exec.exists_drift {W : Surroundings E R σ} {p : Prog E R α} {s s₁ : σ} {a : α}
    (hd : W.Drift s s₁) (h : ∃ tr s', Exec W p s₁ tr a s') : ∃ tr s', Exec W p s tr a s' := by
  obtain ⟨tr, s', h⟩ := h
  exact ⟨tr, s', .drift hd h⟩

/-! ## Executions from a script -/

/-- Run `p` with `reply` to answer its calls, which looks at the state and at what is left of a
script. -/
def follow {κ : Type} (reply : κ → σ → (e : E) → Option (R e × σ × κ)) :
    Prog E R α → κ → σ → Option (α × σ)
  | .ret a, _, s => some (a, s)
  | .call e k, c, s =>
      match reply c s e with
      | none => none
      | some (r, s', c') => (k r).follow reply c' s'

/-- An execution may begin before others have moved. -/
theorem Exec.after {W : Surroundings E R σ} {p : Prog E R α} {s s₁ s' : σ} {tr : List (Event E R)}
    {a : α} (h : Exec W p s₁ tr a s') (hd : Relation.ReflTransGen W.Drift s s₁) :
    Exec W p s tr a s' := by
  induction hd using Relation.ReflTransGen.head_induction_on with
  | refl => exact h
  | head hd _ ih => exact .drift hd ih

/-- **What a script leads to is an execution**, if every reply is an answer, up to moves of
others. -/
theorem follow_exec {W : Surroundings E R σ} {κ : Type}
    {reply : κ → σ → (e : E) → Option (R e × σ × κ)}
    (sound : ∀ c s e r s' c', reply c s e = some (r, s', c') →
      ∃ s₁, Relation.ReflTransGen W.Drift s s₁ ∧ W.Answer s₁ e r s')
    {p : Prog E R α} {c : κ} {s s' : σ} {a : α} (h : p.follow reply c s = some (a, s')) :
    ∃ tr, Exec W p s tr a s' := by
  induction p generalizing c s with
  | ret b =>
      cases h
      exact ⟨[], .ret a s'⟩
  | call e k ih =>
      rw [follow] at h
      split at h
      · cases h
      · next r s₂ c' hreply =>
          obtain ⟨tr, hexec⟩ := ih r h
          obtain ⟨s₁, hdrift, hanswer⟩ := sound c s e r s₂ c' hreply
          exact ⟨_, (Exec.call hanswer hexec).after hdrift⟩

/-- A branch is taken. -/
theorem Exec.ite_inv {W : Surroundings E R σ} {c : Prop} [Decidable c] {p q : Prog E R α}
    {a : α} {s s' : σ} {tr : List (Event E R)} (h : Exec W (if c then p else q) s tr a s') :
    (c ∧ Exec W p s tr a s') ∨ (¬ c ∧ Exec W q s tr a s') := by
  split at h
  · exact Or.inl ⟨‹_›, h⟩
  · exact Or.inr ⟨‹_›, h⟩

end Prog

end LibrePortable.Lib
