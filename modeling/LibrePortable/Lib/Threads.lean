import Mathlib.Logic.Function.Basic
import LibrePortable.Lib.Prog
import LibrePortable.Lib.Transition

/-!
# Threads that call shared functions

Any number of threads, each running one function at a time over a state they share. One
call of a function's program is one atomic step, and a call with no answer in the present
state is a thread that waits. A history is what can be observed of a run from its start:
who began which function, who made which call, who got which result.
-/

namespace LibrePortable.Lib

/-! ## Histories -/

namespace Lts

variable {σ ε : Type} {M : Lts σ ε}

/-- `History M es s`: a run from a start to `s` showed `es`. -/
inductive History (M : Lts σ ε) : List ε → σ → Prop where
  | init {s : σ} : M.Init s → History M [] s
  | tail {es : List ε} {s s' : σ} {e : ε} : History M es s → M.Step s e s' →
      History M (es ++ [e]) s'

/-- **The invariant rule, with the history at hand.** -/
theorem History.invariant {I : List ε → σ → Prop} (init : ∀ s, M.Init s → I [] s)
    (step : ∀ es s e s', I es s → M.Step s e s' → I (es ++ [e]) s') {es : List ε} {s : σ}
    (h : History M es s) : I es s := by
  induction h with
  | init h => exact init _ h
  | tail _ hs ih => exact step _ _ _ _ ih hs

end Lts

/-- `AtEvery P es`: wherever an event stands in `es`, `P` holds of what came before and it. -/
def AtEvery {ε : Type} (P : List ε → ε → Prop) (es : List ε) : Prop :=
  ∀ pre e post, es = pre ++ e :: post → P pre e

theorem AtEvery.nil {ε : Type} {P : List ε → ε → Prop} : AtEvery P [] := by
  intro pre e post h
  cases pre <;> cases h

theorem AtEvery.snoc {ε : Type} {P : List ε → ε → Prop} {es : List ε} {e : ε}
    (h : AtEvery P es) (he : P es e) : AtEvery P (es ++ [e]) := by
  intro pre e' post heq
  rcases List.eq_nil_or_concat post with rfl | ⟨post, e'', rfl⟩
  · obtain ⟨rfl, hlast⟩ := List.append_inj' heq rfl
    cases hlast
    exact he
  · have heq : es ++ [e] = (pre ++ e' :: post) ++ [e''] := by
      rw [heq, List.append_assoc, List.cons_append, List.concat_eq_append]
    obtain ⟨hes, -⟩ := List.append_inj' heq rfl
    exact h pre e' post hes

/-- What holds of each step, given how it came about, holds at every event. -/
theorem Lts.History.atEvery {σ ε : Type} {M : Lts σ ε} {P : List ε → ε → Prop}
    (step : ∀ es s e s', M.History es s → M.Step s e s' → P es e) {es : List ε} {s : σ}
    (h : M.History es s) : AtEvery P es := by
  induction h with
  | init => exact AtEvery.nil
  | tail h hs ih => exact ih.snoc (step _ _ _ _ h hs)

/-! ## Threads -/

/-- Functions that threads call, and how the calls those make are answered. -/
structure Threads (Tid E : Type) (R : E → Type) (Op α σ : Type) where
  Init : σ → Prop
  program : Op → Prog E R α
  Answers : σ → Tid → (e : E) → R e → σ → Prop

namespace Threads

variable {Tid E : Type} {R : E → Type} {Op α σ : Type} (T : Threads Tid E R Op α σ)

/-- What can be observed. -/
inductive Shown (Tid E : Type) (R : E → Type) (Op α : Type) where
  | begin (t : Tid) (op : Op)
  | act (t : Tid) (e : E) (r : R e)
  | done (t : Tid) (op : Op) (a : α)

/-- The thread that moves. -/
def Shown.thread : Shown Tid E R Op α → Tid
  | .begin t _ | .act t _ _ | .done t _ _ => t

/-- What is shared, and what each thread is in the middle of. -/
structure State (Tid E : Type) (R : E → Type) (Op α σ : Type) where
  shared : σ
  doing : Tid → Option (Op × Prog E R α)

variable [DecidableEq Tid]

/-- Thread `t` goes on with `next`. -/
def State.goto (s : State Tid E R Op α σ) (m : σ) (t : Tid) (next : Option (Op × Prog E R α)) :
    State Tid E R Op α σ :=
  ⟨m, Function.update s.doing t next⟩

@[simp] theorem State.goto_self (s : State Tid E R Op α σ) (m : σ) (t : Tid)
    (next : Option (Op × Prog E R α)) : (s.goto m t next).doing t = next :=
  Function.update_self ..

theorem State.goto_ne (s : State Tid E R Op α σ) (m : σ) {t u : Tid} (h : u ≠ t)
    (next : Option (Op × Prog E R α)) : (s.goto m t next).doing u = s.doing u :=
  Function.update_of_ne h ..

/-- One step of one thread. -/
inductive Step : State Tid E R Op α σ → Shown Tid E R Op α → State Tid E R Op α σ → Prop where
  | begin {s : State Tid E R Op α σ} {t : Tid} (op : Op) : s.doing t = none →
      Step s (.begin t op) (s.goto s.shared t (some (op, T.program op)))
  | act {s : State Tid E R Op α σ} {t : Tid} {op : Op} {e : E} {k : R e → Prog E R α} {r : R e}
      {m : σ} : s.doing t = some (op, .call e k) → T.Answers s.shared t e r m →
      Step s (.act t e r) (s.goto m t (some (op, k r)))
  | done {s : State Tid E R Op α σ} {t : Tid} {op : Op} {a : α} : s.doing t = some (op, .ret a) →
      Step s (.done t op a) (s.goto s.shared t none)

/-- Every interleaving of the threads' calls. -/
def interleaved : Lts (State Tid E R Op α σ) (Shown Tid E R Op α) where
  Init s := T.Init s.shared ∧ ∀ t, s.doing t = none
  Step := T.Step

section EachThread

variable {T} {es : List (Shown Tid E R Op α)} {e : Shown Tid E R Op α}
  {s s' : State Tid E R Op α σ}

/-- A step leaves the other threads where they are. -/
theorem Step.doing_ne (h : T.Step s e s') {t : Tid} (ht : t ≠ e.thread) :
    s'.doing t = s.doing t := by
  cases h with
  | begin | act | done => exact State.goto_ne _ _ ht _

/-- What each thread knows of the past and the present holds in every run, if the thread's
own steps keep it and the steps of others do. -/
theorem each_thread {I : List (Shown Tid E R Op α) → State Tid E R Op α σ → Tid → Prop}
    (init : ∀ s, T.interleaved.Init s → ∀ t, I [] s t)
    (self : ∀ es s e s', I es s e.thread → T.Step s e s' → I (es ++ [e]) s' e.thread)
    (others : ∀ es s e s' t, I es s t → t ≠ e.thread → T.Step s e s' → I (es ++ [e]) s' t)
    (h : T.interleaved.History es s) (t : Tid) : I es s t := by
  induction h with
  | init h => exact init _ h t
  | @tail es s s' e _ hs ih =>
      by_cases ht : t = e.thread
      · subst ht
        exact self es s e s' ih hs
      · exact others es s e s' t ih ht hs

/-- What thread `t` itself has shown. -/
def own (t : Tid) (es : List (Shown Tid E R Op α)) : List (Shown Tid E R Op α) :=
  es.filter fun e => e.thread = t

theorem own_self : own e.thread (es ++ [e]) = own e.thread es ++ [e] := by
  simp [own]

theorem own_ne {t : Tid} (h : t ≠ e.thread) : own t (es ++ [e]) = own t es := by
  simp [own, Ne.symm h]

/-- What it has shown last is followed by what it shows now. -/
theorem suffix_own {last : List (Shown Tid E R Op α)} (h : last <:+ own e.thread es) :
    last ++ [e] <:+ own e.thread (es ++ [e]) := by
  obtain ⟨pre, hpre⟩ := h
  exact ⟨pre, by rw [own_self, ← hpre, List.append_assoc]⟩

end EachThread

/-! ## Functions that make one call -/

section OneCall

variable {T} {c : Op → E} {f : (op : Op) → R (c op) → α}
  {es : List (Shown Tid E R Op α)} {e : Shown Tid E R Op α} {s s' : State Tid E R Op α σ}

/-- What thread `t` has shown since it began `op`. -/
def Begun (es : List (Shown Tid E R Op α)) (t : Tid) (op : Op) : Prop :=
  ∃ pre mid, es = pre ++ .begin t op :: mid ∧ ∀ e ∈ mid, e.thread ≠ t

/-- Since it began `op`, thread `t` has made its one call, which `r` answered. -/
def Called (c : Op → E) (es : List (Shown Tid E R Op α)) (t : Tid) (op : Op) (r : R (c op)) :
    Prop :=
  ∃ pre mid, es = pre ++ .act t (c op) r :: mid ∧ Begun pre t op ∧ ∀ e ∈ mid, e.thread ≠ t

/-- **A function takes effect at one moment between its beginning and its return.** -/
def AtOnce (c : Op → E) (f : (op : Op) → R (c op) → α) (pre : List (Shown Tid E R Op α))
    (e : Shown Tid E R Op α) : Prop :=
  ∀ t op a, e = .done t op a → ∃ r, a = f op r ∧ Called c pre t op r

/-- Where thread `t` can be. -/
inductive Stands (T : Threads Tid E R Op α σ) (c : Op → E) (f : (op : Op) → R (c op) → α)
    (es : List (Shown Tid E R Op α)) (s : State Tid E R Op α σ) (t : Tid) : Prop where
  | out : s.doing t = none → Stands T c f es s t
  | begun {op : Op} : s.doing t = some (op, T.program op) → Begun es t op → Stands T c f es s t
  | called {op : Op} {r : R (c op)} : s.doing t = some (op, .ret (f op r)) → Called c es t op r →
      Stands T c f es s t

omit [DecidableEq Tid] in
theorem Begun.snoc {t : Tid} {op : Op} (h : Begun es t op) (he : e.thread ≠ t) :
    Begun (es ++ [e]) t op := by
  obtain ⟨pre, mid, rfl, hmid⟩ := h
  refine ⟨pre, mid ++ [e], by rw [List.append_assoc, List.cons_append], fun e' he' => ?_⟩
  rcases List.mem_append.mp he' with h | h
  · exact hmid e' h
  · rw [List.mem_singleton.mp h]
    exact he

omit [DecidableEq Tid] in
theorem Called.snoc {t : Tid} {op : Op} {r : R (c op)} (h : Called c es t op r)
    (he : e.thread ≠ t) : Called c (es ++ [e]) t op r := by
  obtain ⟨pre, mid, rfl, hpre, hmid⟩ := h
  refine ⟨pre, mid ++ [e], by rw [List.append_assoc, List.cons_append], hpre, fun e' he' => ?_⟩
  rcases List.mem_append.mp he' with h | h
  · exact hmid e' h
  · rw [List.mem_singleton.mp h]
    exact he

omit [DecidableEq Tid] in
/-- What another thread does leaves `t` where it stands. -/
theorem Stands.snoc {t : Tid} (h : Stands T c f es s t) (he : e.thread ≠ t)
    (hs : s'.doing t = s.doing t) : Stands T c f (es ++ [e]) s' t := by
  cases h with
  | out h => exact .out (hs.trans h)
  | begun h hb => exact .begun (hs.trans h) (hb.snoc he)
  | called h hc => exact .called (hs.trans h) (hc.snoc he)

variable (hone : ∀ op, T.program op = .call (c op) fun r => .ret (f op r))
include hone

theorem stands_step (hst : ∀ t, Stands T c f es s t) (h : T.Step s e s') :
    (∀ t, Stands T c f (es ++ [e]) s' t) ∧ AtOnce c f es e := by
  have hself : Stands T c f (es ++ [e]) s' e.thread ∧ AtOnce c f es e := by
    cases h with
    | @begin t op hout =>
        exact ⟨.begun (State.goto_self ..) ⟨es, [], rfl, nofun⟩, nofun⟩
    | @act t op e k r m hdo hans =>
        cases hst t with
        | out hout => rw [hout] at hdo; cases hdo
        | called hret _ => rw [hret] at hdo; cases hdo
        | begun hbegun hb =>
            rw [hbegun, hone] at hdo
            cases hdo
            exact ⟨.called (State.goto_self ..) ⟨es, [], rfl, hb, nofun⟩, nofun⟩
    | @done t op a hdo =>
        refine ⟨.out (State.goto_self ..), fun u op' a' heq => ?_⟩
        cases heq
        cases hst t with
        | out hout => rw [hout] at hdo; cases hdo
        | begun hbegun _ => rw [hbegun, hone] at hdo; cases hdo
        | called hret hc =>
            rw [hret] at hdo
            cases hdo
            exact ⟨_, rfl, hc⟩
  refine ⟨fun u => ?_, hself.2⟩
  by_cases hu : u = e.thread
  · rw [hu]
    exact hself.1
  · exact (hst u).snoc (Ne.symm hu) (h.doing_ne hu)

/-- **Functions that make one call are atomic**, whatever the threads do. -/
theorem atOnce_history (h : T.interleaved.History es s) : AtEvery (AtOnce c f) es := by
  have hinv : (∀ t, Stands T c f es s t) ∧ AtEvery (AtOnce c f) es := by
    induction h with
    | init hinit => exact ⟨fun t => .out (hinit.2 t), AtEvery.nil⟩
    | tail _ hstep ih =>
        obtain ⟨hst, hat⟩ := stands_step hone ih.1 hstep
        exact ⟨hst, ih.2.snoc hat⟩
  exact hinv.2

/-- Whoever makes a call is about to return. -/
theorem made_step (hst : ∀ t, Stands T c f es s t) {t : Tid} {c₀ : E} {r₀ : R c₀}
    (h : T.Step s (.act t c₀ r₀) s') :
    ∃ op r, (.act t c₀ r₀ : Shown Tid E R Op α) = .act t (c op) r ∧
      s'.doing t = some (op, .ret (f op r)) := by
  cases h with
  | act hdo _ =>
      cases hst t with
      | out hout => rw [hout] at hdo; cases hdo
      | called hret _ => rw [hret] at hdo; cases hdo
      | begun hbegun _ =>
          rw [hbegun, hone] at hdo
          cases hdo
          exact ⟨_, _, rfl, State.goto_self ..⟩

omit hone in
/-- Whoever is about to return can do nothing else. -/
theorem return_step {t : Tid} {op : Op} {a : α} (hdo : s.doing t = some (op, .ret a))
    (h : T.Step s e s') : s'.doing t = some (op, .ret a) ∨ e = .done t op a := by
  by_cases ht : t = e.thread
  · right
    subst ht
    cases h with
    | begin op hout => cases hdo.symm.trans hout
    | act hdo' _ => cases hdo.symm.trans hdo'
    | done hdo' =>
        cases hdo.symm.trans hdo'
        rfl
  · left
    rw [← hdo]
    exact h.doing_ne ht

/-- A call that was made has been returned from, or its thread is about to return. -/
def Answered (c : Op → E) (f : (op : Op) → R (c op) → α) (s : State Tid E R Op α σ) (t : Tid)
    (c₀ : E) (r₀ : R c₀) (post : List (Shown Tid E R Op α)) : Prop :=
  ∃ op r, (.act t c₀ r₀ : Shown Tid E R Op α) = .act t (c op) r ∧
    (s.doing t = some (op, .ret (f op r)) ∨ .done t op (f op r) ∈ post)

/-- **Every call is returned from**, unless its thread is still inside. -/
theorem answered_history (h : T.interleaved.History es s) {t : Tid} {c₀ : E} {r₀ : R c₀} :
    ∀ pre post, es = pre ++ .act t c₀ r₀ :: post → Answered c f s t c₀ r₀ post := by
  have hinv : (∀ t, Stands T c f es s t) ∧
      ∀ pre post, es = pre ++ .act t c₀ r₀ :: post → Answered c f s t c₀ r₀ post := by
    induction h with
    | init hinit =>
        refine ⟨fun t => .out (hinit.2 t), fun pre post hes => ?_⟩
        cases pre <;> cases hes
    | @tail es s s' e _ hstep ih =>
        refine ⟨(stands_step hone ih.1 hstep).1, fun pre post hes => ?_⟩
        rcases List.eq_nil_or_concat post with rfl | ⟨post, e', rfl⟩
        · obtain ⟨rfl, hlast⟩ := List.append_inj' hes rfl
          cases hlast
          obtain ⟨op, r, hact, hdo⟩ := made_step hone ih.1 hstep
          exact ⟨op, r, hact, Or.inl hdo⟩
        · rw [List.concat_eq_append, ← List.cons_append, ← List.append_assoc] at hes
          obtain ⟨hpre, hlast⟩ := List.append_inj' hes rfl
          cases hlast
          obtain ⟨op, r, hact, hdo | hmem⟩ := ih.2 pre post hpre
          · rcases return_step hdo hstep with hdo | rfl
            · exact ⟨op, r, hact, Or.inl hdo⟩
            · exact ⟨op, r, hact, Or.inr (by simp)⟩
          · exact ⟨op, r, hact, Or.inr (by simp [hmem])⟩
  exact hinv.2

end OneCall

end Threads

end LibrePortable.Lib
