import LibrePortable.Win.PollRuns

/-!
# The times are `int`s

The loop works out what is left, the slice in microseconds, and the time spent so far,
all in signed `int`s. The time spent is added up even when nobody asks for it, so an
infinite wait that stays idle for 24 days runs out of them; and a timeout that makes no
sense is multiplied before it is looked at.
-/

namespace LibrePortable.Win.Poll

open LibrePortable.Win

variable {H : Header} {env : Env} {su : Setup} {pfds : List Pollfd} {T : Int}

/-- The values of an `int`. -/
def InInt (x : Int) : Prop := -2147483648 ≤ x ∧ x ≤ 2147483647

instance (x : Int) : Decidable (InInt x) := inferInstanceAs (Decidable (_ ∧ _))

/-- What pass `k` computes: `timeout_ms - timespent_ms`, `looptime_ms * 1000` and
`timespent_ms + looptime_ms`. -/
def passInts (env : Env) (su : Setup) (T : Int) (k : Nat) (st : LoopState) : List Int :=
  (if T ≠ -1 then [T - st.timespent] else []) ++
    -- a pass that returns or breaks does not get to the last of the three
    slice T st * 1000 ::
      if (pass env su T k st).ended = .idle then [st.timespent + slice T st] else []

/-- What the loop computes from pass `k` on. -/
def loopInts (env : Env) (su : Setup) (T : Int) : Nat → Nat → LoopState → List Int
  | 0, _, _ => []
  | fuel + 1, k, st =>
      let ps := pass env su T k st
      passInts env su T k st ++
        match ps.ended with
        | .error _ => []
        | .stop => []
        | .idle =>
            if T = -1 ∨ ps.state.timespent < T then loopInts env su T fuel (k + 1) ps.state else []

/-- What `poll` computes. -/
def pollInts (H : Header) (env : Env) (pfds : Option (List Pollfd)) (T : Int) (fuel : Nat) :
    List Int :=
  match pfds with
  | none => []
  | some pfds =>
    if pfds.length ≤ 0 then []
    else
      match setUp H env 0 pfds .empty with
      | none => []
      | some su => loopInts env su T fuel 0 (.start su T)

/-- Nothing that `poll` computes is out of range, however long it runs. -/
def NoOverflow (H : Header) (env : Env) (pfds : List Pollfd) (T : Int) : Prop :=
  ∀ fuel, ∀ x ∈ pollInts H env (some pfds) T fuel, InInt x

/-! ## Which values there are -/

theorem pass_idle_iff {k : Nat} {st : LoopState} :
    (pass env su T k st).ended = .idle ↔ Idle env su k := by
  constructor
  · intro h
    refine ⟨fun hw => ?_, fun hs => ?_, fun hk => ?_⟩
    · rw [(pass_of_fails hw T st).2] at h; cases h
    · by_cases hw : WaitFails env su k
      · rw [(pass_of_fails hw T st).2] at h; cases h
      · rw [(pass_of_selectFails hw hs T st).2] at h; cases h
    · by_cases hw : WaitFails env su k
      · rw [(pass_of_fails hw T st).2] at h; cases h
      by_cases hs : SelectFails env su k
      · rw [(pass_of_selectFails hw hs T st).2] at h; cases h
      · rw [pass_of_wakes hw hs hk] at h; cases h
  · intro hi
    rw [pass_of_idle hi]

/-- **The values of pass `k`.** -/
theorem mem_passInts {k : Nat} {st : LoopState} {x : Int} :
    x ∈ passInts env su T k st ↔ (T ≠ -1 ∧ x = T - st.timespent) ∨ x = slice T st * 1000
      ∨ (Idle env su k ∧ x = st.timespent + slice T st) := by
  unfold passInts
  rw [List.mem_append, List.mem_cons]
  have h1 : x ∈ (if T ≠ -1 then [T - st.timespent] else []) ↔ T ≠ -1 ∧ x = T - st.timespent := by
    split
    · rename_i hT; rw [List.mem_singleton]; exact ⟨fun h => ⟨hT, h⟩, fun h => h.2⟩
    · rename_i hT; exact ⟨fun h => absurd h List.not_mem_nil, fun h => absurd h.1 hT⟩
  have h2 : x ∈ (if (pass env su T k st).ended = .idle then [st.timespent + slice T st] else [])
      ↔ Idle env su k ∧ x = st.timespent + slice T st := by
    rw [← @pass_idle_iff env su T k st]
    split
    · rename_i hi; rw [List.mem_singleton]; exact ⟨fun h => ⟨hi, h⟩, fun h => h.2⟩
    · rename_i hi; exact ⟨fun h => absurd h List.not_mem_nil, fun h => absurd h.1 hi⟩
  rw [h1, h2]

theorem loopInts_goesOn {fuel k : Nat} (h : GoesOn env su T k) :
    loopInts env su T (fuel + 1) k (before env su T k) =
      passInts env su T k (before env su T k) ++
        loopInts env su T fuel (k + 1) (before env su T (k + 1)) := by
  rw [loopInts, pass_of_idle h.1]
  exact congrArg _ (if_pos h.2)

theorem loopInts_last {fuel k : Nat} (h : ¬ GoesOn env su T k) :
    loopInts env su T (fuel + 1) k (before env su T k) =
      passInts env su T k (before env su T k) := by
  rw [loopInts]
  by_cases hi : Idle env su k
  · rw [pass_of_idle hi]
    exact (congrArg _ (if_neg fun hl => h ⟨hi, hl⟩)).trans (List.append_nil _)
  · have hne : (pass env su T k (before env su T k)).ended ≠ .idle :=
      fun hc => hi (pass_idle_iff.mp hc)
    cases hend : (pass env su T k (before env su T k)).ended with
    | error e => exact List.append_nil _
    | stop => exact List.append_nil _
    | idle => exact absurd hend hne

/-- The values of a loop are those of the passes it gets to. -/
theorem mem_loopInts {x : Int} : ∀ {fuel i : Nat}, Reached env su T i →
    (x ∈ loopInts env su T fuel i (before env su T i) ↔
      ∃ k, i ≤ k ∧ k < i + fuel ∧ Reached env su T k ∧ x ∈ passInts env su T k (before env su T k))
    := by
  intro fuel
  induction fuel with
  | zero =>
      intro i _
      constructor
      · intro h; exact absurd h List.not_mem_nil
      · rintro ⟨k, hik, hki, -⟩; omega
  | succ fuel ih =>
      intro i hi
      by_cases hgo : GoesOn env su T i
      · rw [loopInts_goesOn hgo, List.mem_append, ih (hi.succ hgo)]
        constructor
        · intro hcase
          rcases hcase with h | ⟨k, hik, hki, hk⟩
          · exact ⟨i, Nat.le_refl i, by omega, hi, h⟩
          · exact ⟨k, by omega, by omega, hk⟩
        · intro hex
          obtain ⟨k, hik, hki, hk, hx⟩ := hex
          rcases Nat.eq_or_lt_of_le hik with rfl | hlt
          · exact Or.inl hx
          · exact Or.inr ⟨k, hlt, by omega, hk, hx⟩
      · rw [loopInts_last hgo]
        constructor
        · intro h; exact ⟨i, Nat.le_refl i, by omega, hi, h⟩
        · intro hex
          obtain ⟨k, hik, -, hk, hx⟩ := hex
          rcases Nat.eq_or_lt_of_le hik with rfl | hlt
          · exact hx
          · exact absurd (hk i hlt) hgo

/-- **The values of a poll** whose set-up pass does not give up. -/
theorem noOverflow_iff_passes (hne : pfds ≠ []) (hsu : setUp H env 0 pfds .empty = some su) :
    NoOverflow H env pfds T ↔ ∀ k, Reached env su T k →
      ∀ x ∈ passInts env su T k (before env su T k), InInt x := by
  have hlen : ¬ pfds.length ≤ 0 := fun h => hne (List.length_eq_zero_iff.mp (by omega))
  have hints : ∀ fuel, pollInts H env (some pfds) T fuel =
      loopInts env su T fuel 0 (.start su T) := by
    intro fuel
    unfold pollInts
    dsimp only
    rw [if_neg hlen, hsu]
  have hmem : ∀ fuel x, x ∈ loopInts env su T fuel 0 (.start su T) ↔ ∃ k, 0 ≤ k ∧ k < 0 + fuel ∧
      Reached env su T k ∧ x ∈ passInts env su T k (before env su T k) :=
    fun fuel x => mem_loopInts (reached_zero env su T)
  constructor
  · intro h k hk x hx
    refine h (k + 1) x ?_
    rw [hints, hmem]
    exact ⟨k, Nat.zero_le k, by omega, hk, hx⟩
  · intro h fuel x hx
    rw [hints, hmem] at hx
    obtain ⟨k, -, -, hk, hx⟩ := hx
    exact h k hk x hx

/-! ## When none is out of range -/

/-- The first so many passes of an infinite wait are reached if they are idle. -/
theorem reached_of_idle {n : Nat} (h : ∀ k < n, Idle env su k) : Reached env su (-1) n :=
  fun k hk => ⟨h k hk, Or.inl rfl⟩

/-- Idle passes an infinite wait can count: in the last of them the time spent overflows. -/
def idleLimit : Nat := 21474837

/-- One pass of a poll with a timeout that makes sense. -/
theorem passInts_inInt {k : Nat} (hT : InInt T) (hlow : -2147483 ≤ T) (hk : Reached env su T k)
    (hcount : T = -1 → Idle env su k → k + 1 < idleLimit) {x : Int}
    (hx : x ∈ passInts env su T k (before env su T k)) : InInt x := by
  have hspent := hk.onTime.timespent
  have hsl := slice_onTime hk.onTime
  unfold InInt at hT ⊢
  unfold idleLimit at hcount
  rw [mem_passInts, hspent] at hx
  have hinf : T = -1 ∨ (T ≠ -1 ∧ slice T (before env su T k) = min 100 (T - 100 * k)) := by
    by_cases h1 : T = -1
    · exact Or.inl h1
    · rw [if_neg h1] at hsl; exact Or.inr ⟨h1, hsl⟩
  rcases hinf with rfl | ⟨hne, hmin⟩
  · -- an infinite wait: the slice is 100 ms, and only the time spent can grow
    rw [if_pos rfl] at hsl
    rw [hsl] at hx
    rcases hx with ⟨hne, -⟩ | rfl | ⟨hi, rfl⟩
    · exact absurd rfl hne
    · omega
    · have := hcount rfl hi
      omega
  · -- any other: what is left bounds the slice, and a later pass has some time left
    rw [hmin] at hx
    rcases hk.onTime.inTime with hk0 | hk0 | hk0
    · rcases hx with ⟨-, rfl⟩ | rfl | ⟨-, rfl⟩ <;> omega
    · exact absurd hk0 hne
    · rcases hx with ⟨-, rfl⟩ | rfl | ⟨-, rfl⟩ <;> omega

/--
**When no `int` overflows.**

The timeout must not be below -2147483 ms, and an infinite wait must find something, or
fail, before it has been idle for 21474837 passes. Nothing is computed for an array that is
empty, or has too many entries of one kind.
-/
theorem noOverflow_iff (hT : InInt T) : NoOverflow H env pfds T ↔
    (pfds ≠ [] → ∀ su, setUp H env 0 pfds .empty = some su →
      -2147483 ≤ T ∧ (T = -1 → ∃ k < idleLimit, ¬ Idle env su k)) := by
  constructor
  · intro h hne su hsu
    have hpass := (noOverflow_iff_passes hne hsu).mp h
    constructor
    · -- the first slice is the timeout itself
      have h0 := hpass 0 (reached_zero env su T) _ (mem_passInts.mpr (Or.inr (Or.inl rfl)))
      have hsl := slice_onTime (onTime_start su T)
      have hb : before env su T 0 = .start su T := rfl
      rw [hb, hsl] at h0
      unfold InInt at h0
      split_ifs at h0 <;> omega
    · intro heq
      subst heq
      by_contra hall
      push Not at hall
      -- otherwise the wait gets to the pass in which the time spent overflows
      have hk : Reached env su (-1) (idleLimit - 1) :=
        reached_of_idle fun k hk => hall k (by unfold idleLimit at hk ⊢; omega)
      have hi : Idle env su (idleLimit - 1) := hall _ (by decide)
      have hx := hpass _ hk _ (mem_passInts.mpr (Or.inr (Or.inr ⟨hi, rfl⟩)))
      have hsl := slice_onTime hk.onTime
      rw [hk.onTime.timespent, hsl, if_pos rfl] at hx
      unfold InInt idleLimit at hx
      omega
  · intro h
    by_cases hne : pfds = []
    · subst hne
      intro fuel x hx
      exact absurd hx List.not_mem_nil
    cases hsu : setUp H env 0 pfds .empty with
    | none =>
        intro fuel x hx
        have hlen : ¬ pfds.length ≤ 0 := fun h => hne (List.length_eq_zero_iff.mp (by omega))
        unfold pollInts at hx
        dsimp only at hx
        rw [if_neg hlen, hsu] at hx
        exact absurd hx List.not_mem_nil
    | some su =>
        obtain ⟨hlow, hinf⟩ := h hne su hsu
        rw [noOverflow_iff_passes hne hsu]
        intro k hk x hx
        refine passInts_inInt hT hlow hk (fun hinf' hi => ?_) hx
        obtain ⟨j, hj, hidle⟩ := hinf hinf'
        -- the pass that is not idle comes later
        have hkj : k < j := by
          by_contra hle
          rcases Nat.eq_or_lt_of_le (Nat.le_of_not_lt hle) with rfl | hlt
          · exact hidle hi
          · exact hidle (hk j hlt).1
        omega

theorem noOverflow_iff_second :
    NoOverflow .compat (.still (fun _ => true) waitTimeout) [⟨5, 0x001, 0⟩] 1000 ↔
      (([⟨5, 0x001, 0⟩] : List Pollfd) ≠ [] → ∀ su,
        setUp .compat (.still (fun _ => true) waitTimeout) 0 [⟨5, 0x001, 0⟩] .empty = some su →
          -2147483 ≤ (1000 : Int) ∧ ((1000 : Int) = -1 →
            ∃ k < idleLimit, ¬ Idle (.still (fun _ => true) waitTimeout) su k)) :=
  noOverflow_iff (by decide)

/-- **An idle socket and the smallest `int`**: the slice is multiplied out of range. -/
theorem pollInts_smallest : InInt (-2147483648)
    ∧ ¬ NoOverflow .compat (.still (fun _ => true) waitTimeout) [⟨5, 0x001, 0⟩] (-2147483648) := by
  refine ⟨by decide, fun h => ?_⟩
  have hmem : -2147483648000 ∈ pollInts .compat (.still (fun _ => true) waitTimeout)
      (some [⟨5, 0x001, 0⟩]) (-2147483648) 1 := by decide
  exact absurd (h 1 _ hmem) (by decide)

end LibrePortable.Win.Poll
