import LibrePortable.Win.PollReturns

/-!
# The passes of one `poll`

Idle passes follow one another until one is not idle or the time is used up. What the
variables hold before pass `k` is therefore a function of `k`, and a `poll` is known
once its last pass is: `loop_eq_some_iff` says so for every timeout, also for the
negative ones that make the first pass the last.
-/

namespace LibrePortable.Win.Poll

open LibrePortable.Win

variable {H : Header} {env : Env} {su : Setup} {pfds : List Pollfd} {T : Int}

/-! ## Passes -/

/-- The variables before pass `k`, if the passes before it are idle. -/
def before (env : Env) (su : Setup) (T : Int) : Nat → LoopState
  | 0 => .start su T
  | k + 1 => idled env su T k (before env su T k)

/-- Pass `k` is idle and leaves time for another one. -/
def GoesOn (env : Env) (su : Setup) (T : Int) (k : Nat) : Prop :=
  Idle env su k ∧ TimeLeft T (before env su T (k + 1))

/-- The loop gets to pass `k`. -/
def Reached (env : Env) (su : Setup) (T : Int) (k : Nat) : Prop := ∀ j < k, GoesOn env su T j

/-- The loop gets to pass `k`, and no further. -/
def Last (env : Env) (su : Setup) (T : Int) (k : Nat) : Prop :=
  Reached env su T k ∧ ¬ GoesOn env su T k

/-- The calls of pass `k`. -/
def passLog (env : Env) (su : Setup) (T : Int) (k : Nat) : List PollCall :=
  (pass env su T k (before env su T k)).log

instance (k : Nat) : Decidable (Idle env su k) := inferInstanceAs (Decidable (_ ∧ _))
instance (k : Nat) : Decidable (GoesOn env su T k) := inferInstanceAs (Decidable (_ ∧ _))

/-- What the loop hands on if pass `k` is its last. -/
def lastResult (env : Env) (su : Setup) (T : Int) (k : Nat) : Except Errno LoopState :=
  if WaitFails env su k then .error .ENOMEM
  else if SelectFails env su k then .error (wsaSelectErrno (env.select k).err)
  else if Wakes env su k then .ok (selected env su T k (before env su T k))
  else .ok (before env su T (k + 1))

/-- What the loop leaves behind from pass `i` on, if pass `k` is its last. -/
def endFrom (env : Env) (su : Setup) (T : Int) (i k : Nat) : LoopEnd :=
  ⟨(List.range' i (k + 1 - i)).flatMap (passLog env su T), lastResult env su T k⟩

theorem reached_zero (env : Env) (su : Setup) (T : Int) : Reached env su T 0 :=
  fun _ h => absurd h (Nat.not_lt_zero _)

theorem Reached.of_le {j k : Nat} (h : Reached env su T k) (hjk : j ≤ k) : Reached env su T j :=
  fun i hi => h i (Nat.lt_of_lt_of_le hi hjk)

theorem Reached.succ {k : Nat} (h : Reached env su T k) (hk : GoesOn env su T k) :
    Reached env su T (k + 1) := by
  intro i hi
  rcases Nat.lt_succ_iff_lt_or_eq.mp hi with hi | rfl
  · exact h i hi
  · exact hk

/-- The loop has one last pass. -/
theorem Last.unique {j k : Nat} (hj : Last env su T j) (hk : Last env su T k) : j = k := by
  rcases Nat.lt_trichotomy j k with h | h | h
  · exact absurd (hk.1 j h) hj.2
  · exact h
  · exact absurd (hj.1 k h) hk.2

/-- **Before pass `k` its predecessors have waited 100 ms each.** -/
theorem Reached.onTime : ∀ {k : Nat}, Reached env su T k → OnTime T k (before env su T k)
  | 0, _ => onTime_start su T
  | k + 1, h => onTime_next (h.of_le (Nat.le_succ k)).onTime (h k (Nat.lt_succ_self k)).2

theorem noWait_before : ∀ k : Nat, NoWait su (before env su T k)
  | 0 => noWait_start su T
  | k + 1 => noWait_idled (noWait_before k)

theorem before_waitRc (k : Nat) : (before env su T (k + 1)).waitRc = lastWait env su k :=
  selected_waitRc (T := T) (noWait_before k)

/-- The log of a pass that ends in an error, or of any other. -/
theorem passLog_of_fails {k : Nat} (hw : WaitFails env su k) :
    passLog env su T k = waitCalls env su k := (pass_of_fails hw T _).1

theorem passLog_of_not_fails {k : Nat} (hw : ¬ WaitFails env su k) : passLog env su T k =
    waitCalls env su k ++ [selectCall env su T k (before env su T k)] := by
  unfold passLog
  rw [pass_of_not_fails hw]

/-! ## The loop -/

theorem loop_goesOn {fuel k : Nat} (h : GoesOn env su T k) :
    loop env su T (fuel + 1) k (before env su T k) =
      (loop env su T fuel (k + 1) (before env su T (k + 1))).map fun r =>
        { r with log := passLog env su T k ++ r.log } := by
  rw [loop_of_idle h.1, passLog_of_not_fails h.1.1]
  exact if_pos h.2

theorem loop_last {fuel k : Nat} (h : ¬ GoesOn env su T k) :
    loop env su T (fuel + 1) k (before env su T k) =
      some ⟨passLog env su T k, lastResult env su T k⟩ := by
  unfold lastResult
  by_cases hw : WaitFails env su k
  · rw [if_pos hw, loop_of_waitFails hw, passLog_of_fails hw]
  rw [if_neg hw, passLog_of_not_fails hw]
  by_cases hs : SelectFails env su k
  · rw [if_pos hs, loop_of_selectFails hw hs]
  rw [if_neg hs]
  by_cases hk : Wakes env su k
  · rw [if_pos hk, loop_of_wakes hw hs hk]
  · have hi : Idle env su k := ⟨hw, hs, hk⟩
    rw [if_neg hk, loop_of_idle hi]
    exact if_neg fun hl => h ⟨hi, hl⟩

/-- One more pass in front. -/
theorem endFrom_succ {i k : Nat} (h : i < k) :
    endFrom env su T i k =
      { endFrom env su T (i + 1) k with
        log := passLog env su T i ++ (endFrom env su T (i + 1) k).log } := by
  unfold endFrom
  rw [show k + 1 - i = (k - i) + 1 by omega, List.range'_succ, List.flatMap_cons,
    show k + 1 - (i + 1) = k - i by omega]

theorem endFrom_self (k : Nat) :
    endFrom env su T k k = ⟨passLog env su T k, lastResult env su T k⟩ := by
  unfold endFrom
  rw [show k + 1 - k = 1 by omega]
  simp only [List.range'_one, List.flatMap_cons, List.flatMap_nil, List.append_nil]

/-- The loop from pass `i` on. -/
theorem loop_from : ∀ {fuel i : Nat} {r : LoopEnd}, Reached env su T i →
    (loop env su T fuel i (before env su T i) = some r ↔
      ∃ k, i ≤ k ∧ k < i + fuel ∧ Last env su T k ∧ r = endFrom env su T i k) := by
  intro fuel
  induction fuel with
  | zero =>
      intro i r _
      constructor
      · intro h; exact absurd h (by simp [loop])
      · rintro ⟨k, hik, hki, -⟩; omega
  | succ fuel ih =>
      intro i r hi
      by_cases hgo : GoesOn env su T i
      · rw [loop_goesOn hgo, Option.map_eq_some_iff]
        constructor
        · intro hex
          obtain ⟨r', hr', rfl⟩ := hex
          obtain ⟨k, hik, hki, hlast, rfl⟩ := (ih (hi.succ hgo)).mp hr'
          exact ⟨k, by omega, by omega, hlast, (endFrom_succ (by omega)).symm⟩
        · intro hex
          obtain ⟨k, hik, hki, hlast, rfl⟩ := hex
          have hne : i ≠ k := by rintro rfl; exact hlast.2 hgo
          refine ⟨endFrom env su T (i + 1) k, ?_, (endFrom_succ (by omega)).symm⟩
          exact (ih (hi.succ hgo)).mpr ⟨k, by omega, by omega, hlast, rfl⟩
      · rw [loop_last hgo, ← endFrom_self]
        constructor
        · intro h
          exact ⟨i, Nat.le_refl _, by omega, ⟨hi, hgo⟩, (Option.some.inj h).symm⟩
        · intro hex
          obtain ⟨k, -, -, hlast, rfl⟩ := hex
          rw [hlast.unique ⟨hi, hgo⟩]

/-- **How a loop goes**: it returns if it comes to a last pass, and that pass decides. -/
theorem loop_eq_some_iff {fuel : Nat} {r : LoopEnd} :
    loop env su T fuel 0 (.start su T) = some r ↔
      ∃ k < fuel, Last env su T k ∧ r = endFrom env su T 0 k := by
  have h := @loop_from env su T fuel 0 r (reached_zero env su T)
  rw [Nat.zero_add] at h
  refine h.trans ⟨?_, ?_⟩
  · rintro ⟨k, -, hk, hr⟩; exact ⟨k, hk, hr⟩
  · rintro ⟨k, hk, hr⟩; exact ⟨k, Nat.zero_le _, hk, hr⟩

/-! ## What follows the loop -/

/-- The outcome of a `poll` whose last pass is pass `k`. -/
def outcomeAfter (H : Header) (env : Env) (su : Setup) (pfds : List Pollfd) (T : Int) (k : Nat) :
    Outcome :=
  (endFrom env su T 0 k).outcome H env su pfds

/-- **The ways `poll` can return**, for an array that is not empty: it gives up on the array,
or a last pass decides. -/
theorem poll_eq_some_iff {fuel : Nat} {out : Outcome} (hne : pfds ≠ []) :
    poll H env (some pfds) T fuel = some out ↔
      (setUp H env 0 pfds .empty = none ∧ out = .error .EINVAL pfds [])
        ∨ ∃ su, setUp H env 0 pfds .empty = some su
          ∧ ∃ k < fuel, Last env su T k ∧ out = outcomeAfter H env su pfds T k := by
  constructor
  · intro h
    rcases poll_cases hne h with h | ⟨su, r, hsu, hr, rfl⟩
    · exact Or.inl h
    · obtain ⟨k, hk, hlast, rfl⟩ := loop_eq_some_iff.mp hr
      exact Or.inr ⟨su, hsu, k, hk, hlast, rfl⟩
  · intro hcase
    rcases hcase with ⟨hsu, rfl⟩ | ⟨su, hsu, k, hk, hlast, rfl⟩
    · exact poll_of_crowded hne hsu
    · exact poll_of_loop hne hsu (loop_eq_some_iff.mpr ⟨k, hk, hlast, rfl⟩)

/-- Pass `k` does not fail. -/
def Sound (env : Env) (su : Setup) (k : Nat) : Prop :=
  ¬ WaitFails env su k ∧ ¬ SelectFails env su k

/-- The variables the result pass reads after pass `k`. -/
def finalState (env : Env) (su : Setup) (T : Int) (k : Nat) : LoopState :=
  if Wakes env su k then selected env su T k (before env su T k) else before env su T (k + 1)

theorem finalState_waitRc (k : Nat) : (finalState env su T k).waitRc = lastWait env su k := by
  unfold finalState
  split
  · exact selected_waitRc (noWait_before k)
  · exact before_waitRc k

theorem finalState_sets (k : Nat) : (finalState env su T k).rfds = (env.select k).rfds
    ∧ (finalState env su T k).wfds = (env.select k).wfds
    ∧ (finalState env su T k).efds = (env.select k).efds := by
  unfold finalState
  split
  · exact ⟨rfl, rfl, rfl⟩
  · exact ⟨rfl, rfl, rfl⟩

/-- After a last pass that failed nothing has been stored. -/
theorem outcomeAfter_error {k : Nat} (h : ¬ Sound env su k) :
    (outcomeAfter H env su pfds T k).rc = -1 ∧ (outcomeAfter H env su pfds T k).pfds = pfds := by
  have herr : ∃ e, (endFrom env su T 0 k).result = .error e := by
    show ∃ e, lastResult env su T k = .error e
    unfold lastResult
    by_cases hw : WaitFails env su k
    · exact ⟨_, if_pos hw⟩
    · rw [if_neg hw]
      have hs : SelectFails env su k := by
        by_contra hs; exact h ⟨hw, hs⟩
      exact ⟨_, if_pos hs⟩
  obtain ⟨e, he⟩ := herr
  unfold outcomeAfter
  rw [outcome_of_error he]
  exact ⟨rfl, rfl⟩

/-- After any other the result pass has its say. -/
theorem outcomeAfter_ok {k : Nat} (h : Sound env su k) :
    (outcomeAfter H env su pfds T k).rc = (results H env su (finalState env su T k) 0 0 pfds).ready
      ∧ (outcomeAfter H env su pfds T k).pfds
        = (results H env su (finalState env su T k) 0 0 pfds).pfds
      ∧ (outcomeAfter H env su pfds T k).log = (endFrom env su T 0 k).log := by
  refine outcome_of_ok ?_
  show lastResult env su T k = _
  unfold lastResult finalState
  rw [if_neg h.1, if_neg h.2]
  split
  · rfl
  · rfl

theorem outcomeAfter_rc {k : Nat} :
    (outcomeAfter H env su pfds T k).rc ≠ -1 ↔ Sound env su k := by
  constructor
  · intro h
    by_contra hs
    exact h (outcomeAfter_error hs).1
  · intro h hrc
    rw [(outcomeAfter_ok h).1] at hrc
    omega

end LibrePortable.Win.Poll
