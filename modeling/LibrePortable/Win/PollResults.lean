import LibrePortable.Win.PollWait

/-!
# What a poll comes back with

A loop ends in one of two ways: its time is used up, or one pass, the first that is
not idle, fails or finds something. The result pass then counts the entries that
have something to report, which need not be any of those that ended the wait.
-/

namespace LibrePortable.Win.Poll

open LibrePortable.Win

variable {H : Header} {env : Env} {su : Setup}

/-! ## How a loop ends -/

/-- Pass `k` begins before the time is used up. -/
def InTime (T : Int) (k : Nat) : Prop := k = 0 ∨ T = -1 ∨ 100 * (k : Int) < T

theorem OnTime.inTime {T : Int} {k : Nat} {st : LoopState} (h : OnTime T k st) : InTime T k := by
  rcases h.left with h0 | h0 | hl
  · exact Or.inl h0
  · exact Or.inr (Or.inl h0)
  · rw [h.timespent] at hl; exact Or.inr (Or.inr hl)

/-- The time one call waits, in microseconds. A `select` that reports a socket comes
back early, and is not counted. -/
def PollCall.waited : PollCall → Int
  | .wait _ _ => 0
  | .select _ _ e tv ans => if ans.rc > 0 ∧ e.fds ≠ [] then 0 else tv.usec

/-- The time a run waits. -/
def waited (log : List PollCall) : Int := (log.map PollCall.waited).sum

theorem waited_append (l l' : List PollCall) : waited (l ++ l') = waited l + waited l' := by
  unfold waited
  rw [List.map_append, List.sum_append]

/-- The set-up pass counted a socket exactly if `select` is given one. -/
def Setup.Counts (su : Setup) : Prop := su.numSockets ≠ 0 ↔ su.efds.fds ≠ []

theorem waited_pass (T : Int) (k : Nat) (st : LoopState) :
    waited (waitCalls env su k ++ [selectCall env su T k st]) =
      (selectCall env su T k st).waited := by
  rw [waited_append]
  have hw : waited (waitCalls env su k) = 0 := by unfold waitCalls; split <;> rfl
  rw [hw, Int.zero_add]
  exact Int.add_zero _

theorem waited_idle {k : Nat} (hc : su.Counts) (hi : Idle env su k) (T : Int) (st : LoopState) :
    waited (waitCalls env su k ++ [selectCall env su T k st]) = slice T st * 1000 := by
  have hns : ¬ Signals env su k := fun h => hi.2.2 (Or.inl h)
  have hnf : ¬ ((env.select k).rc > 0 ∧ su.efds.fds ≠ []) :=
    fun h => hi.2.2 (Or.inr ⟨hc.mpr h.2, h.1⟩)
  rw [waited_pass, selectCall, PollCall.waited, if_neg hnf, if_neg hns]

theorem waited_wakes {k : Nat} (hc : su.Counts) (hw : Wakes env su k) (T : Int) (st : LoopState) :
    waited (waitCalls env su k ++ [selectCall env su T k st]) = 0 := by
  rw [waited_pass, selectCall, PollCall.waited]
  rcases hw with hs | ⟨hn, hrc⟩
  · rw [if_pos hs]; split <;> rfl
  · rw [if_pos ⟨hrc, hc.mp hn⟩]

/-- Pass `k` is the first that is not idle, it begins in time, and it finds something. -/
structure FirstWake (env : Env) (su : Setup) (T : Int) (k : Nat) : Prop where
  before : ∀ j < k, Idle env su j
  inTime : InTime T k
  waitOk : ¬ WaitFails env su k
  selectOk : ¬ SelectFails env su k
  wakes : Wakes env su k

/-- `wait_rc` keeps its initial value as long as there is no handle to wait for. -/
def NoWait (su : Setup) (st : LoopState) : Prop := su.handles.length = 0 → st.waitRc = waitFailed

theorem noWait_start (su : Setup) (T : Int) : NoWait su (.start su T) := fun _ => rfl

theorem noWait_idled {T : Int} {k : Nat} {st : LoopState} (h : NoWait su st) :
    NoWait su (idled env su T k st) := by
  intro hz
  show (if su.handles.length ≠ 0 then env.wait k else st.waitRc) = waitFailed
  rw [if_neg (by omega)]
  exact h hz

theorem selected_waitRc {T : Int} {k : Nat} {st : LoopState} (h : NoWait su st) :
    (selected env su T k st).waitRc = lastWait env su k := by
  unfold selected lastWait
  dsimp only
  split
  · rfl
  · rename_i hz; exact h (by omega)

/-- The ways a loop that stands before pass `k` can end: it waits out the time, it
fails, or it finds something in a pass `j`. -/
inductive Ends (env : Env) (su : Setup) (T : Int) (k : Nat) (r : LoopEnd) : Prop
  | timedOut (st : LoopState) (hr : r.result = .ok st) (hT : 0 ≤ T)
      (hw : waited r.log = (T - 100 * k) * 1000)
  | failed (e : Errno) (hr : r.result = .error e)
  | woken (j : Nat) (st : LoopState) (hkj : k ≤ j) (hidle : ∀ i, k ≤ i → i < j → Idle env su i)
      (ht : InTime T j) (hwf : ¬ WaitFails env su j) (hsf : ¬ SelectFails env su j)
      (hwk : Wakes env su j) (hn : NoWait su st) (hr : r.result = .ok (selected env su T j st))
      (hw : waited r.log = 100 * ((j : Int) - k) * 1000)

/-- **How a loop ends**, by induction on the fuel. -/
theorem loop_ends {T : Int} (hT : -1 ≤ T) (hc : su.Counts) :
    ∀ {fuel k : Nat} {st : LoopState} {r : LoopEnd}, OnTime T k st → NoWait su st →
      loop env su T fuel k st = some r → Ends env su T k r := by
  intro fuel
  induction fuel with
  | zero => intro k st r _ _ h; exact absurd h (by simp [loop])
  | succ fuel ih =>
      intro k st r ho hn h
      by_cases hwf : WaitFails env su k
      · rw [loop_of_waitFails hwf] at h
        obtain rfl := Option.some.inj h
        exact .failed _ rfl
      by_cases hsf : SelectFails env su k
      · rw [loop_of_selectFails hwf hsf] at h
        obtain rfl := Option.some.inj h
        exact .failed _ rfl
      by_cases hwk : Wakes env su k
      · rw [loop_of_wakes hwf hsf hwk] at h
        obtain rfl := Option.some.inj h
        refine .woken k st (Nat.le_refl _) (fun i _ _ => by omega) ho.inTime hwf hsf hwk hn rfl ?_
        rw [waited_wakes hc hwk]
        omega
      -- an idle pass: its slice is waited out, and the loop goes on while time is left
      have hi : Idle env su k := ⟨hwf, hsf, hwk⟩
      have hsl := slice_onTime ho
      have hts : (idled env su T k st).timespent = 100 * k + slice T st := by
        show st.timespent + slice T st = _
        rw [ho.timespent]
      rw [loop_of_idle hi] at h
      by_cases hl : TimeLeft T (idled env su T k st)
      · rw [if_pos hl] at h
        obtain ⟨r', hr', rfl⟩ := Option.map_eq_some_iff.mp h
        have h100 : slice T st = 100 := by
          unfold TimeLeft at hl
          rw [hts] at hl
          split_ifs at hsl <;> omega
        have hlog : ∀ x : Int, waited r'.log = x →
            waited ((waitCalls env su k ++ [selectCall env su T k st]) ++ r'.log)
              = 100 * 1000 + x := by
          intro x hx
          rw [waited_append, waited_idle hc hi, h100, hx]
        cases ih (onTime_next ho hl) (noWait_idled hn) hr' with
        | timedOut st' hr hT' hw =>
            refine .timedOut st' hr hT' ?_
            rw [hlog _ hw]; push_cast; omega
        | failed e hr => exact .failed e hr
        | woken j st' hkj hidle ht hwf' hsf' hwk' hn' hr hw =>
            refine .woken j st' (by omega) ?_ ht hwf' hsf' hwk' hn' hr ?_
            · intro i hki hij
              rcases Nat.eq_or_lt_of_le hki with rfl | hlt
              · exact hi
              · exact hidle i hlt hij
            · rw [hlog _ hw]; push_cast; omega
      · rw [if_neg hl] at h
        obtain rfl := Option.some.inj h
        unfold TimeLeft at hl
        rw [hts] at hl
        -- the time is used up, and this pass waited for the rest of it
        refine .timedOut _ rfl (by omega) ?_
        rw [waited_idle hc hi]
        split_ifs at hsl <;> omega

/-- A loop whose first pass that is not idle finds something ends there, having waited
for the passes before it. -/
theorem loop_woken {T : Int} (hc : su.Counts) : ∀ {n k : Nat} {st : LoopState}, OnTime T k st →
    NoWait su st → (∀ i, k ≤ i → i < k + n → Idle env su i) → InTime T (k + n) →
    ¬ WaitFails env su (k + n) → ¬ SelectFails env su (k + n) → Wakes env su (k + n) →
      ∃ r st', loop env su T (n + 1) k st = some r ∧ NoWait su st'
        ∧ r.result = .ok (selected env su T (k + n) st') ∧ waited r.log = 100 * n * 1000 := by
  intro n
  induction n with
  | zero =>
      intro k st _ hn _ _ hwf hsf hwk
      exact ⟨_, st, loop_of_wakes hwf hsf hwk T 0 st, hn, rfl, waited_wakes hc hwk T st⟩
  | succ n ih =>
      intro k st ho hn hidle ht hwf hsf hwk
      have hi := hidle k (Nat.le_refl _) (by omega)
      have hsl := slice_onTime ho
      have hts : (idled env su T k st).timespent = 100 * k + slice T st := by
        show st.timespent + slice T st = _
        rw [ho.timespent]
      -- a later pass begins in time, so this one takes a whole slice
      have hleft : T = -1 ∨ 100 * (k : Int) + 100 < T := by
        rcases ht with h0 | h0 | h0
        · omega
        · exact Or.inl h0
        · right; push_cast at h0; omega
      have h100 : slice T st = 100 := by split_ifs at hsl <;> omega
      have hl : TimeLeft T (idled env su T k st) := by
        unfold TimeLeft
        rw [hts, h100]
        omega
      have hk : k + (n + 1) = k + 1 + n := by omega
      rw [hk] at ht hwf hsf hwk
      obtain ⟨r, st', hr, hn', hres, hw⟩ := ih (onTime_next ho hl) (noWait_idled hn)
        (fun i h1 h2 => hidle i (by omega) (by omega)) ht hwf hsf hwk
      rw [loop_of_idle hi, if_pos hl, hr, hk]
      refine ⟨_, st', rfl, hn', hres, ?_⟩
      dsimp only
      rw [waited_append, waited_idle hc hi, h100, hw]
      push_cast
      omega

/-! ## What an entry reports -/

/-- A console record that is taken off the queue and not reported. -/
def Swallowed (record : InputRecord) : Prop :=
  ¬ (record.eventType = .KEY_EVENT ∧ record.bKeyDown)

/-- Entry `i`, the `n`-th handle if it is no socket, has something to report after
pass `k`: a socket when it is in a returned set that it wants, another handle when it
wants to write, or when it wants to read and is the one that ended the wait. -/
def Reports (H : Header) (env : Env) (su : Setup) (k i n : Nat) (p : Pollfd) : Prop :=
  if isSocket p.fd (env.enumResult i) then
    (Wants H.readMask p ∧ (env.select k).rfds.isSet p.fd)
      ∨ (Wants H.writeMask p ∧ (env.select k).wfds.isSet p.fd)
      ∨ (env.select k).efds.isSet p.fd
  else
    Wants (H.pollout ||| H.pollwrnorm) p
      ∨ (n = lastWait env su k ∧ Wants (H.pollin ||| H.pollrdnorm) p
        ∧ ¬ (su.handles[n]? = some env.stdInput ∧ ∃ r, env.peekConsole i = some r ∧ Swallowed r))

/-- Some entry that is not disabled has something to report after pass `k`. -/
def SomeReports (H : Header) (env : Env) (su : Setup) (k : Nat) : Nat → Nat → List Pollfd → Prop
  | _, _, [] => False
  | i, n, p :: ps =>
      (p.negative = false ∧ Reports H env su k i n p)
        ∨ SomeReports H env su k (i + 1)
            (if p.negative ∨ isSocket p.fd (env.enumResult i) then n else n + 1) ps

/-- The bits that report something. -/
theorem Header.report_ne_zero (H : Header) : H.pollhup ≠ 0 ∧ H.pollin ||| H.pollrdnorm ≠ 0
    ∧ H.pollout ≠ 0 ∧ H.pollrdband ||| H.pollpri ≠ 0 ∧ H.pollerr ≠ 0 ∧ H.pollin ≠ 0 := by
  cases H <;> decide

theorem computeSelectRevents_eq_zero {recv : Peek → RecvAnswer} {fd : CInt} {events : Bits}
    {rfds wfds efds : FdSet} :
    computeSelectRevents H recv fd events rfds wfds efds = 0 ↔
      ¬ ((events &&& H.readMask ≠ 0 ∧ rfds.isSet fd)
        ∨ (events &&& H.writeMask ≠ 0 ∧ wfds.isSet fd) ∨ efds.isSet fd) := by
  obtain ⟨h1, h2, h3, h4, h5, -⟩ := H.report_ne_zero
  unfold computeSelectRevents
  dsimp only
  split_ifs <;> simp_all

theorem computeWaitRevents_eq_zero {stdInput : Handle} {peek : Option InputRecord}
    {h : Option Handle} {events : Bits} {n waitRc : Nat} :
    (computeWaitRevents H stdInput peek h events n waitRc).1 = 0 ↔
      ¬ (events &&& (H.pollout ||| H.pollwrnorm) ≠ 0
        ∨ (n = waitRc ∧ events &&& (H.pollin ||| H.pollrdnorm) ≠ 0
          ∧ ¬ (h = some stdInput ∧ ∃ r, peek = some r ∧ Swallowed r))) := by
  obtain ⟨-, -, h3, -, -, h6⟩ := H.report_ne_zero
  unfold computeWaitRevents Swallowed waitObject0
  rw [Nat.sub_zero]
  cases peek with
  | none => split_ifs <;> simp_all
  | some record =>
      dsimp only
      split_ifs <;> simp_all

theorem Results.ready_cons_eq_zero {p : Pollfd} {fl : List (Option Handle)} {r : Results} :
    (r.cons p fl).ready = 0 ↔ p.revents = 0 ∧ r.ready = 0 := by
  unfold Results.cons
  dsimp only
  split_ifs with hp
  · exact ⟨fun h => by omega, fun h => absurd h.1 hp⟩
  · exact ⟨fun h => ⟨not_not.mp hp, by omega⟩, fun h => by omega⟩

/-- **When nothing is ready**: exactly when no entry has anything to report. -/
theorem results_ready_eq_zero {T : Int} {k : Nat} {st : LoopState} (hn : NoWait su st) :
    ∀ {i n : Nat} {ps : List Pollfd},
      (results H env su (selected env su T k st) i n ps).ready = 0
        ↔ ¬ SomeReports H env su k i n ps := by
  intro i n ps
  induction ps generalizing i n with
  | nil => simp [results, SomeReports]
  | cons p ps ih =>
      unfold results SomeReports Reports
      -- the cases of the walk: disabled, socket, other handle
      by_cases hneg : p.negative = true
      · rw [if_pos hneg, Results.ready_cons_eq_zero, ih, if_pos (Or.inl hneg)]
        simp [hneg]
      · have hpos : p.negative = false := Bool.not_eq_true _ ▸ hneg
        by_cases hsock : isSocket p.fd (env.enumResult i) = true
        · rw [if_neg hneg, if_pos hsock, if_pos hsock, if_pos (Or.inr hsock)]
          dsimp only
          rw [Results.ready_cons_eq_zero, ih, computeSelectRevents_eq_zero, ← not_or,
            and_iff_right hpos]
          rfl
        · rw [if_neg hneg, if_neg hsock, if_neg hsock, if_neg (not_or.mpr ⟨hneg, hsock⟩)]
          dsimp only
          rw [Results.ready_cons_eq_zero, ih, selected_waitRc hn, computeWaitRevents_eq_zero,
            ← not_or, and_iff_right hpos]
          rfl

theorem Results.ready_cons {p : Pollfd} {fl : List (Option Handle)} {r : Results}
    (h : r.ready = (r.pfds.filter fun p => p.revents ≠ 0).length) :
    (r.cons p fl).ready = ((r.cons p fl).pfds.filter fun p => p.revents ≠ 0).length := by
  unfold Results.cons
  dsimp only
  rw [List.filter_cons, h]
  split_ifs with h1 h2 h2
  · rw [List.length_cons]; omega
  · exact absurd (decide_eq_true h1) h2
  · exact absurd (of_decide_eq_true h2) h1
  · omega

/-- `poll` counts the entries it reports something about. -/
theorem results_ready {st : LoopState} : ∀ {i n : Nat} {ps : List Pollfd},
    (results H env su st i n ps).ready
      = ((results H env su st i n ps).pfds.filter fun p => p.revents ≠ 0).length := by
  intro i n ps
  induction ps generalizing i n with
  | nil => rfl
  | cons p ps ih =>
      unfold results
      split
      · exact Results.ready_cons ih
      · split
        · exact Results.ready_cons ih
        · exact Results.ready_cons ih

end LibrePortable.Win.Poll
