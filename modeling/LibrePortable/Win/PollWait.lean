import LibrePortable.Win.PollSetup
import Mathlib.Algebra.BigOperators.Ring.List
import Mathlib.Algebra.Ring.Int.Defs

/-!
# The wait loop

What one pass can do is said once, in `pass_ended`, `pass_log` and `pass_idle`;
everything about the loop follows from these by induction on the fuel. The first
consequence is about time: a `poll` that finds nothing gives `select` slices of at
most a tenth of a second that add up to the timeout, neither more nor less.
-/

namespace LibrePortable.Win.Poll

open LibrePortable.Win

variable {H : Header} {env : Env} {su : Setup}

/-! ## One pass -/

/-- `WaitForMultipleObjects` is called in pass `k` and fails. -/
def WaitFails (env : Env) (su : Setup) (k : Nat) : Prop :=
  su.handles.length ≠ 0 ∧ env.wait k = waitFailed

/-- `WaitForMultipleObjects` reports a handle in pass `k`. -/
def Signals (env : Env) (su : Setup) (k : Nat) : Prop := env.wait k < su.handles.length

/-- `select` reports a socket in pass `k`. -/
def FindsSocket (env : Env) (su : Setup) (k : Nat) : Prop :=
  su.numSockets ≠ 0 ∧ (env.select k).rc > 0

/-- `select` fails in pass `k`, and no handle covers up for it. -/
def SelectFails (env : Env) (su : Setup) (k : Nat) : Prop :=
  ¬ Signals env su k ∧ (env.select k).rc = socketError

/-- Pass `k` ends the wait because something is ready. -/
def Wakes (env : Env) (su : Setup) (k : Nat) : Prop := Signals env su k ∨ FindsSocket env su k

/-- Pass `k` finds nothing and nothing fails. -/
def Idle (env : Env) (su : Setup) (k : Nat) : Prop :=
  ¬ WaitFails env su k ∧ ¬ SelectFails env su k ∧ ¬ Wakes env su k

instance (k : Nat) : Decidable (WaitFails env su k) := inferInstanceAs (Decidable (_ ∧ _))
instance (k : Nat) : Decidable (Signals env su k) := inferInstanceAs (Decidable (_ < _))
instance (k : Nat) : Decidable (FindsSocket env su k) := inferInstanceAs (Decidable (_ ∧ _))
instance (k : Nat) : Decidable (SelectFails env su k) := inferInstanceAs (Decidable (_ ∧ _))
instance (k : Nat) : Decidable (Wakes env su k) := inferInstanceAs (Decidable (_ ∨ _))

/-- What `wait_rc` holds after pass `k`. -/
def lastWait (env : Env) (su : Setup) (k : Nat) : Nat :=
  if su.handles.length ≠ 0 then env.wait k else waitFailed

theorem handleSignaled_iff {rc : Nat} :
    handleSignaled su rc = true ↔ rc < su.handles.length := by
  unfold handleSignaled waitObject0
  rw [Bool.and_eq_true, Bool.and_eq_true, decide_eq_true_iff, decide_eq_true_iff,
    decide_eq_true_iff]
  omega

/-- The variables a pass hands to `conclude`. -/
def selected (env : Env) (su : Setup) (T : Int) (k : Nat) (st : LoopState) : LoopState :=
  ⟨st.timespent, slice T st, if su.handles.length ≠ 0 then env.wait k else st.waitRc,
    (env.select k).rfds, (env.select k).wfds, (env.select k).efds⟩

/-- The `select` call of pass `k`. -/
def selectCall (env : Env) (su : Setup) (T : Int) (k : Nat) (st : LoopState) : PollCall :=
  .select su.rfds su.wfds su.efds ⟨0, if Signals env su k then 0 else slice T st * 1000⟩
    (env.select k)

/-- The look at the handles, if there are any. -/
def waitCalls (env : Env) (su : Setup) (k : Nat) : List PollCall :=
  if su.handles.length ≠ 0 then [.wait su.handles (env.wait k)] else []

theorem signaled_eq {k : Nat} {st : LoopState} :
    handleSignaled su (if su.handles.length ≠ 0 then env.wait k else st.waitRc)
      = decide (Signals env su k) := by
  rw [Bool.eq_iff_iff, handleSignaled_iff, decide_eq_true_iff, Signals]
  split <;> omega

/-- A pass whose look at the handles fails makes no other call. -/
theorem pass_of_fails {k : Nat} (hw : WaitFails env su k) (T : Int) (st : LoopState) :
    (pass env su T k st).log = waitCalls env su k
      ∧ (pass env su T k st).ended = .error .ENOMEM := by
  obtain ⟨hlen, hrc⟩ := hw
  simp only [pass, waitCalls, hrc, hlen, ne_eq, not_false_eq_true, if_true, and_self]

/-- Any other pass makes one `select` call, on the pristine sets, and concludes. -/
theorem pass_of_not_fails {k : Nat} (hw : ¬ WaitFails env su k) (T : Int) (st : LoopState) :
    pass env su T k st =
      ⟨waitCalls env su k ++ [selectCall env su T k st],
        (conclude su (decide (Signals env su k)) (env.select k) (selected env su T k st)).1,
        (conclude su (decide (Signals env su k)) (env.select k) (selected env su T k st)).2⟩ := by
  have hrc : ¬ (su.handles.length ≠ 0 ∧
      (if su.handles.length ≠ 0 then env.wait k else st.waitRc) = waitFailed) := by
    -- without handles `wait_rc` is still `WAIT_FAILED`, but it is not looked at
    intro h
    obtain ⟨h1, h2⟩ := h
    rw [if_pos h1] at h2
    exact hw ⟨h1, h2⟩
  have hwaits : (if su.handles.length ≠ 0 then
        [PollCall.wait su.handles (if su.handles.length ≠ 0 then env.wait k else st.waitRc)]
      else []) = waitCalls env su k := by
    unfold waitCalls; split <;> rfl
  unfold pass
  dsimp only
  rw [if_neg hrc, signaled_eq, hwaits]
  simp only [selectCall, selected, decide_eq_true_eq]

/-- What `conclude` makes of pass `k`. -/
theorem conclude_eq {k : Nat} {st : LoopState} :
    conclude su (decide (Signals env su k)) (env.select k) st =
      if SelectFails env su k then (.error (wsaSelectErrno (env.select k).err), st)
      else if Wakes env su k then (.stop, st)
      else (.idle, { st with timespent := st.timespent + st.looptime }) := by
  simp only [conclude, Bool.not_eq_true', decide_eq_false_iff_not, decide_eq_true_eq]
  rfl

/-- A pass in which `select` fails. -/
theorem pass_of_selectFails {k : Nat} (hw : ¬ WaitFails env su k) (hf : SelectFails env su k)
    (T : Int) (st : LoopState) :
    (pass env su T k st).log = waitCalls env su k ++ [selectCall env su T k st]
      ∧ (pass env su T k st).ended = .error (wsaSelectErrno (env.select k).err) := by
  rw [pass_of_not_fails hw, conclude_eq, if_pos hf]
  exact ⟨rfl, rfl⟩

/-- A pass that finds something keeps the variables as `select` left them. -/
theorem pass_of_wakes {k : Nat} (hw : ¬ WaitFails env su k) (hf : ¬ SelectFails env su k)
    (hwake : Wakes env su k) (T : Int) (st : LoopState) :
    pass env su T k st =
      ⟨waitCalls env su k ++ [selectCall env su T k st], .stop, selected env su T k st⟩ := by
  rw [pass_of_not_fails hw, conclude_eq, if_neg hf, if_pos hwake]

/-- An idle pass adds its slice to the time spent. -/
theorem pass_of_idle {k : Nat} (hi : Idle env su k) (T : Int) (st : LoopState) :
    pass env su T k st =
      ⟨waitCalls env su k ++ [selectCall env su T k st], .idle,
        { selected env su T k st with timespent := st.timespent + slice T st }⟩ := by
  obtain ⟨hw, hf, hwake⟩ := hi
  rw [pass_of_not_fails hw, conclude_eq, if_neg hf, if_neg hwake]
  rfl

/-! ## One turn of the loop -/

/-- Time is left for another pass. -/
def TimeLeft (T : Int) (st : LoopState) : Prop := T = -1 ∨ st.timespent < T

instance (T : Int) (st : LoopState) : Decidable (TimeLeft T st) :=
  inferInstanceAs (Decidable (_ ∨ _))

/-- The variables after an idle pass. -/
def idled (env : Env) (su : Setup) (T : Int) (k : Nat) (st : LoopState) : LoopState :=
  { selected env su T k st with timespent := st.timespent + slice T st }

theorem loop_of_idle {k : Nat} (hi : Idle env su k) (T : Int) (fuel : Nat) (st : LoopState) :
    loop env su T (fuel + 1) k st =
      if TimeLeft T (idled env su T k st) then
        (loop env su T fuel (k + 1) (idled env su T k st)).map fun r =>
          { r with log := (waitCalls env su k ++ [selectCall env su T k st]) ++ r.log }
      else some ⟨waitCalls env su k ++ [selectCall env su T k st], .ok (idled env su T k st)⟩ := by
  rw [loop, pass_of_idle hi]
  rfl

theorem loop_of_wakes {k : Nat} (hw : ¬ WaitFails env su k) (hf : ¬ SelectFails env su k)
    (hwake : Wakes env su k) (T : Int) (fuel : Nat) (st : LoopState) :
    loop env su T (fuel + 1) k st =
      some ⟨waitCalls env su k ++ [selectCall env su T k st], .ok (selected env su T k st)⟩ := by
  rw [loop, pass_of_wakes hw hf hwake]

theorem loop_of_waitFails {k : Nat} (hw : WaitFails env su k) (T : Int) (fuel : Nat)
    (st : LoopState) :
    loop env su T (fuel + 1) k st = some ⟨waitCalls env su k, .error .ENOMEM⟩ := by
  obtain ⟨hlog, hend⟩ := pass_of_fails hw T st
  rw [loop, hend, hlog]

theorem loop_of_selectFails {k : Nat} (hw : ¬ WaitFails env su k) (hf : SelectFails env su k)
    (T : Int) (fuel : Nat) (st : LoopState) :
    loop env su T (fuel + 1) k st =
      some ⟨waitCalls env su k ++ [selectCall env su T k st],
        .error (wsaSelectErrno (env.select k).err)⟩ := by
  obtain ⟨hlog, hend⟩ := pass_of_selectFails hw hf T st
  rw [loop, hend, hlog]

/-- Before pass `k` of a loop none of whose passes found anything. -/
structure OnTime (T : Int) (k : Nat) (st : LoopState) : Prop where
  timespent : st.timespent = 100 * k
  looptime : st.looptime = if T > 100 ∨ T = -1 then 100 else T
  left : k = 0 ∨ TimeLeft T st

theorem onTime_start (su : Setup) (T : Int) : OnTime T 0 (.start su T) := ⟨rfl, rfl, Or.inl rfl⟩

/-- The slice of a pass is what is left, but at most 100 ms. -/
theorem slice_onTime {T : Int} {k : Nat} {st : LoopState} (h : OnTime T k st) :
    slice T st = if T = -1 then 100 else min 100 (T - 100 * k) := by
  have h1 := h.timespent
  have h2 := h.looptime
  unfold slice
  -- a first pass may have no time at all; any later one has some left
  rcases h.left with rfl | hl
  · split_ifs at h2 ⊢ <;> omega
  · unfold TimeLeft at hl
    split_ifs at h2 ⊢ <;> omega

/-- The invariant goes on to the next pass while there is time. -/
theorem onTime_next {T : Int} {k : Nat} {st : LoopState} (h : OnTime T k st)
    (hl : TimeLeft T (idled env su T k st)) : OnTime T (k + 1) (idled env su T k st) := by
  have h1 := h.timespent
  have h2 := h.looptime
  have hs := slice_onTime h
  have hts : (idled env su T k st).timespent = st.timespent + slice T st := rfl
  have hlt : (idled env su T k st).looptime = slice T st := rfl
  refine ⟨?_, ?_, Or.inr hl⟩
  · rw [hts]
    unfold TimeLeft at hl
    rw [hts] at hl
    split_ifs at hs <;> push_cast <;> omega
  · rw [hlt, hs]
    unfold TimeLeft at hl
    rw [hts] at hl
    split_ifs at hs ⊢ <;> omega

/-! ## A poll that finds nothing -/

/-- One call of `select`. -/
structure SelectCall where
  rfds : FdSet
  wfds : FdSet
  efds : FdSet
  tv : Timeval

/-- The `select` calls in a log, in order. -/
def selects (log : List PollCall) : List SelectCall :=
  log.filterMap fun
    | .wait _ _ => none
    | .select r w e tv _ => some ⟨r, w, e, tv⟩

theorem selects_append (l l' : List PollCall) : selects (l ++ l') = selects l ++ selects l' :=
  List.filterMap_append ..

theorem selects_pass (env : Env) (su : Setup) (T : Int) (k : Nat) (st : LoopState) :
    selects (waitCalls env su k ++ [selectCall env su T k st]) =
      [⟨su.rfds, su.wfds, su.efds, ⟨0, if Signals env su k then 0 else slice T st * 1000⟩⟩] := by
  rw [selects_append]
  have hw : selects (waitCalls env su k) = [] := by unfold waitCalls; split <;> rfl
  rw [hw]
  rfl

/-- The `select` call with the interest sets and a slice of `ms` milliseconds. -/
def Setup.waitFor (su : Setup) (ms : Int) : SelectCall :=
  ⟨su.rfds, su.wfds, su.efds, ⟨0, ms * 1000⟩⟩

/-- Passes it takes to wait `t` ms. -/
def passes (t : Int) : Int := max 1 ((t + 99) / 100)

/-- **The slices of a loop that finds nothing**, from pass `k` on: they add up to
the time left, in as few passes as slices of 100 ms allow. -/
theorem loop_idle {T : Int} (hT : 0 ≤ T) (hi : ∀ k, Idle env su k) :
    ∀ {fuel k : Nat} {st : LoopState}, OnTime T k st → passes (T - 100 * k) ≤ fuel →
      ∃ (r : LoopEnd) (st' : LoopState) (l : List Int),
        loop env su T fuel k st = some r ∧ r.result = .ok st'
          ∧ selects r.log = l.map su.waitFor ∧ (∀ x ∈ l, 0 ≤ x ∧ x ≤ 100)
          ∧ l.sum = T - 100 * k ∧ (l.length : Int) = passes (T - 100 * k) := by
  intro fuel
  induction fuel with
  | zero =>
      intro k st _ hfuel
      unfold passes at hfuel
      omega
  | succ fuel ih =>
      intro k st ho hfuel
      have hsl := slice_onTime ho
      have hneg : T ≠ -1 := by omega
      rw [if_neg hneg] at hsl
      have hns : ¬ Signals env su k := fun h => (hi k).2.2 (Or.inl h)
      have hcall := selects_pass env su T k st
      rw [if_neg hns] at hcall
      have hts : (idled env su T k st).timespent = 100 * k + slice T st := by
        show st.timespent + slice T st = _
        rw [ho.timespent]
      have hleft : k = 0 ∨ 100 * (k : Int) < T := by
        rcases ho.left with h | h | h
        · exact Or.inl h
        · exact absurd h hneg
        · rw [ho.timespent] at h; exact Or.inr h
      rw [loop_of_idle (hi k)]
      -- the loop condition decides whether this pass was the last
      by_cases hl : TimeLeft T (idled env su T k st)
      · -- time is left after this pass, so it took a whole slice
        have hmore : T - 100 * k > 100 := by
          unfold TimeLeft at hl
          rw [hts, hsl] at hl
          omega
        have hcast : T - 100 * ((k + 1 : Nat) : Int) = T - 100 * k - 100 := by push_cast; omega
        obtain ⟨r, st', l, hr, hres, hsel, hrange, hsum, hlen⟩ := ih (onTime_next ho hl) (by
          rw [hcast]
          unfold passes at hfuel ⊢
          omega)
        rw [if_pos hl, hr]
        have h100 : slice T st = 100 := by omega
        refine ⟨_, st', 100 :: l, rfl, hres, ?_, ?_, ?_, ?_⟩
        · rw [selects_append, hcall, hsel, h100]
          rfl
        · intro x hx
          rcases List.mem_cons.mp hx with rfl | hx
          · omega
          · exact hrange x hx
        · rw [List.sum_cons, hsum, hcast]; omega
        · rw [hcast] at hlen
          rw [List.length_cons]
          unfold passes at hlen ⊢
          omega
      · -- the last pass takes what is left
        have hlast : T - 100 * k ≤ 100 := by
          unfold TimeLeft at hl
          rw [hts, hsl] at hl
          omega
        have hrest : slice T st = T - 100 * k := by omega
        rw [if_neg hl]
        refine ⟨_, _, [T - 100 * k], rfl, rfl, ?_, ?_, ?_, ?_⟩
        · rw [hcall, hrest]; rfl
        · intro x hx
          rw [List.mem_singleton.mp hx]
          omega
        · simp
        · unfold passes
          rw [List.length_singleton]
          omega

/-- Fuel left over changes nothing. -/
theorem loop_mono {T : Int} : ∀ {fuel fuel' k : Nat} {st : LoopState} {r : LoopEnd},
    fuel ≤ fuel' → loop env su T fuel k st = some r → loop env su T fuel' k st = some r := by
  intro fuel
  induction fuel with
  | zero => intro fuel' k st r _ h; exact absurd h (by simp [loop])
  | succ fuel ih =>
      intro fuel' k st r hle h
      obtain ⟨fuel', rfl⟩ : ∃ m, fuel' = m + 1 := ⟨fuel' - 1, by omega⟩
      unfold loop at h ⊢
      dsimp only at h ⊢
      split at h
      · exact h
      · exact h
      · split at h
        · rename_i hl
          obtain ⟨r', hr', rfl⟩ := Option.map_eq_some_iff.mp h
          rw [if_pos hl, ih (by omega) hr']
          rfl
        · rename_i hl
          rw [if_neg hl]
          exact h

/-- The sets of a `select` call are the ones the array asks for: every socket in the
exception set, and in the other two the sockets that want what they report. -/
structure Interest (H : Header) (env : Env) (pfds : List Pollfd) (c : SelectCall) : Prop where
  rfds : ∀ fd, fd ∈ c.rfds.fds ↔ ∃ p ∈ sockets env 0 pfds, Wants H.readMask p ∧ p.fd = fd
  wfds : ∀ fd, fd ∈ c.wfds.fds ↔ ∃ p ∈ sockets env 0 pfds, Wants H.writeMask p ∧ p.fd = fd
  efds : ∀ fd, fd ∈ c.efds.fds ↔ ∃ p ∈ sockets env 0 pfds, p.fd = fd

/-- The `select` calls of a `poll` that waits out `T` ms. -/
structure WaitsOut (H : Header) (env : Env) (pfds : List Pollfd) (T : Int)
    (calls : List SelectCall) : Prop where
  interest : ∀ c ∈ calls, Interest H env pfds c
  bounded : ∀ c ∈ calls, c.tv.sec = 0 ∧ 0 ≤ c.tv.usec ∧ c.tv.usec ≤ 100 * 1000
  total : (calls.map fun c => c.tv.usec).sum = T * 1000
  count : (calls.length : Int) = passes T

/-- No handle signals, and every `select` waits in vain and empties its sets. -/
structure Quiet (env : Env) (pfds : List Pollfd) : Prop where
  handles : ∀ k, (others env 0 pfds).length ≤ env.wait k
  sockets : ∀ k, (env.select k).rc = 0 ∧ (env.select k).rfds = .zero
    ∧ (env.select k).wfds = .zero ∧ (env.select k).efds = .zero

/-- What the set-up pass records for an array. -/
theorem setUp_records {pfds : List Pollfd} (h : setUp H env 0 pfds .empty = some su) :
    su.numSockets = (sockets env 0 pfds).length
      ∧ su.handles.length = (others env 0 pfds).length
      ∧ Interest H env pfds ⟨su.rfds, su.wfds, su.efds, ⟨0, 0⟩⟩ := by
  obtain ⟨-, hn, hh, hr, hw, he⟩ := setUp_spec Setup.fits_empty h
  have hzero : ∀ fd, fd ∉ FdSet.zero.fds := fun fd => List.not_mem_nil
  refine ⟨by simpa [Setup.empty] using hn, by simp [hh, Setup.empty], ?_, ?_, ?_⟩
  · intro fd; simpa [Setup.empty, hzero] using hr fd
  · intro fd; simpa [Setup.empty, hzero] using hw fd
  · intro fd; simpa [Setup.empty, hzero] using he fd

theorem Quiet.idle {pfds : List Pollfd} (hq : Quiet env pfds)
    (hnf : ∀ k, env.wait k ≠ waitFailed) (hsu : setUp H env 0 pfds .empty = some su) (k : Nat) :
    Idle env su k := by
  have hlen := (setUp_records hsu).2.1
  have hw := hq.handles k
  have hrc := (hq.sockets k).1
  refine ⟨fun h => hnf k h.2, fun h => ?_, ?_⟩
  · rw [SelectFails, hrc] at h
    exact absurd h.2 (by decide)
  · intro h
    rcases h with h | h
    · unfold Signals at h; omega
    · have := h.2; omega

/-- **A poll that finds nothing waits out its timeout**: every `select` gets the
interest sets of the array and at most 100 ms, together exactly `T` ms in the fewest
passes, and the loop ends. -/
theorem poll_waitsOut {pfds : List Pollfd} {T : Int} (hroom : Roomy env pfds)
    (hsock : sockets env 0 pfds ≠ []) (hT : 0 ≤ T) (hq : Quiet env pfds)
    (hnf : ∀ k, env.wait k ≠ waitFailed) :
    ∃ out, WaitsOut H env pfds T (selects out.log)
      ∧ ∀ fuel : Nat, passes T ≤ fuel → poll H env (some pfds) T fuel = some out := by
  obtain ⟨su, hsu⟩ := exists_setUp_iff.mpr hroom
  have hint := (setUp_records hsu).2.2
  have hne : ¬ pfds.length ≤ 0 := by
    intro h
    obtain rfl : pfds = [] := List.length_eq_zero_iff.mp (by omega)
    exact hsock rfl
  have hcast : T - 100 * ((0 : Nat) : Int) = T := by omega
  have hpos : 0 ≤ passes T := by unfold passes; omega
  have hfuel : passes T ≤ ((passes T).toNat : Int) := by omega
  obtain ⟨r, st, l, hr, hres, hsel, hrange, hsum, hlen⟩ :=
    loop_idle hT (hq.idle hnf hsu) (onTime_start su T) (by rw [hcast]; exact hfuel)
  rw [hcast] at hsum hlen
  obtain ⟨log, result⟩ := r
  obtain rfl : result = .ok st := hres
  let res := results H env su st 0 0 pfds
  refine ⟨⟨res.ready, none, res.pfds, log, res.flushed⟩, ⟨?_, ?_, ?_, ?_⟩, ?_⟩
  · rw [hsel]
    intro c hc
    obtain ⟨x, -, rfl⟩ := List.mem_map.mp hc
    exact ⟨hint.rfds, hint.wfds, hint.efds⟩
  · rw [hsel]
    intro c hc
    obtain ⟨x, hx, rfl⟩ := List.mem_map.mp hc
    obtain ⟨h0, h100⟩ := hrange x hx
    exact ⟨rfl, Int.mul_nonneg h0 (by decide), by show x * 1000 ≤ _; omega⟩
  · rw [hsel, List.map_map, ← hsum]
    -- milliseconds become microseconds under the sum
    have hmul := List.sum_map_mul_right l (fun x : Int => x) 1000
    rw [List.map_id'] at hmul
    exact hmul
  · rw [hsel, List.length_map, hlen]
  · intro fuel hf
    have hle : (passes T).toNat ≤ fuel := by omega
    have hrun := loop_mono hle hr
    unfold poll
    dsimp only
    rw [if_neg hne, hsu]
    dsimp only
    rw [hrun]

/-! ## Where it does not wait -/

/-- A system in which nothing ever happens: entry `i` is a socket if `sock i`, and the
look at the handles answers `waitRc`. -/
def Env.still (sock : Nat → Bool) (waitRc : Nat) : Env where
  enumSetup i := if sock i then 0 else socketError
  enumResult i := if sock i then 0 else socketError
  osfHandle fd := fd.toNat
  wait _ := waitRc
  select _ := ⟨0, .zero, .zero, .zero, .other 0⟩
  recv _ _ := ⟨0, .other 0⟩
  stdInput := 0
  peekConsole _ := none

/-- `WAIT_TIMEOUT`. -/
def waitTimeout : Nat := 258

theorem quiet_still {sock : Nat → Bool} {waitRc : Nat} {pfds : List Pollfd}
    (h : (others (.still sock waitRc) 0 pfds).length ≤ waitRc) :
    Quiet (.still sock waitRc) pfds :=
  ⟨fun _ => h, fun _ => ⟨rfl, rfl, rfl, rfl⟩⟩

/-- A poll of one socket with a timeout of 250 ms: three passes. -/
theorem poll_waitsOut_one : ∃ out,
    WaitsOut .compat (.still (fun _ => true) waitTimeout) [⟨5, 0x001, 0⟩] 250 (selects out.log)
      ∧ ∀ fuel : Nat, passes 250 ≤ fuel →
        poll .compat (.still (fun _ => true) waitTimeout) (some [⟨5, 0x001, 0⟩]) 250 fuel
          = some out :=
  poll_waitsOut ⟨by decide, by decide⟩ (by decide) (by decide) (quiet_still (by decide))
    (fun _ => (by decide : waitTimeout ≠ waitFailed))

/-- One socket more than `FD_SETSIZE`. -/
def crowd : List Pollfd := List.replicate 65 ⟨5, 0x001, 0⟩

/-- **Two polls that do not wait though nothing is ready**: one of 65 sockets, and one
whose look at the handles fails. -/
theorem poll_does_not_wait :
    (sockets (.still (fun _ => true) waitTimeout) 0 crowd ≠ []
      ∧ Quiet (.still (fun _ => true) waitTimeout) crowd
      ∧ ∀ fuel out, poll .compat (.still (fun _ => true) waitTimeout) (some crowd) 0 fuel
          = some out → ¬ WaitsOut .compat (.still (fun _ => true) waitTimeout) crowd 0
            (selects out.log))
    ∧ (sockets (.still (· == 0) waitFailed) 0 [⟨5, 0x001, 0⟩, ⟨6, 0x001, 0⟩] ≠ []
      ∧ Quiet (.still (· == 0) waitFailed) [⟨5, 0x001, 0⟩, ⟨6, 0x001, 0⟩]
      ∧ ∀ fuel out, poll .compat (.still (· == 0) waitFailed)
          (some [⟨5, 0x001, 0⟩, ⟨6, 0x001, 0⟩]) 0 fuel = some out →
        ¬ WaitsOut .compat (.still (· == 0) waitFailed) [⟨5, 0x001, 0⟩, ⟨6, 0x001, 0⟩] 0
            (selects out.log)) := by
  have hnone : ∀ {H env pfds}, ¬ WaitsOut H env pfds 0 [] := by
    intro H env pfds h
    exact absurd h.count (by decide)
  refine ⟨⟨by decide, quiet_still (by decide), ?_⟩, by decide, quiet_still (by decide), ?_⟩
  · intro fuel out h
    -- the set-up pass gives up, so `select` is never called
    have hsu : setUp .compat (.still (fun _ => true) waitTimeout) 0 crowd .empty = none := by
      rw [setUp_eq_none_iff (by decide) (by decide)]
      decide
    have hlen : ¬ crowd.length ≤ 0 := by decide
    unfold poll at h
    dsimp only at h
    rw [if_neg hlen, hsu] at h
    obtain rfl := Option.some.inj h
    exact hnone
  · intro fuel out h
    cases fuel with
    | zero => exact absurd (show none = some out from h) (by simp)
    | succ fuel =>
        obtain rfl := Option.some.inj h
        exact hnone

end LibrePortable.Win.Poll
