import LibrePortable.Win.PollResults

/-!
# When `poll` returns 0, and when -1

Zero should mean that the timeout has passed, and -1 that the wait itself failed. Both
fail for arrays with other handles in them: the handle that ends the wait may have
nothing to report, and without a socket `select` refuses to wait at all. Each result
below says for exactly which arrays and events the meaning holds.
-/

namespace LibrePortable.Win.Poll

open LibrePortable.Win

variable {H : Header} {env : Env} {su : Setup} {pfds : List Pollfd} {T : Int}

/-- What `poll` returns after its loop. -/
def LoopEnd.outcome (H : Header) (env : Env) (su : Setup) (pfds : List Pollfd) (r : LoopEnd) :
    Outcome :=
  match r.result with
  | .error e => .error e pfds r.log
  | .ok st =>
      let res := results H env su st 0 0 pfds
      ⟨res.ready, none, res.pfds, r.log, res.flushed⟩

theorem poll_of_loop {fuel : Nat} {r : LoopEnd} (hne : pfds ≠ [])
    (hsu : setUp H env 0 pfds .empty = some su)
    (hr : loop env su T fuel 0 (.start su T) = some r) :
    poll H env (some pfds) T fuel = some (r.outcome H env su pfds) := by
  have hlen : ¬ pfds.length ≤ 0 := fun h => hne (List.length_eq_zero_iff.mp (by omega))
  obtain ⟨log, result⟩ := r
  unfold poll
  dsimp only
  rw [if_neg hlen, hsu]
  dsimp only
  rw [hr]
  cases result <;> rfl

theorem poll_of_crowded {fuel : Nat} (hne : pfds ≠ []) (hsu : setUp H env 0 pfds .empty = none) :
    poll H env (some pfds) T fuel = some (.error .EINVAL pfds []) := by
  have hlen : ¬ pfds.length ≤ 0 := fun h => hne (List.length_eq_zero_iff.mp (by omega))
  unfold poll
  dsimp only
  rw [if_neg hlen, hsu]

/-- **The ways `poll` can return**, for an array that is not empty. -/
theorem poll_cases {fuel : Nat} {out : Outcome} (hne : pfds ≠ [])
    (h : poll H env (some pfds) T fuel = some out) :
    (setUp H env 0 pfds .empty = none ∧ out = .error .EINVAL pfds [])
      ∨ ∃ su r, setUp H env 0 pfds .empty = some su
        ∧ loop env su T fuel 0 (.start su T) = some r ∧ out = r.outcome H env su pfds := by
  cases hsu : setUp H env 0 pfds .empty with
  | none =>
      rw [poll_of_crowded hne hsu] at h
      exact Or.inl ⟨rfl, (Option.some.inj h).symm⟩
  | some su =>
      right
      cases hr : loop env su T fuel 0 (.start su T) with
      | none =>
          have hlen : ¬ pfds.length ≤ 0 := fun h => hne (List.length_eq_zero_iff.mp (by omega))
          unfold poll at h
          dsimp only at h
          rw [if_neg hlen, hsu] at h
          dsimp only at h
          rw [hr] at h
          exact absurd h (by simp)
      | some r =>
          rw [poll_of_loop hne hsu hr] at h
          exact ⟨su, r, rfl, hr, (Option.some.inj h).symm⟩

/-- Fuel left over changes nothing. -/
theorem poll_mono {fuel fuel' : Nat} {out : Outcome} (hne : pfds ≠ []) (hle : fuel ≤ fuel')
    (h : poll H env (some pfds) T fuel = some out) : poll H env (some pfds) T fuel' = some out := by
  rcases poll_cases hne h with ⟨hsu, rfl⟩ | ⟨su, r, hsu, hr, rfl⟩
  · exact poll_of_crowded hne hsu
  · exact poll_of_loop hne hsu (loop_mono hle hr)

theorem outcome_of_ok {r : LoopEnd} {st : LoopState} (hr : r.result = .ok st) :
    (r.outcome H env su pfds).rc = (results H env su st 0 0 pfds).ready
      ∧ (r.outcome H env su pfds).pfds = (results H env su st 0 0 pfds).pfds
      ∧ (r.outcome H env su pfds).log = r.log := by
  unfold LoopEnd.outcome
  rw [hr]
  exact ⟨rfl, rfl, rfl⟩

theorem outcome_of_error {r : LoopEnd} {e : Errno} (hr : r.result = .error e) :
    r.outcome H env su pfds = .error e pfds r.log := by
  unfold LoopEnd.outcome
  rw [hr]

/-- The set-up pass gives `select` a socket exactly if it counts one. -/
theorem setUp_counts (hsu : setUp H env 0 pfds .empty = some su) : su.Counts := by
  obtain ⟨hn, -, hint⟩ := setUp_records hsu
  have hefds : ∀ fd, fd ∈ su.efds.fds ↔ ∃ p ∈ sockets env 0 pfds, p.fd = fd := hint.efds
  unfold Setup.Counts
  rw [hn]
  constructor
  · intro h hnil
    obtain ⟨p, hp⟩ := List.exists_mem_of_length_pos (Nat.pos_of_ne_zero h)
    have := (hefds p.fd).mpr ⟨p, hp, rfl⟩
    rw [hnil] at this
    exact List.not_mem_nil this
  · intro h h0
    obtain ⟨fd, hfd⟩ := List.exists_mem_of_ne_nil _ h
    obtain ⟨p, hp, -⟩ := (hefds fd).mp hfd
    rw [List.length_eq_zero_iff.mp h0] at hp
    exact List.not_mem_nil hp

/-! ## Zero -/

/-- `poll` returns 0 only when its passes have waited out the timeout. -/
def ZeroMeansTimeout (H : Header) (env : Env) (pfds : List Pollfd) (T : Int) : Prop :=
  ∀ fuel out, poll H env (some pfds) T fuel = some out → out.rc = 0 →
    0 ≤ T ∧ waited out.log = T * 1000

/-- Whichever pass ends the wait, some entry has something to report then. -/
def WakesReport (H : Header) (env : Env) (pfds : List Pollfd) (T : Int) : Prop :=
  ∀ su k, setUp H env 0 pfds .empty = some su → FirstWake env su T k →
    SomeReports H env su k 0 0 pfds

/-- **When 0 means that the timeout has passed**: with a timeout of 0, and otherwise
exactly when every wake-up comes with something to report. -/
theorem zeroMeansTimeout_iff (hne : ∃ p ∈ pfds, p.negative = false) (hT : -1 ≤ T) :
    ZeroMeansTimeout H env pfds T ↔ T = 0 ∨ WakesReport H env pfds T := by
  obtain ⟨p, hp, -⟩ := hne
  have hnil : pfds ≠ [] := List.ne_nil_of_mem hp
  constructor
  · intro h
    by_contra hc
    rw [not_or] at hc
    obtain ⟨hT0, hwr⟩ := hc
    unfold WakesReport at hwr
    push Not at hwr
    obtain ⟨su, k, hsu, hfw, hnr⟩ := hwr
    -- the silent wake-up in pass `k` makes `poll` return 0 with only `k` slices waited out
    obtain ⟨r, st, hr, hn, hres, hwaited⟩ := @loop_woken env su T (setUp_counts hsu) k 0 _
      (onTime_start su T) (noWait_start su T) (fun i _ hi => hfw.before i (by omega))
      (by rw [Nat.zero_add]; exact hfw.inTime) (by rw [Nat.zero_add]; exact hfw.waitOk)
      (by rw [Nat.zero_add]; exact hfw.selectOk) (by rw [Nat.zero_add]; exact hfw.wakes)
    rw [Nat.zero_add] at hres
    obtain ⟨hrc, -, hlog⟩ := @outcome_of_ok H env su pfds r _ hres
    have hready := (results_ready_eq_zero (T := T) hn).mpr hnr
    obtain ⟨h0, hw⟩ := h (k + 1) _ (poll_of_loop hnil hsu hr) (by rw [hrc, hready]; rfl)
    rw [hlog, hwaited] at hw
    rcases hfw.inTime with hk | hk | hk <;> omega
  · intro hcond fuel out h hrc
    rcases poll_cases hnil h with ⟨-, rfl⟩ | ⟨su, r, hsu, hr, rfl⟩
    · exact absurd hrc (show (-1 : Int) ≠ 0 by decide)
    have hends := loop_ends hT (setUp_counts hsu) (onTime_start su T) (noWait_start su T) hr
    cases hends with
    | timedOut st hres hT' hw =>
        rw [(outcome_of_ok hres).2.2, hw]
        exact ⟨hT', by push_cast; omega⟩
    | failed e hres =>
        rw [outcome_of_error hres] at hrc
        exact absurd hrc (show (-1 : Int) ≠ 0 by decide)
    | woken j st _ hidle ht hwf hsf hwk hn hres hw =>
        rcases hcond with rfl | hwr
        · rw [(outcome_of_ok hres).2.2, hw]
          rcases ht with hj | hj | hj <;> omega
        · -- a wake-up that reports something does not return 0
          have hsome := hwr su j hsu ⟨fun i hi => hidle i (Nat.zero_le _) hi, ht, hwf, hsf, hwk⟩
          rw [(outcome_of_ok hres).1] at hrc
          have hready := Int.ofNat_eq_zero.mp hrc
          exact absurd hsome ((results_ready_eq_zero hn).mp hready)

/-- A console with a mouse event at the head of its queue, standing at standard input. -/
def Env.mouseMoved : Env where
  enumSetup _ := socketError
  enumResult _ := socketError
  osfHandle _ := 7
  wait _ := waitObject0
  select _ := ⟨socketError, .zero, .zero, .zero, .WSAEINVAL⟩
  recv _ _ := ⟨socketError, .other 0⟩
  stdInput := 7
  peekConsole _ := some ⟨.MOUSE_EVENT, false⟩

/-- **A mouse event ends the wait, and `poll` returns 0** though it was to wait forever. -/
theorem poll_mouseMoved : ∃ out,
    poll .compat .mouseMoved (some [⟨0, 0x001, 0⟩]) (-1) 1 = some out ∧ out.rc = 0
      ∧ ¬ (0 ≤ (-1 : Int) ∧ waited out.log = -1 * 1000) :=
  ⟨_, rfl, by decide, by decide⟩

/-- That poll, of a console where the mouse has moved. -/
theorem zeroMeansTimeout_iff_mouseMoved :
    ZeroMeansTimeout .compat .mouseMoved [⟨0, 0x001, 0⟩] (-1)
      ↔ (-1 : Int) = 0 ∨ WakesReport .compat .mouseMoved [⟨0, 0x001, 0⟩] (-1) :=
  zeroMeansTimeout_iff ⟨_, List.mem_singleton.mpr rfl, by decide⟩ (by decide)

/-! ## -1 -/

/-- `select` given three empty sets fails with `WSAEINVAL`, as the comment in front of
the loop says. It is given what the set-up pass recorded. -/
def EmptySelectFails (H : Header) (env : Env) (pfds : List Pollfd) : Prop :=
  ∀ su, setUp H env 0 pfds .empty = some su →
    su.rfds.fds = [] → su.wfds.fds = [] → su.efds.fds = [] →
      ∀ k, (env.select k).rc = socketError ∧ (env.select k).err = .WSAEINVAL

/-- A file that does not signal, in a system where `select` refuses empty sets. -/
def Env.stillFile : Env :=
  { Env.mouseMoved with wait := fun _ => waitTimeout, osfHandle := fun _ => 9 }

/-- How a poll of handles should return: -1 only if the look at the handles failed,
otherwise the number of ready entries, once a handle has signaled or the time is up. -/
structure ServesHandles (T : Int) (out : Outcome) : Prop where
  error : out.rc = -1 → ∃ hs, PollCall.wait hs waitFailed ∈ out.log
  waits : out.rc ≠ -1 → (∃ hs rc, PollCall.wait hs rc ∈ out.log ∧ rc < hs.length)
    ∨ (0 ≤ T ∧ waited out.log = T * 1000 ∧ out.rc = 0)
  counts : out.rc ≠ -1 → out.rc = (out.pfds.filter fun p => p.revents ≠ 0).length

/-- The first look at the handles settles the poll: there is a handle to look at, no more
than `FD_SETSIZE`, and the look reports one of them or fails. -/
def SettledAtOnce (env : Env) (pfds : List Pollfd) : Prop :=
  others env 0 pfds ≠ [] ∧ (others env 0 pfds).length ≤ fdSetsize
    ∧ (env.wait 0 = waitFailed ∨ env.wait 0 < (others env 0 pfds).length)

/-- Without a socket the first pass is the last. -/
theorem loop_without_sockets (hns : sockets env 0 pfds = []) (hes : EmptySelectFails H env pfds)
    (hsu : setUp H env 0 pfds .empty = some su) (st : LoopState) :
    (WaitFails env su 0
        ∧ ∀ fuel, loop env su T (fuel + 1) 0 st = some ⟨waitCalls env su 0, .error .ENOMEM⟩)
      ∨ (¬ WaitFails env su 0 ∧ Signals env su 0 ∧ ∀ fuel, loop env su T (fuel + 1) 0 st =
          some ⟨waitCalls env su 0 ++ [selectCall env su T 0 st], .ok (selected env su T 0 st)⟩)
      ∨ (¬ WaitFails env su 0 ∧ ¬ Signals env su 0 ∧ ∀ fuel, loop env su T (fuel + 1) 0 st =
          some ⟨waitCalls env su 0 ++ [selectCall env su T 0 st], .error .EINVAL⟩) := by
  obtain ⟨hn, -, hint⟩ := setUp_records hsu
  have hempty : ∀ s : FdSet, (∀ fd, fd ∉ s.fds) → s.fds = [] :=
    fun s h => List.eq_nil_iff_forall_not_mem.mpr h
  have hno : ∀ p, p ∉ sockets env 0 pfds := by rw [hns]; exact fun p => List.not_mem_nil
  obtain ⟨hrc, herr⟩ := hes su hsu
    (hempty _ fun fd h => by obtain ⟨p, hp, -⟩ := (hint.rfds fd).mp h; exact hno p hp)
    (hempty _ fun fd h => by obtain ⟨p, hp, -⟩ := (hint.wfds fd).mp h; exact hno p hp)
    (hempty _ fun fd h => by obtain ⟨p, hp, -⟩ := (hint.efds fd).mp h; exact hno p hp) 0
  by_cases hwf : WaitFails env su 0
  · exact Or.inl ⟨hwf, fun fuel => loop_of_waitFails hwf T fuel st⟩
  by_cases hs : Signals env su 0
  · have hsf : ¬ SelectFails env su 0 := fun h => h.1 hs
    exact Or.inr (Or.inl ⟨hwf, hs, fun fuel => loop_of_wakes hwf hsf (Or.inl hs) T fuel st⟩)
  · refine Or.inr (Or.inr ⟨hwf, hs, fun fuel => ?_⟩)
    have h := loop_of_selectFails hwf ⟨hs, hrc⟩ T fuel st
    rw [herr] at h
    exact h

theorem mem_waitCalls {hs : List Handle} {rc : Nat} {k : Nat}
    (h : PollCall.wait hs rc ∈ waitCalls env su k) :
    hs = su.handles ∧ rc = env.wait k ∧ su.handles.length ≠ 0 := by
  unfold waitCalls at h
  split at h
  · rename_i hlen
    cases List.mem_singleton.mp h
    exact ⟨rfl, rfl, hlen⟩
  · exact absurd h List.not_mem_nil

theorem wait_mem_waitCalls {k : Nat} (h : su.handles.length ≠ 0) :
    PollCall.wait su.handles (env.wait k) ∈ waitCalls env su k := by
  unfold waitCalls
  rw [if_pos h]
  exact List.mem_singleton.mpr rfl

/-- A return of -1 serves only if the look at the handles failed. -/
theorem servesHandles_error_iff {e : Errno} {log : List PollCall} :
    ServesHandles T (.error e pfds log) ↔ ∃ hs, PollCall.wait hs waitFailed ∈ log := by
  constructor
  · intro h; exact h.error rfl
  · intro h
    exact ⟨fun _ => h, fun hrc => absurd rfl hrc, fun hrc => absurd rfl hrc⟩

/-- A poll of handles has one outcome, and it serves if it was settled at once. -/
theorem poll_handles (hns : sockets env 0 pfds = []) (hes : EmptySelectFails H env pfds)
    (hne : pfds ≠ []) : ∃ out, (∀ fuel, poll H env (some pfds) T (fuel + 1) = some out)
      ∧ (ServesHandles T out ↔ SettledAtOnce env pfds) := by
  cases hsu : setUp H env 0 pfds .empty with
  | none =>
      -- too many handles: `EINVAL` before any look at them
      refine ⟨_, fun fuel => poll_of_crowded hne hsu, ?_⟩
      rw [setUp_eq_none_iff (by decide) (by decide), hns] at hsu
      have hcrowded : fdSetsize < (others env 0 pfds).length := by
        rcases hsu with h | h
        · exact absurd h (by decide)
        · simpa [Setup.empty] using h
      rw [servesHandles_error_iff]
      constructor
      · rintro ⟨hs, h⟩; exact absurd h List.not_mem_nil
      · intro h; have := h.2.1; omega
  | some su =>
      obtain ⟨-, hlen, -⟩ := setUp_records hsu
      have hfits : su.handles.length ≤ fdSetsize := (setUp_spec Setup.fits_empty hsu).1.handles
      have hnil : others env 0 pfds ≠ [] ↔ su.handles.length ≠ 0 := by
        rw [hlen, ne_eq, ne_eq, List.length_eq_zero_iff]
      unfold SettledAtOnce
      rw [hnil, ← hlen]
      -- the look failed, or a handle has signaled, or `select` refuses to wait
      rcases @loop_without_sockets H env su pfds T hns hes hsu (.start su T) with
        ⟨hwf, hloop⟩ | ⟨hwf, hs, hloop⟩ | ⟨hwf, hs, hloop⟩
      · refine ⟨_, fun fuel => poll_of_loop hne hsu (hloop fuel), ?_⟩
        rw [outcome_of_error rfl, servesHandles_error_iff]
        refine ⟨fun _ => ⟨hwf.1, hfits, Or.inl hwf.2⟩, fun _ => ⟨su.handles, ?_⟩⟩
        rw [← hwf.2]
        exact wait_mem_waitCalls hwf.1
      · refine ⟨_, fun fuel => poll_of_loop hne hsu (hloop fuel), ?_⟩
        have hpos : su.handles.length ≠ 0 := fun h0 => by unfold Signals at hs; omega
        obtain ⟨hrc, hpfds, hlog⟩ := @outcome_of_ok H env su pfds _ _ (rfl : LoopEnd.result
          ⟨waitCalls env su 0 ++ [selectCall env su T 0 (.start su T)],
            .ok (selected env su T 0 (.start su T))⟩ = _)
        refine ⟨fun _ => ⟨hpos, hfits, Or.inr hs⟩, fun _ => ⟨?_, fun _ => Or.inl ?_, fun _ => ?_⟩⟩
        · intro herr; rw [hrc] at herr; omega
        · rw [hlog]
          exact ⟨_, _, List.mem_append_left _ (wait_mem_waitCalls hpos), hs⟩
        · rw [hrc, hpfds, results_ready]
      · refine ⟨_, fun fuel => poll_of_loop hne hsu (hloop fuel), ?_⟩
        rw [outcome_of_error rfl, servesHandles_error_iff]
        constructor
        · intro hboth
          obtain ⟨handles, hm⟩ := hboth
          rcases List.mem_append.mp hm with hm | hm
          · obtain ⟨-, hrc, hpos⟩ := mem_waitCalls hm
            exact absurd ⟨hpos, hrc.symm⟩ hwf
          · exact absurd (List.mem_singleton.mp hm) (by simp [selectCall])
        · intro hboth
          obtain ⟨hpos, -, hrc | hrc⟩ := hboth
          · exact absurd ⟨hpos, hrc⟩ hwf
          · exact absurd hrc hs

/-- **When a poll of handles waits as it should**: an empty array with a timeout of 0,
and otherwise exactly when the first look at the handles settles it. In every other
case it is `select` that returns, with an error. -/
theorem servesHandles_iff (hns : sockets env 0 pfds = []) (hes : EmptySelectFails H env pfds) :
    (∀ fuel, ∃ out, poll H env (some pfds) T (fuel + 1) = some out)
      ∧ ((∀ fuel out, poll H env (some pfds) T fuel = some out → ServesHandles T out)
        ↔ (pfds = [] ∧ T = 0) ∨ SettledAtOnce env pfds) := by
  by_cases hne : pfds = []
  · subst hne
    -- an empty array returns 0 at once, which is right for a timeout of 0 only
    have hpoll : ∀ fuel, poll H env (some []) T fuel = some ⟨0, none, [], [], []⟩ := fun _ => rfl
    have hnot : ¬ SettledAtOnce env [] := fun h => h.1 rfl
    refine ⟨fun fuel => ⟨_, hpoll (fuel + 1)⟩, ?_⟩
    constructor
    · intro h
      rcases (h 1 _ (hpoll 1)).waits (by decide) with ⟨hs, rc, hm, -⟩ | ⟨-, hw, -⟩
      · exact absurd hm List.not_mem_nil
      · exact Or.inl ⟨rfl, by change (0 : Int) = T * 1000 at hw; omega⟩
    · intro hcase fuel out hout
      rcases hcase with ⟨-, rfl⟩ | h
      · rw [hpoll] at hout
        obtain rfl := Option.some.inj hout
        exact ⟨fun h => absurd h (by decide), fun _ => Or.inr ⟨by decide, rfl, rfl⟩, fun _ => rfl⟩
      · exact absurd h hnot
  · obtain ⟨out, hout, hserves⟩ := @poll_handles H env pfds T hns hes hne
    refine ⟨fun fuel => ⟨out, hout fuel⟩, ?_⟩
    constructor
    · intro h
      exact Or.inr (hserves.mp (h 1 out (hout 0)))
    · intro hcase fuel out' hout'
      rcases hcase with ⟨h, -⟩ | h
      · exact absurd h hne
      · -- fuel changes nothing but whether there is an outcome, so this is `out`
        have hsame := poll_mono hne (Nat.le_succ fuel) hout'
        rw [hout] at hsame
        obtain rfl := Option.some.inj hsame
        exact hserves.mpr h

/-- A poll of one file that has not signaled. -/
theorem servesHandles_iff_still : (∀ fuel, ∃ out, poll .compat .stillFile
      (some [⟨0, 0x001, 0⟩]) 1000 (fuel + 1) = some out)
    ∧ ((∀ fuel out, poll .compat .stillFile (some [⟨0, 0x001, 0⟩]) 1000 fuel = some out →
        ServesHandles 1000 out)
      ↔ (([⟨0, 0x001, 0⟩] : List Pollfd) = [] ∧ (1000 : Int) = 0)
        ∨ SettledAtOnce .stillFile [⟨0, 0x001, 0⟩]) :=
  servesHandles_iff (by decide) (fun _ _ _ _ _ _ => ⟨rfl, rfl⟩)

/-- **A poll of one file gives up at once**: it was to wait for a second, the look at
the file did not fail, and -1 comes back. -/
theorem poll_stillFile : ∃ out,
    poll .compat .stillFile (some [⟨0, 0x001, 0⟩]) 1000 1 = some out ∧ out.rc = -1
      ∧ EmptySelectFails .compat .stillFile [⟨0, 0x001, 0⟩] ∧ ¬ ServesHandles 1000 out :=
  ⟨_, rfl, rfl, fun _ _ _ _ _ _ => ⟨rfl, rfl⟩, fun h => by
    obtain ⟨hs, hm⟩ := h.error rfl
    rcases List.mem_cons.mp hm with hm | hm
    · exact absurd (PollCall.wait.inj hm).2 (by decide)
    · exact absurd (List.mem_singleton.mp hm) (by simp)⟩

end LibrePortable.Win.Poll
