import LibrePortable.Win.PollRuns

/-!
# The two passes over the entries

The set-up pass numbers the handles as it records them, the result pass as it looks them
up again. Both skip disabled entries and sockets. As long as `is_socket` does not change
its mind in between, entry by entry the number is the same, and the handle found under
it is the entry's own.
-/

namespace LibrePortable.Win.Poll

open LibrePortable.Win

variable {H : Header} {env : Env} {su : Setup} {pfds : List Pollfd} {T : Int}

/-! ## Numbers -/

/-- A system that answers in the set-up pass what it answers in the result pass. -/
def Env.again (env : Env) : Env := { env with enumSetup := env.enumResult }

/-- The number under which the set-up pass records the handle of entry `i`. -/
def setUpNumber (env : Env) (pfds : List Pollfd) (i : Nat) : Nat :=
  (others env 0 (pfds.take i)).length

/-- The number under which the result pass looks for it. -/
def resultNumber (env : Env) (pfds : List Pollfd) (i : Nat) : Nat :=
  (others env.again 0 (pfds.take i)).length

/-- `is_socket` gives the same answer in both passes. -/
def SameAnswers (env : Env) (pfds : List Pollfd) : Prop :=
  ∀ i p, pfds[i]? = some p → isSocket p.fd (env.enumSetup i) = isSocket p.fd (env.enumResult i)

/-- The handles that the set-up pass records. -/
def handlesOf (env : Env) (pfds : List Pollfd) : List Handle :=
  (others env 0 pfds).map fun p => env.osfHandle p.fd

theorem others_cons (env : Env) (i : Nat) (p : Pollfd) (ps : List Pollfd) :
    others env i (p :: ps) =
      if handleEntry env i p then p :: others env (i + 1) ps else others env (i + 1) ps := rfl

/-- Two systems that agree on which entries are handles number them alike. -/
theorem others_congr {env env' : Env} : ∀ {i : Nat} {ps : List Pollfd},
    (∀ j p, ps[j]? = some p → handleEntry env (i + j) p = handleEntry env' (i + j) p) →
      others env i ps = others env' i ps := by
  intro i ps
  induction ps generalizing i with
  | nil => intro _; rfl
  | cons p ps ih =>
      intro h
      have h0 := h 0 p rfl
      rw [others_cons, others_cons, ih fun j q hq => ?_]
      · rw [Nat.add_zero] at h0
        rw [h0]
      · have := h (j + 1) q hq
        rwa [show i + (j + 1) = i + 1 + j by omega] at this

theorem handleEntry_again (hsame : SameAnswers env pfds) {i : Nat} {p : Pollfd}
    (hp : pfds[i]? = some p) : handleEntry env.again i p = handleEntry env i p := by
  unfold handleEntry
  exact congrArg (fun b => !p.negative && !b) (hsame i p hp).symm

/-- **The numbers agree.** -/
theorem resultNumber_eq (hsame : SameAnswers env pfds) (i : Nat) :
    resultNumber env pfds i = setUpNumber env pfds i := by
  refine congrArg List.length (others_congr fun j p hp => ?_)
  rw [Nat.zero_add]
  have hlt : j < i := by
    have := (List.getElem?_eq_some_iff.mp hp).1
    rw [List.length_take] at this
    omega
  rw [List.getElem?_take_of_lt hlt] at hp
  exact handleEntry_again hsame hp

/-- Under its number an entry's own handle is recorded. -/
theorem others_getElem? : ∀ {i j : Nat} {ps : List Pollfd} {p : Pollfd}, ps[j]? = some p →
    handleEntry env (i + j) p = true →
      (others env i ps)[(others env i (ps.take j)).length]? = some p := by
  intro i j ps
  induction ps generalizing i j with
  | nil => intro p hp; exact absurd hp (by simp)
  | cons q qs ih =>
      intro p hp hh
      cases j with
      | zero =>
          obtain rfl := Option.some.inj hp
          rw [Nat.add_zero] at hh
          rw [others_cons, if_pos hh]
          rfl
      | succ j =>
          have hrest := @ih (i + 1) j p hp (by rwa [show i + 1 + j = i + (j + 1) by omega])
          rw [List.take_succ_cons, others_cons, others_cons]
          split
          · rw [List.length_cons, List.getElem?_cons_succ]
            exact hrest
          · exact hrest

theorem handlesOf_getElem? {i : Nat} {p : Pollfd} (hp : pfds[i]? = some p)
    (hh : handleEntry env i p = true) :
    (handlesOf env pfds)[setUpNumber env pfds i]? = some (env.osfHandle p.fd) := by
  unfold handlesOf setUpNumber
  rw [List.getElem?_map, others_getElem? hp (by rwa [Nat.zero_add])]
  rfl

theorem setUp_handles (hsu : setUp H env 0 pfds .empty = some su) :
    su.handles = handlesOf env pfds := by
  obtain ⟨-, -, hh, -⟩ := setUp_spec Setup.fits_empty hsu
  exact hh.trans (List.nil_append _)

/-! ## What an entry gets -/

/-- The `revents` of entry `i`, with number `n`, after pass `k`. -/
def entryRevents (H : Header) (env : Env) (su : Setup) (k i n : Nat) (p : Pollfd) : Bits :=
  if p.negative then 0
  else if isSocket p.fd (env.enumResult i) then
    computeSelectRevents H (env.recv i) p.fd p.events (env.select k).rfds (env.select k).wfds
      (env.select k).efds
  else
    (computeWaitRevents H env.stdInput (env.peekConsole i) su.handles[n]? p.events n
      (lastWait env su k)).1

/-- An entry gets its `revents`, and whether it is a handle decides the next number. -/
theorem results_cons {k i n : Nat} (p : Pollfd) (ps : List Pollfd) : ∃ fl,
    results H env su (finalState env su T k) i n (p :: ps) =
      (results H env su (finalState env su T k) (i + 1)
        (if handleEntry env.again i p then n + 1 else n) ps).cons
          { p with revents := entryRevents H env su k i n p } fl := by
  obtain ⟨hr, hw, he⟩ := @finalState_sets env su T k
  have hrc := @finalState_waitRc env su T k
  have hh : handleEntry env.again i p = (!p.negative && !isSocket p.fd (env.enumResult i)) := rfl
  rw [results, hh]
  unfold entryRevents
  cases p.negative with
  | true => exact ⟨[], rfl⟩
  | false =>
      cases isSocket p.fd (env.enumResult i) with
      | true =>
          simp only [Bool.false_eq_true, if_false, if_true, hr, hw, he]
          exact ⟨[], rfl⟩
      | false =>
          simp only [Bool.false_eq_true, if_false, hrc]
          exact ⟨_, rfl⟩

/-- **What the result pass stores**, from entry `i` on. -/
theorem results_getElem? {k : Nat} : ∀ {i n : Nat} {ps : List Pollfd} (j : Nat),
    (results H env su (finalState env su T k) i n ps).pfds[j]? = ps[j]?.map fun p =>
      { p with
        revents := entryRevents H env su k (i + j) (n + (others env.again i (ps.take j)).length) p }
      := by
  intro i n ps
  induction ps generalizing i n with
  | nil => intro j; rfl
  | cons p ps ih =>
      intro j
      obtain ⟨fl, hres⟩ := @results_cons H env su T k i n p ps
      rw [hres]
      cases j with
      | zero => rfl
      | succ j =>
          show (results H env su (finalState env su T k) (i + 1) _ ps).pfds[j]? = _
          rw [ih j, List.getElem?_cons_succ, List.take_succ_cons, others_cons,
            show i + 1 + j = i + (j + 1) by omega]
          refine congrArg (fun f => Option.map f _) (funext fun q => ?_)
          split
          · rw [List.length_cons, Nat.add_assoc, Nat.add_comm 1]
          · rfl

theorem results_length {st : LoopState} : ∀ {i n : Nat} {ps : List Pollfd},
    (results H env su st i n ps).pfds.length = ps.length := by
  intro i n ps
  induction ps generalizing i n with
  | nil => rfl
  | cons p ps ih =>
      unfold results
      split
      · exact congrArg (· + 1) ih
      · split
        · exact congrArg (· + 1) ih
        · exact congrArg (· + 1) ih

/-- The entries that `poll` leaves behind after a last pass that did not fail. -/
theorem outcomeAfter_getElem? {k : Nat} (h : Sound env su k) (i : Nat) :
    (outcomeAfter H env su pfds T k).pfds[i]? = pfds[i]?.map fun p =>
      { p with revents := entryRevents H env su k i (resultNumber env pfds i) p } := by
  rw [(outcomeAfter_ok h).2.1, results_getElem? i, Nat.zero_add, Nat.zero_add]
  rfl

/-! ## A whole poll -/

/-- What one entry looks like after a `poll` whose last pass was pass `k`. -/
structure EntryDone (H : Header) (env : Env) (su : Setup) (pfds : List Pollfd) (k i : Nat)
    (p p' : Pollfd) : Prop where
  kept : p'.fd = p.fd ∧ p'.events = p.events
  negative : p.negative = true → p'.revents = 0
  socket : socketEntry env i p = true → p'.revents = computeSelectRevents H (env.recv i) p.fd
    p.events (env.select k).rfds (env.select k).wfds (env.select k).efds
  /-- The number is the one of the set-up pass. -/
  number : handleEntry env i p = true → resultNumber env pfds i = setUpNumber env pfds i
  /-- The handle under that number is the entry's own. -/
  handle : handleEntry env i p = true →
    su.handles[resultNumber env pfds i]? = some (env.osfHandle p.fd)
  wait : handleEntry env i p = true → p'.revents = (computeWaitRevents H env.stdInput
    (env.peekConsole i) (some (env.osfHandle p.fd)) p.events (setUpNumber env pfds i)
    (lastWait env su k)).1

/-- What a `poll` that does not return -1 has done. -/
structure Done (H : Header) (env : Env) (su : Setup) (pfds : List Pollfd) (T : Int)
    (out : Outcome) : Prop where
  /-- None of the arrays is filled beyond its end, and no descriptor is left out of them. -/
  fits : su.Fits
  interest : Interest H env pfds ⟨su.rfds, su.wfds, su.efds, ⟨0, 0⟩⟩
  handles : su.handles = handlesOf env pfds
  length : out.pfds.length = pfds.length
  entries : ∃ k, Last env su T k ∧ Sound env su k ∧ ∀ i p, pfds[i]? = some p →
    ∃ p', out.pfds[i]? = some p' ∧ EntryDone H env su pfds k i p p'
  counted : out.rc = (out.pfds.filter fun p => p.revents ≠ 0).length

theorem entryRevents_done (hsu : setUp H env 0 pfds .empty = some su)
    (hsame : SameAnswers env pfds) {k i : Nat} {p : Pollfd} (hp : pfds[i]? = some p) :
    EntryDone H env su pfds k i p
      { p with revents := entryRevents H env su k i (resultNumber env pfds i) p } := by
  have hsock := hsame i p hp
  have hnum := resultNumber_eq hsame i
  have hhandle : handleEntry env i p = true →
      su.handles[resultNumber env pfds i]? = some (env.osfHandle p.fd) := fun h => by
    rw [hnum, setUp_handles hsu, handlesOf_getElem? hp h]
  refine ⟨⟨rfl, rfl⟩, fun h => if_pos h, fun h => ?_, fun _ => hnum, hhandle, fun h => ?_⟩
  · obtain ⟨hneg, hs⟩ := Bool.and_eq_true_iff.mp h
    rw [hsock] at hs
    show entryRevents H env su k i _ p = _
    unfold entryRevents
    rw [if_neg (by simpa using hneg), if_pos hs]
  · obtain ⟨hneg, hs⟩ := Bool.and_eq_true_iff.mp h
    rw [hsock] at hs
    show entryRevents H env su k i _ p = _
    unfold entryRevents
    rw [if_neg (by simpa using hneg), if_neg (by simpa using hs), hhandle h, hnum]

/--
**The two passes enumerate the same entries.**

If `poll` does not return -1, every entry has been worked out from its own descriptor and
requests, a handle under the number it was recorded with, and the return value counts the
entries with something to report. If it returns -1, nothing has been stored.
-/
theorem poll_aligned {fuel : Nat} {out : Outcome} (hsame : SameAnswers env pfds)
    (h : poll H env (some pfds) T fuel = some out) :
    (out.rc ≠ -1 → (pfds = [] ∧ out = ⟨0, none, [], [], []⟩)
        ∨ ∃ su, setUp H env 0 pfds .empty = some su ∧ Done H env su pfds T out)
      ∧ (out.rc = -1 → out.pfds = pfds) := by
  by_cases hne : pfds = []
  · subst hne
    obtain rfl := Option.some.inj h
    exact ⟨fun _ => Or.inl ⟨rfl, rfl⟩, fun _ => rfl⟩
  rcases (poll_eq_some_iff hne).mp h with ⟨-, rfl⟩ | ⟨su, hsu, k, -, hlast, rfl⟩
  · exact ⟨fun hrc => absurd rfl hrc, fun _ => rfl⟩
  constructor
  · intro hrc
    have hsound := outcomeAfter_rc.mp hrc
    obtain ⟨hready, hpfds, -⟩ := @outcomeAfter_ok H env su pfds T k hsound
    refine Or.inr ⟨su, hsu, (setUp_spec Setup.fits_empty hsu).1, (setUp_records hsu).2.2,
      setUp_handles hsu, ?_, ⟨k, hlast, hsound, fun i p hp => ?_⟩, ?_⟩
    · rw [hpfds, results_length]
    · refine ⟨_, ?_, entryRevents_done hsu hsame hp⟩
      rw [outcomeAfter_getElem? hsound, hp]
      rfl
    · rw [hready, hpfds, results_ready]
  · intro hrc
    refine (outcomeAfter_error fun hsound => ?_).2
    exact outcomeAfter_rc.mpr hsound hrc

/-- A socket between two files, the second of which is duplicated, and a disabled entry. -/
def mixed : List Pollfd :=
  [⟨3, 0x001, 9⟩, ⟨-1, 0x001, 9⟩, ⟨5, 0x001, 9⟩, ⟨4, 0x004, 9⟩, ⟨4, 0x001, 0⟩]

/-- A system in which entry 2 is a socket and the second handle has signaled. -/
def Env.secondSignaled : Env :=
  { Env.still (· == 2) 1 with select := fun _ => ⟨socketError, .zero, .zero, .zero, .WSAEINVAL⟩ }

theorem poll_mixed : poll .compat .secondSignaled (some mixed) (-1) 1 =
    some (outcomeAfter .compat .secondSignaled
      ⟨(FdSet.zero.set 5), .zero, (FdSet.zero.set 5), 1, [3, 4, 4]⟩ mixed (-1) 0) := rfl

/-- One entry is reported, and every entry is treated as the one it is. -/
theorem poll_aligned_mixed : ∃ out su, poll .compat .secondSignaled (some mixed) (-1) 1 = some out
    ∧ out.rc = 1 ∧ setUp .compat .secondSignaled 0 mixed .empty = some su
    ∧ Done .compat .secondSignaled su mixed (-1) out := by
  have hrc : (outcomeAfter .compat .secondSignaled
      ⟨(FdSet.zero.set 5), .zero, (FdSet.zero.set 5), 1, [3, 4, 4]⟩ mixed (-1) 0).rc = 1 := by
    decide
  rcases (poll_aligned (fun _ _ _ => rfl) poll_mixed).1 (by rw [hrc]; decide) with
    ⟨hnil, -⟩ | ⟨su, hsu, hdone⟩
  · cases hnil
  · exact ⟨_, su, poll_mixed, hrc, hsu, hdone⟩

end LibrePortable.Win.Poll
