import LibrePortable.Win.PollBits

/-!
# What the bits are worth

A bit about a socket should come from a `select` that succeeded, and should be one that
was asked for. The first fails where a handle covers up for a `select` that failed, and
where the bits of urgent data count as `POLLIN`, the second because requests and reports
are grouped differently, and because the exception set is not asked about at all.
-/

namespace LibrePortable.Win.Poll

open LibrePortable.Win

variable {H : Header} {env : Env} {su : Setup} {pfds : List Pollfd} {T : Int}

/-! ## The last `select` -/

/-- The answers of `select`, in order. -/
def answers (log : List PollCall) : List SelectAnswer :=
  log.filterMap fun
    | .wait _ _ => none
    | .select _ _ _ _ answer => some answer

/-- The answer of the last `select`. -/
def lastSelect (log : List PollCall) : Option SelectAnswer := (answers log).getLast?

theorem lastSelect_append_select (log : List PollCall) (k : Nat) (st : LoopState) :
    lastSelect (log ++ [selectCall env su T k st]) = some (env.select k) := by
  unfold lastSelect answers
  rw [List.filterMap_append]
  exact List.getLast?_concat ..

/-- A pass that does not fail ends with a `select`, and that is the last one. -/
theorem lastSelect_outcomeAfter {k : Nat} (h : Sound env su k) :
    lastSelect (outcomeAfter H env su pfds T k).log = some (env.select k) := by
  rw [(outcomeAfter_ok h).2.2]
  unfold endFrom
  dsimp only
  rw [Nat.sub_zero, List.range'_1_concat, List.flatMap_append, Nat.zero_add, List.flatMap_cons,
    List.flatMap_nil, List.append_nil, passLog_of_not_fails h.1, ← List.append_assoc]
  exact lastSelect_append_select _ _ _

/-! ## Readiness of a socket -/

/-- A `select` that fails leaves the sets it was given as they are. -/
def FailsUnchanged (H : Header) (env : Env) (pfds : List Pollfd) : Prop :=
  ∀ su, setUp H env 0 pfds .empty = some su → ∀ k, (env.select k).rc = socketError →
    (env.select k).rfds = su.rfds ∧ (env.select k).wfds = su.wfds ∧ (env.select k).efds = su.efds

/-- Entry `i` is `p`, and the result pass finds that it is a socket. -/
structure SocketAt (env : Env) (pfds : List Pollfd) (i : Nat) (p : Pollfd) : Prop where
  get : pfds[i]? = some p
  enabled : p.negative = false
  socket : isSocket p.fd (env.enumResult i) = true

/-- The last `select` succeeded and left this descriptor in one of its sets. -/
def LeftBySelect (set : SelectAnswer → FdSet) (out : Outcome) (fd : CInt) : Prop :=
  ∃ answer, lastSelect out.log = some answer ∧ answer.rc ≠ socketError ∧ fd ∈ (set answer).fds

/-- No socket is reported as ready unless the last `select` says so. -/
def OnlyReadiness (H : Header) (env : Env) (pfds : List Pollfd) (T : Int) : Prop :=
  ∀ fuel out, poll H env (some pfds) T fuel = some out → 0 ≤ out.rc →
    ∀ i p p', SocketAt env pfds i p → out.pfds[i]? = some p' →
      (HasSome p'.revents H.pollin ∨ HasSome p'.revents H.pollrdnorm →
        LeftBySelect SelectAnswer.rfds out p.fd)
      ∧ (HasSome p'.revents H.pollout → LeftBySelect SelectAnswer.wfds out p.fd)

/-- The descriptor is in the set of all sockets that want this. -/
def InInterest (env : Env) (pfds : List Pollfd) (mask : Bits) (fd : CInt) : Prop :=
  ∃ q ∈ sockets env 0 pfds, Wants mask q ∧ q.fd = fd

/-- The connection of socket entry `i` is open, and out-of-band data is pending on it. -/
def Urgent (env : Env) (i : Nat) : Prop :=
  connIsClosed (env.recv i .exceptSet) = false ∧ connHasOobData (env.recv i .oob) = true

/-- Interest in socket entry `i` would pass for readiness: it is to be written, or it is to be read
and its connection is not closed, or it has urgent data and that passes for normal data. -/
def Mistakable (H : Header) (env : Env) (pfds : List Pollfd) (i : Nat) (p : Pollfd) : Prop :=
  (Wants H.readMask p ∧ InInterest env pfds H.readMask p.fd
      ∧ connIsClosed (env.recv i .readSet) = false)
    ∨ (Wants H.writeMask p ∧ InInterest env pfds H.writeMask p.fd)
    ∨ (H.urgentIsIn ∧ (∃ q ∈ sockets env 0 pfds, q.fd = p.fd) ∧ Urgent env i)

/-- The `select` of pass `k` leaves socket entry `i` in the exception set only, and its urgent
data passes for normal data. -/
def Overread (H : Header) (env : Env) (k i : Nat) (p : Pollfd) : Prop :=
  H.urgentIsIn ∧ p.fd ∈ (env.select k).efds.fds ∧ p.fd ∉ (env.select k).rfds.fds ∧ Urgent env i

/-- What `poll` reports about a socket after a last pass that did not fail. -/
theorem socket_reports {k i : Nat} {p p' : Pollfd} (h : Sound env su k) (hp : SocketAt env pfds i p)
    (hp' : (outcomeAfter H env su pfds T k).pfds[i]? = some p') :
    p'.revents = computeSelectRevents H (env.recv i) p.fd p.events (env.select k).rfds
      (env.select k).wfds (env.select k).efds := by
  rw [outcomeAfter_getElem? h, hp.get] at hp'
  obtain rfl := Option.some.inj hp'
  show entryRevents H env su k i _ p = _
  unfold entryRevents
  rw [if_neg (by simp [hp.enabled]), if_pos hp.socket]

/-- The array is not empty if it has a socket. -/
theorem SocketAt.ne_nil {i : Nat} {p : Pollfd} (h : SocketAt env pfds i p) : pfds ≠ [] := by
  intro heq
  subst heq
  exact absurd h.get (by simp)

theorem leftBySelect_iff {set : SelectAnswer → FdSet} {k : Nat} {fd : CInt} (h : Sound env su k) :
    LeftBySelect set (outcomeAfter H env su pfds T k) fd ↔
      (env.select k).rc ≠ socketError ∧ fd ∈ (set (env.select k)).fds := by
  unfold LeftBySelect
  rw [lastSelect_outcomeAfter h]
  constructor
  · intro hex
    obtain ⟨answer, hanswer, hleft⟩ := hex
    obtain rfl := Option.some.inj hanswer
    exact hleft
  · exact fun hleft => ⟨_, rfl, hleft⟩

/-- If `select` failed, its sets are the interest. -/
theorem mistakable_iff (hfu : FailsUnchanged H env pfds) (hsu : setUp H env 0 pfds .empty = some su)
    {k i : Nat} {p : Pollfd} (hfail : (env.select k).rc = socketError) :
    Mistakable H env pfds i p ↔
      NormalData H (env.recv i) p.fd p.events (env.select k).rfds
        ∨ (Wants H.writeMask p ∧ p.fd ∈ (env.select k).wfds.fds)
        ∨ (H.urgentIsIn ∧ UrgentData (env.recv i) p.fd (env.select k).efds) := by
  have hint := (setUp_records hsu).2.2
  obtain ⟨hr, hw, he⟩ := hfu su hsu k hfail
  have hread : InInterest env pfds H.readMask p.fd ↔ p.fd ∈ (env.select k).rfds.fds := by
    rw [hr]; exact (hint.rfds _).symm
  have hwrite : InInterest env pfds H.writeMask p.fd ↔ p.fd ∈ (env.select k).wfds.fds := by
    rw [hw]; exact (hint.wfds _).symm
  have hexcept : (∃ q ∈ sockets env 0 pfds, q.fd = p.fd) ↔ p.fd ∈ (env.select k).efds.fds := by
    rw [he]; exact (hint.efds _).symm
  unfold Mistakable
  rw [hread, hwrite, hexcept]
  refine or_congr ⟨fun h => ⟨h.1, h.2.1, h.2.2⟩, fun h => ⟨h.asked, h.listed, h.opened⟩⟩
    (or_congr_right (and_congr_right fun _ => ⟨fun h => ⟨h.1, h.2.1, h.2.2⟩, fun h =>
      ⟨h.listed, h.opened, h.oob⟩⟩))

/-- **What is reported about a socket** after a last pass that did not fail is what `select` says,
unless one of the two confusions happens. -/
theorem trusted_iff (hfu : FailsUnchanged H env pfds) (hsu : setUp H env 0 pfds .empty = some su)
    {k i : Nat} {p p' : Pollfd} (hsound : Sound env su k) (hp : SocketAt env pfds i p)
    (hp' : (outcomeAfter H env su pfds T k).pfds[i]? = some p') :
    ((HasSome p'.revents H.pollin ∨ HasSome p'.revents H.pollrdnorm →
          LeftBySelect SelectAnswer.rfds (outcomeAfter H env su pfds T k) p.fd)
        ∧ (HasSome p'.revents H.pollout →
          LeftBySelect SelectAnswer.wfds (outcomeAfter H env su pfds T k) p.fd)) ↔
      if (env.select k).rc = socketError then ¬ Mistakable H env pfds i p
      else ¬ Overread H env k i p := by
  obtain ⟨hin, hnorm, hout⟩ := reported_iff (socket_reports hsound hp hp')
  rw [hin, hnorm, hout, leftBySelect_iff hsound, leftBySelect_iff hsound]
  by_cases hfail : (env.select k).rc = socketError
  · rw [if_pos hfail, mistakable_iff hfu hsu hfail]
    constructor
    · intro h hm
      obtain ⟨hread, hwrite⟩ := h
      rcases hm with hn | hw | hu
      · exact (hread (Or.inr hn)).1 hfail
      · exact (hwrite hw).1 hfail
      · exact (hread (Or.inl (Or.inr hu))).1 hfail
    · intro h
      refine ⟨fun hr => absurd ?_ h, fun hw => absurd (Or.inr (Or.inl hw)) h⟩
      rcases hr with (hn | hu) | hn
      · exact Or.inl hn
      · exact Or.inr (Or.inr hu)
      · exact Or.inl hn
  · rw [if_neg hfail]
    constructor
    · intro h hover
      obtain ⟨hisIn, hmem, hnot, hopened, hoob⟩ := hover
      exact hnot (h.1 (Or.inl (Or.inr ⟨hisIn, hmem, hopened, hoob⟩))).2
    · intro h
      refine ⟨fun hr => ⟨hfail, ?_⟩, fun hw => ⟨hfail, hw.2⟩⟩
      rcases hr with (hn | hu) | hn
      · exact hn.listed
      · by_contra hnot
        exact h ⟨hu.1, hu.2.listed, hnot, hu.2.opened, hu.2.oob⟩
      · exact hn.listed

/--
**When interest is never reported as readiness.**

In the last pass, if it does not fail: where a handle that has signaled makes `poll`
overlook that `select` failed, there must be no socket whose entry in the sets, which is
only interest, would be reported. Where `select` succeeded, none that it left in the
exception set only must have urgent data that passes for normal data.
-/
theorem onlyReadiness_iff (hfu : FailsUnchanged H env pfds) :
    OnlyReadiness H env pfds T ↔
      ∀ su, setUp H env 0 pfds .empty = some su → ∀ k, Last env su T k → Sound env su k →
        ∀ i p, SocketAt env pfds i p →
          if (env.select k).rc = socketError then ¬ Mistakable H env pfds i p
          else ¬ Overread H env k i p := by
  constructor
  · intro h su hsu k hlast hsound i p hp
    have hpoll := (poll_eq_some_iff (H := H) (T := T) hp.ne_nil).mpr
      (Or.inr ⟨su, hsu, k, Nat.lt_succ_self k, hlast, rfl⟩)
    have hok := (@outcomeAfter_ok H env su pfds T k hsound).1
    obtain ⟨p', hp'⟩ : ∃ p', (outcomeAfter H env su pfds T k).pfds[i]? = some p' :=
      ⟨_, by rw [outcomeAfter_getElem? hsound, hp.get]; rfl⟩
    exact (trusted_iff hfu hsu hsound hp hp').mp (h _ _ hpoll (by rw [hok]; omega) i p p' hp hp')
  · intro h fuel out hpoll hrc i p p' hp hp'
    rcases (poll_eq_some_iff hp.ne_nil).mp hpoll with ⟨-, rfl⟩ | ⟨su, hsu, k, -, hlast, rfl⟩
    · exact absurd hrc (by decide : ¬ (0 : Int) ≤ -1)
    have hsound : Sound env su k := outcomeAfter_rc.mp fun hneg => by rw [hneg] at hrc; omega
    exact (trusted_iff hfu hsu hsound hp hp').mpr (h su hsu k hlast hsound i p hp)

/-- A file that is to be read and a socket that is to be read and written. -/
def fileAndSocket : List Pollfd := [⟨3, 0x001, 0⟩, ⟨5, 0x005, 0⟩]

/-- A system in which the file has signaled and `select` fails, leaving its sets alone. -/
def Env.deadSocket : Env :=
  { Env.still (· == 1) 0 with
    select := fun _ => ⟨socketError, FdSet.zero.set 5, FdSet.zero.set 5, FdSet.zero.set 5,
      .WSAENOTSOCK⟩ }

theorem failsUnchanged_deadSocket : FailsUnchanged .compat .deadSocket fileAndSocket := by
  intro su hsu k _
  obtain rfl := Option.some.inj hsu
  exact ⟨rfl, rfl, rfl⟩

theorem onlyReadiness_iff_deadSocket : OnlyReadiness .compat .deadSocket fileAndSocket (-1) ↔
    ∀ su, setUp .compat .deadSocket 0 fileAndSocket .empty = some su → ∀ k,
      Last .deadSocket su (-1) k → Sound .deadSocket su k →
        ∀ i p, SocketAt .deadSocket fileAndSocket i p →
          if (Env.deadSocket.select k).rc = socketError then
            ¬ Mistakable .compat .deadSocket fileAndSocket i p
          else ¬ Overread .compat .deadSocket k i p :=
  onlyReadiness_iff failsUnchanged_deadSocket

/-- **A socket that `select` fails on is reported as readable and writable**, because a file
has signaled in the same pass. -/
theorem poll_deadSocket : FailsUnchanged .compat .deadSocket fileAndSocket
    ∧ (∃ out, poll .compat .deadSocket (some fileAndSocket) (-1) 1 = some out ∧ 0 ≤ out.rc
      ∧ out.pfds = [⟨3, 0x001, 0x001⟩, ⟨5, 0x005, 0x04d⟩])
    ∧ ¬ OnlyReadiness .compat .deadSocket fileAndSocket (-1) := by
  have hpoll : ∃ out, poll .compat .deadSocket (some fileAndSocket) (-1) 1 = some out ∧ 0 ≤ out.rc
      ∧ out.pfds = [⟨3, 0x001, 0x001⟩, ⟨5, 0x005, 0x04d⟩]
      ∧ (lastSelect out.log).map SelectAnswer.rc = some socketError := ⟨_, rfl, by decide, rfl, rfl⟩
  obtain ⟨out, hout, hrc, hpfds, hlog⟩ := hpoll
  refine ⟨failsUnchanged_deadSocket, ⟨out, hout, hrc, hpfds⟩, fun h => ?_⟩
  obtain ⟨-, hwrite⟩ := h 1 out hout hrc 1 ⟨5, 0x005, 0⟩ ⟨5, 0x005, 0x04d⟩ ⟨rfl, rfl, rfl⟩
    (by rw [hpfds]; rfl)
  obtain ⟨answer, hanswer, hne, -⟩ := hwrite (by decide)
  rw [hanswer] at hlog
  exact hne (Option.some.inj hlog)

/-! ## Bits that were asked for -/

/-- None of the bits is missing from `mask`. -/
def Within (bits mask : Bits) : Prop := bits &&& ~~~mask = 0

instance (bits mask : Bits) : Decidable (Within bits mask) := inferInstanceAs (Decidable (_ = _))

theorem within_zero (mask : Bits) : Within 0 mask := BitVec.zero_and

theorem within_or {a b mask : Bits} : Within (a ||| b) mask ↔ Within a mask ∧ Within b mask := by
  unfold Within
  rw [BitVec.and_or_distrib_right]
  exact BitVec.or_eq_zero_iff

theorem Within.trans {a b c : Bits} (h : Within a b) (h' : Within b c) : Within a c := by
  unfold Within at h h' ⊢
  refine BitVec.eq_of_getLsbD_eq fun i hi => ?_
  have h1 := congrArg (fun x => BitVec.getLsbD x i) h
  have h2 := congrArg (fun x => BitVec.getLsbD x i) h'
  simp only [BitVec.getLsbD_and, BitVec.getLsbD_not, hi, decide_true, Bool.true_and,
    BitVec.ofNat_eq_ofNat, BitVec.getLsbD_zero] at h1 h2 ⊢
  revert h1 h2
  cases a.getLsbD i <;> cases b.getLsbD i <;> cases c.getLsbD i <;> decide

/-- What is reported whether asked for or not. -/
def Header.implied (H : Header) : Bits := H.pollerr ||| H.pollhup ||| H.pollnval

/-- The bits that may be reported about an entry. -/
def Pollfd.allowed (H : Header) (p : Pollfd) : Bits := p.events ||| H.implied

/-- Bits that are not implied have to be asked for. -/
theorem within_allowed {bits : Bits} (hbits : bits &&& ~~~H.implied = bits) (p : Pollfd) :
    Within bits (p.allowed H) ↔ Within bits p.events := by
  unfold Within Pollfd.allowed
  rw [BitVec.not_or, BitVec.and_comm (~~~p.events), ← BitVec.and_assoc, hbits]

/-- Bits that are implied need not be. -/
theorem within_allowed_of_implied {bits : Bits} (hbits : Within bits H.implied) (p : Pollfd) :
    Within bits (p.allowed H) := by
  refine hbits.trans ?_
  unfold Within Pollfd.allowed
  rw [BitVec.not_or, BitVec.and_comm (~~~p.events), ← BitVec.and_assoc, BitVec.and_not_self]
  exact BitVec.zero_and

theorem Header.implied_facts (H : Header) : Within H.pollhup H.implied ∧ Within H.pollerr H.implied
    ∧ (H.pollin ||| H.pollrdnorm) &&& ~~~H.implied = H.pollin ||| H.pollrdnorm
    ∧ H.pollout &&& ~~~H.implied = H.pollout ∧ H.pollin &&& ~~~H.implied = H.pollin
    ∧ (H.pollrdband ||| H.pollpri) &&& ~~~H.implied = H.pollrdband ||| H.pollpri := by
  cases H <;> decide

/-- The last pass of `poll` found this socket in the exception set, because it has
out-of-band data pending. -/
structure EndedForOob (env : Env) (su : Setup) (T : Int) (k i : Nat) (p : Pollfd) : Prop where
  last : Last env su T k
  sound : Sound env su k
  except : p.fd ∈ (env.select k).efds.fds
  opened : connIsClosed (env.recv i .exceptSet) = false
  oob : connHasOobData (env.recv i .oob) = true

/-- `poll` reports only what was asked for, and does not wake up for out-of-band data of a
socket that is only to be written. -/
def OnlyAsked (H : Header) (env : Env) (pfds : List Pollfd) (T : Int) : Prop :=
  (∀ fuel out, poll H env (some pfds) T fuel = some out → 0 ≤ out.rc →
      ∀ (i : Nat) (p p' : Pollfd), pfds[i]? = some p → out.pfds[i]? = some p' →
        Within p'.revents (p.allowed H))
    ∧ ∀ su, setUp H env 0 pfds .empty = some su → ∀ k i p, SocketAt env pfds i p →
      Within p.events H.writeMask → ¬ EndedForOob env su T k i p

/-- What a socket is found ready for after pass `k` has been asked for, as `poll` reports it. -/
structure SocketAsked (H : Header) (env : Env) (k i : Nat) (p : Pollfd) : Prop where
  /-- Whoever asks for some class of data to read has asked for normal data by both names. -/
  read : Wants H.readMask p → p.fd ∈ (env.select k).rfds.fds →
    connIsClosed (env.recv i .readSet) = false → Within (H.pollin ||| H.pollrdnorm) p.events
  write : Wants H.writeMask p → p.fd ∈ (env.select k).wfds.fds → Within H.pollout p.events
  oob : p.fd ∈ (env.select k).efds.fds → connIsClosed (env.recv i .exceptSet) = false →
    connHasOobData (env.recv i .oob) = true → Within (H.pollrdband ||| H.pollpri) p.events

/-- The same for another handle, with number `n`. -/
structure HandleAsked (H : Header) (env : Env) (su : Setup) (k i n : Nat) (p : Pollfd) :
    Prop where
  write : Wants (H.pollout ||| H.pollwrnorm) p → Within H.pollout p.events
  read : n = lastWait env su k → Wants (H.pollin ||| H.pollrdnorm) p →
    ¬ (su.handles[n]? = some env.stdInput ∧ Swallows (env.peekConsole i)) → Within H.pollin p.events

/-- Entry `i` is reported as asked for after pass `k`. -/
def Asked (H : Header) (env : Env) (su : Setup) (pfds : List Pollfd) (k i : Nat) (p : Pollfd) :
    Prop :=
  p.negative = false →
    if isSocket p.fd (env.enumResult i) then SocketAsked H env k i p
    else HandleAsked H env su k i (resultNumber env pfds i) p

/-- A union that is empty unless a test succeeds. -/
theorem within_ite {c : Prop} [Decidable c] {bits mask : Bits} :
    Within (if c then bits else 0) mask ↔ (c → Within bits mask) := by
  split
  · rename_i h; exact ⟨fun hb _ => hb, fun hb => hb h⟩
  · rename_i h; exact ⟨fun _ hc => absurd hc h, fun _ => within_zero mask⟩

theorem within_select_iff {k i : Nat} {p : Pollfd} :
    Within (computeSelectRevents H (env.recv i) p.fd p.events (env.select k).rfds
      (env.select k).wfds (env.select k).efds) (p.allowed H) ↔ SocketAsked H env k i p := by
  obtain ⟨hhup, herr, hin, hout, -, hband⟩ := H.implied_facts
  have hhup' := within_allowed_of_implied hhup p
  have herr' := within_allowed_of_implied herr p
  rw [computeSelectRevents_eq, within_or, within_or]
  unfold readBits writeBits exceptBits FdSet.isSet
  rw [within_ite, within_ite, within_ite, within_allowed hout]
  constructor
  · intro hboth
    obtain ⟨⟨hr, hw⟩, he⟩ := hboth
    refine ⟨fun hwants hmem hopen => ?_, fun hwants hmem => hw ⟨hwants, decide_eq_true hmem⟩,
      fun hmem hopen hoob => ?_⟩
    · have := hr ⟨hwants, decide_eq_true hmem⟩
      rwa [hopen, if_neg (by decide), within_allowed hin] at this
    · have := he (decide_eq_true hmem)
      rwa [hopen, if_neg (by decide), hoob, if_pos rfl, within_allowed hband] at this
  · intro h
    refine ⟨⟨fun hr => ?_, fun hw => h.write hw.1 (of_decide_eq_true hw.2)⟩, fun he => ?_⟩
    · split
      · exact hhup'
      · rename_i hopen
        rw [within_allowed hin]
        exact h.read hr.1 (of_decide_eq_true hr.2) (Bool.not_eq_true _ ▸ hopen)
    · split
      · exact hhup'
      · rename_i hopen
        split
        · rename_i hoob
          rw [within_allowed hband]
          exact h.oob (of_decide_eq_true he) (Bool.not_eq_true _ ▸ hopen) hoob
        · exact herr'

theorem within_wait_iff {k i n : Nat} {p : Pollfd} :
    Within (computeWaitRevents H env.stdInput (env.peekConsole i) su.handles[n]? p.events n
      (lastWait env su k)).1 (p.allowed H) ↔ HandleAsked H env su k i n p := by
  obtain ⟨-, -, -, hout, hin, -⟩ := H.implied_facts
  rw [computeWaitRevents_eq, within_or]
  unfold fileWriteBits fileReadBits
  rw [within_ite, within_ite, within_allowed hout, within_allowed hin]
  exact ⟨fun h => ⟨h.1, fun hn hw hc => h.2 ⟨hn, hw, hc⟩⟩,
    fun h => ⟨h.write, fun hr => h.read hr.1 hr.2.1 hr.2.2⟩⟩

theorem within_entry_iff {k i : Nat} {p : Pollfd} :
    Within (entryRevents H env su k i (resultNumber env pfds i) p) (p.allowed H) ↔
      Asked H env su pfds k i p := by
  unfold entryRevents Asked
  cases hneg : p.negative with
  | true => exact ⟨fun _ h => (by cases h), fun _ => within_zero _⟩
  | false =>
      simp only [Bool.false_eq_true, if_false, forall_const]
      split
      · exact within_select_iff
      · exact within_wait_iff

/-- Urgent data is no matter of writing. -/
theorem not_within_writeMask {p : Pollfd} (h : Within (H.pollrdband ||| H.pollpri) p.events) :
    ¬ Within p.events H.writeMask := by
  intro hw
  have := h.trans hw
  revert this
  cases H <;> decide

/--
**When `poll` reports only what was asked for.**

In the last pass, if it does not fail, every socket found readable must have asked for
both `POLLIN` and `POLLRDNORM`, every one found writable for `POLLOUT` by that name, and
every one with out-of-band data for `POLLRDBAND` and `POLLPRI`; likewise for the handles.
-/
theorem onlyAsked_iff : OnlyAsked H env pfds T ↔
    ∀ su, setUp H env 0 pfds .empty = some su → ∀ k, Last env su T k → Sound env su k →
      ∀ i p, pfds[i]? = some p → Asked H env su pfds k i p := by
  constructor
  · intro h su hsu k hlast hsound i p hp
    have hne : pfds ≠ [] := by rintro rfl; exact absurd hp (by simp)
    have hpoll := (poll_eq_some_iff (H := H) (T := T) hne).mpr
      (Or.inr ⟨su, hsu, k, Nat.lt_succ_self k, hlast, rfl⟩)
    have hok := (@outcomeAfter_ok H env su pfds T k hsound).1
    have hget : (outcomeAfter H env su pfds T k).pfds[i]? =
        some { p with revents := entryRevents H env su k i (resultNumber env pfds i) p } := by
      rw [outcomeAfter_getElem? hsound, hp]; rfl
    exact within_entry_iff.mp (h.1 _ _ hpoll (by rw [hok]; omega) i p _ hp hget)
  · intro h
    constructor
    · intro fuel out hpoll hrc i p p' hp hp'
      have hne : pfds ≠ [] := by rintro rfl; exact absurd hp (by simp)
      rcases (poll_eq_some_iff hne).mp hpoll with ⟨-, rfl⟩ | ⟨su, hsu, k, -, hlast, rfl⟩
      · exact absurd hrc (by decide : ¬ (0 : Int) ≤ -1)
      have hsound : Sound env su k := outcomeAfter_rc.mp fun hneg => by rw [hneg] at hrc; omega
      rw [outcomeAfter_getElem? hsound, hp] at hp'
      obtain rfl := Option.some.inj hp'
      exact within_entry_iff.mpr (h su hsu k hlast hsound i p hp)
    · intro su hsu k i p hp hwrites hoob
      -- such a socket would be reported, and has not asked for that
      have hasked := h su hsu k hoob.last hoob.sound i p hp.get hp.enabled
      rw [if_pos hp.socket] at hasked
      exact not_within_writeMask (hasked.oob hoob.except hoob.opened hoob.oob) hwrites

/-- A system in which everything is a socket with out-of-band data and nothing else to report. -/
def Env.urgent : Env :=
  { Env.still (fun _ => true) waitTimeout with
    select := fun _ => ⟨1, .zero, .zero, FdSet.zero.set 5, .other 0⟩
    recv := fun _ _ => ⟨1, .other 0⟩ }

/-- **A socket that is only to be written is reported for its out-of-band data**, which ends
an infinite wait. -/
theorem poll_urgent : (∃ out, poll .compat .urgent (some [⟨5, 0x004, 0⟩]) (-1) 1 = some out
      ∧ out.rc = 1 ∧ out.pfds = [⟨5, 0x004, 0x082⟩])
    ∧ ¬ OnlyAsked .compat .urgent [⟨5, 0x004, 0⟩] (-1) := by
  have hpoll : ∃ out, poll .compat .urgent (some [⟨5, 0x004, 0⟩]) (-1) 1 = some out
      ∧ out.rc = 1 ∧ out.pfds = [⟨5, 0x004, 0x082⟩] := ⟨_, rfl, by decide, rfl⟩
  obtain ⟨out, hout, hrc, hpfds⟩ := hpoll
  refine ⟨⟨out, hout, hrc, hpfds⟩, fun h => ?_⟩
  have hwithin :=
    h.1 1 out hout (by rw [hrc]; decide) 0 _ ⟨5, 0x004, 0x082⟩ rfl (by rw [hpfds]; rfl)
  exact absurd hwithin (by decide)

end LibrePortable.Win.Poll
