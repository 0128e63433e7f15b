import LibrePortable.Win.PollAlign

/-!
# Event bits

Both functions that compute `revents` collect bits from tests that are made
independently of each other. Said as one union, which bits come from which test can be
read off, whichever header the values are from.
-/

namespace LibrePortable.Win.Poll

open LibrePortable.Win

variable {H : Header}

/-- All of these bits are set. -/
def Has (rev bits : Bits) : Prop := rev &&& bits = bits

instance (rev bits : Bits) : Decidable (Has rev bits) := inferInstanceAs (Decidable (_ = _))

/-! ## Which bits there can be -/

/-- What the read set contributes. -/
def readBits (H : Header) (recv : Peek → RecvAnswer) (fd : CInt) (events : Bits) (rfds : FdSet) :
    Bits :=
  if events &&& H.readMask ≠ 0 ∧ rfds.isSet fd then
    if connIsClosed (recv .readSet) then H.pollhup else H.pollin ||| H.pollrdnorm
  else 0

/-- What the write set contributes. -/
def writeBits (H : Header) (fd : CInt) (events : Bits) (wfds : FdSet) : Bits :=
  if events &&& H.writeMask ≠ 0 ∧ wfds.isSet fd then H.pollout else 0

/-- What the exception set contributes. -/
def exceptBits (H : Header) (recv : Peek → RecvAnswer) (fd : CInt) (efds : FdSet) : Bits :=
  if efds.isSet fd then
    if connIsClosed (recv .exceptSet) then H.pollhup
    else if connHasOobData (recv .oob) then H.pollrdband ||| H.pollpri
    else H.pollerr
  else 0

theorem computeSelectRevents_eq {recv : Peek → RecvAnswer} {fd : CInt} {events : Bits}
    {rfds wfds efds : FdSet} : computeSelectRevents H recv fd events rfds wfds efds =
      readBits H recv fd events rfds ||| writeBits H fd events wfds |||
        exceptBits H recv fd efds := by
  unfold computeSelectRevents readBits writeBits exceptBits
  dsimp only
  split_ifs <;> simp

/-- What a wish to write contributes, for a handle. -/
def fileWriteBits (H : Header) (events : Bits) : Bits :=
  if events &&& (H.pollout ||| H.pollwrnorm) ≠ 0 then H.pollout else 0

instance (record : InputRecord) : Decidable (Swallowed record) := inferInstanceAs (Decidable (¬ _))

/-- The console answers with a record that is taken off its queue. -/
def Swallows : Option InputRecord → Prop
  | none => False
  | some record => Swallowed record

instance (peek : Option InputRecord) : Decidable (Swallows peek) :=
  match peek with
  | none => inferInstanceAs (Decidable False)
  | some record => inferInstanceAs (Decidable (Swallowed record))

/-- What a wish to read contributes, for handle number `n`. -/
def fileReadBits (H : Header) (stdInput : Handle) (peek : Option InputRecord) (h : Option Handle)
    (events : Bits) (n waitRc : Nat) : Bits :=
  if n = waitRc ∧ events &&& (H.pollin ||| H.pollrdnorm) ≠ 0
      ∧ ¬ (h = some stdInput ∧ Swallows peek) then H.pollin else 0

theorem computeWaitRevents_eq {stdInput : Handle} {peek : Option InputRecord} {h : Option Handle}
    {events : Bits} {n waitRc : Nat} :
    (computeWaitRevents H stdInput peek h events n waitRc).1 =
      fileWriteBits H events ||| fileReadBits H stdInput peek h events n waitRc := by
  unfold computeWaitRevents fileWriteBits fileReadBits waitObject0
  rw [Nat.sub_zero]
  cases peek with
  | none => split_ifs <;> simp_all [Swallows]
  | some record =>
      dsimp only
      split_ifs <;> simp_all [Swallows, Swallowed]

/-! ## Which test a bit comes from -/

theorem readBits_cases (H : Header) (recv : Peek → RecvAnswer) (fd : CInt) (events : Bits)
    (rfds : FdSet) : readBits H recv fd events rfds = 0 ∨ readBits H recv fd events rfds = H.pollhup
      ∨ readBits H recv fd events rfds = H.pollin ||| H.pollrdnorm := by
  unfold readBits
  split_ifs <;> simp

theorem writeBits_cases (H : Header) (fd : CInt) (events : Bits) (wfds : FdSet) :
    writeBits H fd events wfds = 0 ∨ writeBits H fd events wfds = H.pollout := by
  unfold writeBits
  split_ifs <;> simp

theorem exceptBits_cases (H : Header) (recv : Peek → RecvAnswer) (fd : CInt) (efds : FdSet) :
    exceptBits H recv fd efds = 0 ∨ exceptBits H recv fd efds = H.pollhup
      ∨ exceptBits H recv fd efds = H.pollrdband ||| H.pollpri
      ∨ exceptBits H recv fd efds = H.pollerr := by
  unfold exceptBits
  split_ifs <;> simp

/-- Some of these bits are set, which is what `rev & bits` tests. -/
def HasSome (rev bits : Bits) : Prop := rev &&& bits ≠ 0

instance (rev bits : Bits) : Decidable (HasSome rev bits) := inferInstanceAs (Decidable (_ ≠ _))

/-- The bits of urgent data count as `POLLIN`. -/
def Header.urgentIsIn (H : Header) : Prop := HasSome (H.pollrdband ||| H.pollpri) H.pollin

instance (H : Header) : Decidable H.urgentIsIn := inferInstanceAs (Decidable (HasSome _ _))

example : Header.winsock.urgentIsIn ∧ ¬ Header.compat.urgentIsIn := by decide

/-- `POLLRDNORM` comes from the read set only and the writable bit from the write set only.
`POLLIN` may come from the exception set as well. -/
theorem hasSome_of_select {a b c : Bits} (H : Header)
    (ha : a = 0 ∨ a = H.pollhup ∨ a = H.pollin ||| H.pollrdnorm) (hb : b = 0 ∨ b = H.pollout)
    (hc : c = 0 ∨ c = H.pollhup ∨ c = H.pollrdband ||| H.pollpri ∨ c = H.pollerr) :
    (HasSome (a ||| b ||| c) H.pollin ↔
        a = H.pollin ||| H.pollrdnorm ∨ (H.urgentIsIn ∧ c = H.pollrdband ||| H.pollpri))
      ∧ (HasSome (a ||| b ||| c) H.pollrdnorm ↔ a = H.pollin ||| H.pollrdnorm)
      ∧ (HasSome (a ||| b ||| c) H.pollout ↔ b = H.pollout) := by
  rcases ha with rfl | rfl | rfl <;> rcases hb with rfl | rfl <;>
    rcases hc with rfl | rfl | rfl | rfl <;> cases H <;> decide

/-- There is normal data to read, and someone asked for data. -/
structure NormalData (H : Header) (recv : Peek → RecvAnswer) (fd : CInt) (events : Bits)
    (rfds : FdSet) : Prop where
  asked : events &&& H.readMask ≠ 0
  listed : fd ∈ rfds.fds
  opened : connIsClosed (recv .readSet) = false

/-- There is out-of-band data to read. -/
structure UrgentData (recv : Peek → RecvAnswer) (fd : CInt) (efds : FdSet) : Prop where
  listed : fd ∈ efds.fds
  opened : connIsClosed (recv .exceptSet) = false
  oob : connHasOobData (recv .oob) = true

/-- **When a socket is reported as readable**, as normal data and as writable. -/
theorem reported_iff {recv : Peek → RecvAnswer} {fd : CInt} {events : Bits}
    {rfds wfds efds : FdSet} {rev : Bits}
    (hrev : rev = computeSelectRevents H recv fd events rfds wfds efds) :
    (HasSome rev H.pollin ↔
        NormalData H recv fd events rfds ∨ (H.urgentIsIn ∧ UrgentData recv fd efds))
      ∧ (HasSome rev H.pollrdnorm ↔ NormalData H recv fd events rfds)
      ∧ (HasSome rev H.pollout ↔ events &&& H.writeMask ≠ 0 ∧ fd ∈ wfds.fds) := by
  have hne : H.pollhup ≠ H.pollin ||| H.pollrdnorm ∧ 0 ≠ H.pollin ||| H.pollrdnorm
      ∧ 0 ≠ H.pollout ∧ H.pollhup ≠ H.pollrdband ||| H.pollpri
      ∧ H.pollerr ≠ H.pollrdband ||| H.pollpri ∧ 0 ≠ H.pollrdband ||| H.pollpri := by
    cases H <;> decide
  obtain ⟨hin, hnorm, hout⟩ := hasSome_of_select H (readBits_cases H recv fd events rfds)
    (writeBits_cases H fd events wfds) (exceptBits_cases H recv fd efds)
  have hread : readBits H recv fd events rfds = H.pollin ||| H.pollrdnorm ↔
      NormalData H recv fd events rfds := by
    unfold readBits FdSet.isSet
    split_ifs with hc hclosed
    · exact iff_of_false hne.1 fun h => by rw [h.opened] at hclosed; cases hclosed
    · exact iff_of_true rfl ⟨hc.1, of_decide_eq_true hc.2, Bool.not_eq_true _ ▸ hclosed⟩
    · exact iff_of_false hne.2.1 fun h => hc ⟨h.asked, decide_eq_true h.listed⟩
  have hwrite : writeBits H fd events wfds = H.pollout ↔
      events &&& H.writeMask ≠ 0 ∧ fd ∈ wfds.fds := by
    unfold writeBits FdSet.isSet
    split_ifs <;> simp_all
  have hexcept : exceptBits H recv fd efds = H.pollrdband ||| H.pollpri ↔
      UrgentData recv fd efds := by
    unfold exceptBits FdSet.isSet
    split_ifs with hc hclosed hoob
    · exact iff_of_false hne.2.2.2.1 fun h => by rw [h.opened] at hclosed; cases hclosed
    · exact iff_of_true rfl ⟨of_decide_eq_true hc, Bool.not_eq_true _ ▸ hclosed, hoob⟩
    · exact iff_of_false hne.2.2.2.2.1 fun h => hoob h.oob
    · exact iff_of_false hne.2.2.2.2.2 fun h => hc (decide_eq_true h.listed)
  rw [hrev, computeSelectRevents_eq, ← hread, ← hexcept, ← hwrite]
  exact ⟨hin, hnorm, hout⟩

/-- **When a handle is reported**: as writable if asked to, as readable if its number was
reported too. -/
theorem has_of_wait {stdInput : Handle} {peek : Option InputRecord} {h : Option Handle}
    {events : Bits} {n waitRc : Nat} :
    (Has (computeWaitRevents H stdInput peek h events n waitRc).1 H.pollout ↔
        events &&& (H.pollout ||| H.pollwrnorm) ≠ 0)
      ∧ (Has (computeWaitRevents H stdInput peek h events n waitRc).1 H.pollin ↔
        n = waitRc ∧ events &&& (H.pollin ||| H.pollrdnorm) ≠ 0
          ∧ ¬ (h = some stdInput ∧ Swallows peek)) := by
  rw [computeWaitRevents_eq]
  unfold fileWriteBits fileReadBits
  have hH : Has (H.pollout ||| H.pollin) H.pollout ∧ Has (H.pollout ||| H.pollin) H.pollin
      ∧ Has (H.pollout ||| 0) H.pollout ∧ ¬ Has (H.pollout ||| 0) H.pollin
      ∧ ¬ Has (0 ||| H.pollin) H.pollout ∧ Has (0 ||| H.pollin) H.pollin
      ∧ ¬ Has (0 ||| 0) H.pollout ∧ ¬ Has (0 ||| 0) H.pollin := by
    cases H <;> decide
  split_ifs <;> simp_all

end LibrePortable.Win.Poll
