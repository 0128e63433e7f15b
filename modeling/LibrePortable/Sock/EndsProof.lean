import LibrePortable.Sock.Ends

/-!
# All or nothing

Both functions return 0 with two open ends that have every flag requested, or close the
two ends again. Setting a flag moves nothing on the ledger and takes no flag away, so
what held of the pair before still holds when the next flag is set. The emulations of
Windows that they rest on take flags with the type as well, and set none.
-/

namespace LibrePortable.Sock

open Lib Prog Win Ledger

variable {host : Host} {s s' : Ledger} {rest : List Handle}

/-! ## What is claimed -/

/-- Every end that was made has been given to a closing call, once. -/
structure NothingLeft (s : Ledger) : Prop where
  nodup : s.made.Nodup
  closed : s.closed.Perm s.made
  /-- What is open nevertheless, the system refused to close. -/
  gone : ∀ h ∈ s.made, s.live h = true → h ∈ s.refused

/-- The two ends are open, with the flags requested; all else that was made is closed. -/
structure BothOpen (nonblock cloexec : Prop) (sv0 sv1 : Handle) (s : Ledger) : Prop where
  nodup : s.made.Nodup
  made : (sv0 :: sv1 :: s.closed).Perm s.made
  live : s.live sv0 = true ∧ s.live sv1 = true
  nonblock : nonblock → s.nonblock sv0 = true ∧ s.nonblock sv1 = true
  cloexec : cloexec → s.cloexec sv0 = true ∧ s.cloexec sv1 = true

/-- Two open ends with the flags requested, or nothing. -/
def AllOrNothing (nonblock cloexec : Prop) (r : PairResult) (s : Ledger) : Prop :=
  (r.rc = 0 ∧ BothOpen nonblock cloexec r.sv0 r.sv1 s) ∨ (r.rc ≠ 0 ∧ NothingLeft s)

/-- Once a listener has been made, a failure clears the vector and reports the error of
the call that failed, or a refused connection where no call did. -/
def ReportsFailure (r : PairResult) (s : Ledger) : Prop :=
  r.rc ≠ 0 → s.made ≠ [] → r.sv0 = -1 ∧ r.sv1 = -1 ∧ s.lastError = s.reported

theorem nothingLeft_of_owes {least : Int} (h : Owes least [] s) : NothingLeft s := by
  have hperm : s.closed.Perm s.made := by simpa using h.made
  exact ⟨h.nodup, hperm, fun x hx => h.gone x (hperm.mem_iff.mpr hx)⟩

theorem bothOpen_of_owes {least : Int} {nonblock cloexec : Prop} {a b : Handle} (ha : a ≠ -1)
    (hb : b ≠ -1) (h : Owes least [a, b] s)
    (hn : nonblock → s.nonblock a = true ∧ s.nonblock b = true)
    (hc : cloexec → s.cloexec a = true ∧ s.cloexec b = true) :
    BothOpen nonblock cloexec a b s where
  nodup := h.nodup
  made := by
    have hfilter : [a, b].filter (· ≠ -1) = [a, b] := by simp [ha, hb]
    have hmade := h.made
    rw [hfilter] at hmade
    have hswap : ([a, b] ++ s.closed).Perm (s.closed ++ [a, b]) := List.perm_append_comm
    exact hswap.trans hmade
  live := ⟨(h.live a List.mem_cons_self ha).1,
    (h.live b (List.mem_cons_of_mem _ List.mem_cons_self) hb).1⟩
  nonblock := hn
  cloexec := hc

/-! ## Setting a flag -/

/-- The ledger is the same but for flags, and every flag that was set still is. -/
structure Raised (s s' : Ledger) : Prop where
  live : s'.live = s.live
  made : s'.made = s.made
  closed : s'.closed = s.closed
  refused : s'.refused = s.refused
  nonblock : ∀ h, s.nonblock h = true → s'.nonblock h = true
  cloexec : ∀ h, s.cloexec h = true → s'.cloexec h = true

/-- Raising flags does not take `P` away. -/
def Upward (P : Ledger → Prop) : Prop := ∀ s s', P s → Raised s s' → P s'

theorem owes_upward (least : Int) (rest : List Handle) : Upward (Owes least rest) := by
  intro s s' h hboth
  obtain ⟨hlive, hmade, hclosed, hrefused, -, -⟩ := hboth
  constructor
  · rw [hmade]; exact h.nodup
  · rw [hmade, hclosed]; exact h.made
  · rw [hlive]; exact h.live
  · rw [hlive, hclosed, hrefused]; exact h.gone

theorem nonblock_upward (x : Handle) : Upward fun s => s.nonblock x = true :=
  fun _ _ h hr => hr.nonblock x h

theorem cloexec_upward (x : Handle) : Upward fun s => s.cloexec x = true :=
  fun _ _ h hr => hr.cloexec x h

theorem raised_of_errors {e : WsaError} {f : Option WsaError} :
    Raised s { s with lastError := e, failure := f } :=
  ⟨rfl, rfl, rfl, rfl, fun _ h => h, fun _ h => h⟩

theorem raised_passes {s₁ : Ledger} (h : Raised s s₁) (hp : s₁.Passes s') : Raised s s' := by
  obtain ⟨e, rfl⟩ := hp
  exact ⟨h.live, h.made, h.closed, h.refused, h.nonblock, h.cloexec⟩

theorem raised_refl (s : Ledger) : Raised s s := ⟨rfl, rfl, rfl, rfl, fun _ h => h, fun _ h => h⟩

theorem update_true {f : Handle → Bool} {x y : Handle} (h : f y = true) :
    Function.update f x true y = true := by
  by_cases hyx : y = x
  · subst hyx; exact Function.update_self ..
  · rw [Function.update_of_ne hyx]; exact h

theorem raised_setNonblock (s : Ledger) (x : Handle) : Raised s (s.setNonblock x true) :=
  ⟨rfl, rfl, rfl, rfl, fun _ h => update_true h, fun _ h => h⟩

theorem raised_setCloexec (s : Ledger) (x : Handle) : Raised s (s.setCloexec x true) :=
  ⟨rfl, rfl, rfl, rfl, fun _ h => h, fun _ h => update_true h⟩

/-- Nobody else moves. -/
theorem ends_quiet (host : Host) (s s' : Ledger) : ¬ (ends host).Drift s s' := id

theorem ends_stable (host : Host) (P : Ledger → Prop) : (ends host).Stable P :=
  fun _ _ _ h => h.elim

/-- A program that sets the flag `F` on a descriptor: 0 means that it is in force. -/
def Sets (host : Host) (set : Handle → EndProg CInt) (F : Handle → Ledger → Prop) : Prop :=
  ∀ (fd : Handle) (P : Ledger → Prop), Upward P →
    Meets (ends host) P (set fd) fun rc s => P s ∧ (rc = 0#32 → F fd s)

/-- A flag or-ed in is there. -/
theorem or_and_ne_zero {flag : CInt} (old : CInt) (h : flag ≠ 0#32) :
    (((old ||| flag) &&& flag) != 0#32) = true := by
  have habsorb : (old ||| flag) &&& flag = flag := by
    ext i hi
    simp only [BitVec.getElem_and, BitVec.getElem_or]
    cases old[i] <;> cases flag[i] <;> rfl
  rw [habsorb]
  exact bne_iff_ne.mpr h

theorem setfl_sets (host : Host) :
    Sets host (fun fd => setfl host fd host.oNonblock) fun fd s => s.nonblock fd = true := by
  intro fd P hP
  refine Meets.ite (fun _ => Meets.ite (fun _ => Meets.one (ends_quiet host) ?_) fun hflag => ?_)
    fun _ => ?_
  · -- Windows: `ioctlsocket`
    intro s rc s' hs hcase
    rcases hcase with ⟨-, hp⟩ | ⟨rfl, e, rfl⟩
    · rw [if_pos rfl] at hp
      refine ⟨hP s s' hs (raised_passes (raised_setNonblock s fd) hp), fun _ => ?_⟩
      obtain ⟨e, rfl⟩ := hp
      exact Function.update_self ..
    · exact ⟨hP _ _ hs raised_of_errors, fun h => absurd h (by decide)⟩
  · rw [BitVec.and_self] at hflag
    exact absurd host.oNonblock_ne hflag
  · -- elsewhere: whatever flags were read, the new one is among those written
    refine Meets.bind (M := fun _ => P) (Meets.one (ends_quiet host) ?_) fun flags =>
      Meets.one (ends_quiet host) ?_
    · intro s _ s' hs heq
      subst heq
      exact hs
    · intro s rc s' hs hcase
      rcases hcase with ⟨-, rfl⟩ | ⟨rfl, rfl⟩
      · rw [or_and_ne_zero flags host.oNonblock_ne]
        exact ⟨hP _ _ hs (raised_setNonblock s fd), fun _ => Function.update_self ..⟩
      · exact ⟨hs, fun h => absurd h (by decide)⟩

theorem setfd_sets (host : Host) :
    Sets host (fun fd => setfd host fd host.fdCloexec) fun fd s => s.cloexec fd = true := by
  intro fd P hP
  refine Meets.ite (fun _ => Meets.ite (fun _ => ?_) fun hflag => ?_) fun _ => ?_
  · -- Windows: `SetHandleInformation`, which returns 0 where it fails
    refine Meets.bind (M := fun ok s => P s ∧ (ok ≠ 0#32 → s.cloexec fd = true))
      (Meets.one (ends_quiet host) ?_) fun ok => Meets.ret (ends_stable host _) ?_
    · intro s ok s' hs hcase
      rcases hcase with ⟨hok, hp⟩ | ⟨rfl, hp⟩
      · rw [if_pos (by decide)] at hp
        refine ⟨hP s s' hs (raised_passes (raised_setCloexec s fd) hp), fun _ => ?_⟩
        obtain ⟨e, rfl⟩ := hp
        exact Function.update_self ..
      · exact ⟨hP s s' hs (raised_passes (raised_refl s) hp), fun h => absurd rfl h⟩
    · intro s hboth
      obtain ⟨hs, hset⟩ := hboth
      refine ⟨hs, fun hrc => hset fun hok => ?_⟩
      rw [if_pos hok] at hrc
      exact absurd hrc (by decide)
  · rw [BitVec.and_self] at hflag
    exact absurd host.fdCloexec_ne hflag
  · refine Meets.bind (M := fun _ => P) (Meets.one (ends_quiet host) ?_) fun flags =>
      Meets.one (ends_quiet host) ?_
    · intro s _ s' hs heq
      subst heq
      exact hs
    · intro s rc s' hs hcase
      rcases hcase with ⟨-, rfl⟩ | ⟨rfl, rfl⟩
      · rw [or_and_ne_zero flags host.fdCloexec_ne]
        exact ⟨hP _ _ hs (raised_setCloexec s fd), fun _ => Function.update_self ..⟩
      · exact ⟨hs, fun h => absurd h (by decide)⟩

/-- **A flag on both ends**: a result of 0 means that it is in force on both, if requested,
and that nothing had failed before. -/
theorem onBoth_meets {requested : Prop} [Decidable requested] {set : Handle → EndProg CInt}
    {F : Handle → Ledger → Prop} (hset : Sets host set F) (hF : ∀ fd, Upward (F fd))
    {P : Ledger → Prop} (hP : Upward P) (a b : Handle) (rc : CInt) :
    Meets (ends host) P (onBoth requested set a b rc) fun rc' s =>
      P s ∧ (rc' = 0#32 → rc = 0#32 ∧ (requested → F a s ∧ F b s)) := by
  refine Meets.ite (fun _ => ?_) fun hno => ?_
  · refine Meets.bind (hset a P hP) fun rc0 => ?_
    have hP' : Upward fun s => P s ∧ (rc0 = 0#32 → F a s) :=
      fun s s' ⟨hs, ha⟩ hr => ⟨hP s s' hs hr, fun h => hF a s s' (ha h) hr⟩
    refine Meets.bind (hset b _ hP') fun rc1 => Meets.ret (ends_stable host _) ?_
    intro s hboth
    obtain ⟨⟨hs, ha⟩, hb⟩ := hboth
    refine ⟨hs, fun hrc => ?_⟩
    obtain ⟨hrc, h1⟩ := BitVec.or_eq_zero_iff.mp hrc
    obtain ⟨hrc, h0⟩ := BitVec.or_eq_zero_iff.mp hrc
    exact ⟨hrc, fun _ => ⟨ha h0, hb h1⟩⟩
  · exact Meets.ret (ends_stable host _) fun s hs => ⟨hs, fun h => ⟨h, fun hr => absurd hr hno⟩⟩

/-! ## Closing an end -/

/-- The numbers a host's pair begins at; on Windows a smaller one is no socket. -/
def Host.least (host : Host) : Int := if host.windows then 3 else 0

/-- `posix_close` recognises a socket by its number. -/
theorem posixClose_meets {least x : Int} (hx : 3 ≤ x) (hlt : x < 2 ^ 31) :
    Meets shims (Owes least (x :: rest)) (posixClose (BitVec.ofInt 32 x)) fun _ =>
      Owes least rest := by
  have hnat : (BitVec.ofInt 32 x).toNat = x.toNat := by
    rw [BitVec.toNat_ofInt]
    congr 1
    omega
  have hint : (BitVec.ofInt 32 x).toInt = x := by
    rw [BitVec.toInt_eq_toNat_cond, hnat]
    omega
  have hsock : isSocket (BitVec.ofInt 32 x) = true := by
    rw [isSocket_iff, hnat]
    omega
  have hquiet : ∀ s s', ¬ shims.Drift s s' := fun _ _ => id
  have hstable : ∀ P, shims.Stable P := fun _ _ _ _ h => h.elim
  refine Meets.ite (fun _ => ?_) fun hno => absurd hsock hno
  refine Meets.bind (M := fun _ => Owes least rest) (Meets.one hquiet ?_) fun rc =>
    Meets.ite (fun _ => ?_) fun _ => Meets.ret (hstable _) fun _ hs => hs
  · intro s rc s' hs hc
    have hc : s.Closes (BitVec.ofInt 32 x).toInt rc s' := hc
    rw [hint] at hc
    exact owes_closes hs hc
  · -- the error is turned into an errno, and nothing is closed again
    refine Meets.bind (M := fun _ => Owes least rest) (Meets.one hquiet ?_) fun err => ?_
    · intro s e s' hs hboth
      obtain ⟨-, rfl⟩ := hboth
      exact hs
    · refine Meets.bind (M := fun _ => Owes least rest) (Meets.one hquiet ?_) fun _ =>
        Meets.ret (hstable _) fun _ hs => hs
      exact fun s _ s' hs hp => owes_passes hs hp

/-- Closing an end leaves one less to close. -/
theorem close_meets {x : Handle} (hx : x ≠ -1) :
    Meets (ends host) (Owes host.least (x :: rest)) (Ends.close x) fun _ =>
      Owes host.least rest := by
  refine Meets.one (ends_quiet host) ?_
  intro s rc s' hs hc
  obtain ⟨-, hle, hlt⟩ := hs.live x List.mem_cons_self hx
  have hc : if host.windows then ∃ tr, Exec shims (posixClose (BitVec.ofInt 32 x)) s tr rc s'
    else s.Closes x rc s' := hc
  split at hc
  · rename_i hw
    obtain ⟨tr, hc⟩ := hc
    rw [Host.least, if_pos hw] at hle
    exact posixClose_meets hle hlt s tr rc s' hs hc
  · exact owes_closes hs hc

/-- **Once the pair has been made** it is handed over with its flags, or closed. -/
theorem settle_meets (nonblock cloexec : Prop) [Decidable nonblock] [Decidable cloexec]
    {a b : Handle} (ha : a ≠ -1) (hb : b ≠ -1) :
    Meets (ends host) (Owes host.least [a, b]) (settle host nonblock cloexec a b)
      (AllOrNothing nonblock cloexec) := by
  have howes := owes_upward host.least [a, b]
  refine Meets.bind (onBoth_meets (setfl_sets host) nonblock_upward howes a b 0#32) fun rc => ?_
  have hup : Upward fun s => Owes host.least [a, b] s ∧ (rc = 0#32 → (0 : CInt) = 0#32 ∧
      (nonblock → s.nonblock a = true ∧ s.nonblock b = true)) := by
    intro s s' hboth hr
    obtain ⟨hs, hn⟩ := hboth
    refine ⟨howes s s' hs hr, fun h => ⟨rfl, fun hreq => ?_⟩⟩
    obtain ⟨h0, h1⟩ := (hn h).2 hreq
    exact ⟨hr.nonblock a h0, hr.nonblock b h1⟩
  refine Meets.bind (onBoth_meets (setfd_sets host) cloexec_upward hup a b rc) fun rc' =>
    Meets.ite (fun hrc => ?_) fun hrc => ?_
  · -- a flag was refused
    refine Meets.bind (M := fun _ => Owes host.least [a, b]) (Meets.one (ends_quiet host) ?_)
      fun e => ?_
    · intro s e s' hboth heq
      obtain ⟨⟨hs, -⟩, -⟩ := hboth
      subst heq
      exact hs
    refine Meets.bind (close_meets ha) fun _ => Meets.bind (close_meets hb) fun _ => ?_
    refine Meets.bind (M := fun _ => Owes host.least []) (Meets.one (ends_quiet host) ?_)
      fun _ => Meets.ret (ends_stable host _) fun s hs => Or.inr ⟨?_, nothingLeft_of_owes hs⟩
    · intro s _ s' hs heq
      subst heq
      exact hs
    · exact fun h => hrc (BitVec.eq_of_toInt_eq (h.trans BitVec.toInt_zero.symm))
  · obtain rfl : rc' = 0#32 := not_not.mp hrc
    refine Meets.ret (ends_stable host _) ?_
    intro s hboth
    obtain ⟨⟨hs, hn⟩, hc⟩ := hboth
    obtain ⟨hrc, hc⟩ := hc rfl
    exact Or.inl ⟨rfl, bothOpen_of_owes ha hb hs (hn hrc).2 hc⟩

/-! ## Making the pair -/

/-- A ledger to start from, whatever the process holds already. -/
def Starts (s : Ledger) : Prop := ∃ live nonblock cloexec e, s = start live nonblock cloexec e

/-- What the two functions find when the pair has been asked for. -/
def Paired (host : Host) (r : PairResult) (s : Ledger) : Prop :=
  (r.rc = 0 ∧ r.sv0 ≠ -1 ∧ r.sv1 ≠ -1 ∧ Owes host.least [r.sv0, r.sv1] s)
    ∨ (r.rc ≠ 0 ∧ Owes host.least [] s)

theorem busy_of_starts (h : Starts s) : Busy [] s ∧ s.made = [] := by
  obtain ⟨live, nonblock, cloexec, e, rfl⟩ := h
  exact ⟨⟨owes_start 3 live nonblock cloexec e, rfl, rfl⟩, rfl⟩

theorem paired_of_returns {r : PairResult} (hw : host.windows = true) (h : Returns r s) :
    Paired host r s := by
  have hleast : host.least = 3 := if_pos hw
  rcases h with ⟨hrc, ha, hb, hs⟩ | ⟨hrc, hs, -⟩
  · exact Or.inl ⟨hrc, ha, hb, by rw [hleast]; exact hs⟩
  · exact Or.inr ⟨by rw [hrc]; decide, by rw [hleast]; exact hs⟩

/-- A host's own call makes both ends or none. -/
theorem paired_of_makesPair {r : PairResult} (hw : ¬ host.windows = true) (hs : Starts s)
    (h : s.MakesPair r s') : Paired host r s' := by
  have hleast : host.least = 0 := if_neg hw
  obtain ⟨live, nonblock, cloexec, e, rfl⟩ := hs
  have hstart := owes_start 0 live nonblock cloexec e
  rcases h with ⟨hrc, s₁, h0, h1⟩ | ⟨hrc, hp⟩
  · have howes₁ := owes_makes (Int.le_refl 0) hstart rfl h0
    have hnone : s₁.closed = [] := by
      obtain ⟨-, -, -, e, rfl⟩ := h0
      rfl
    have howes₂ := owes_makes (Int.le_refl 0) howes₁ hnone h1
    refine Or.inl ⟨hrc, makes_ne (Int.le_refl 0) h0, makes_ne (Int.le_refl 0) h1, ?_⟩
    rw [hleast]
    exact owes_perm (List.Perm.swap ..) howes₂
  · exact Or.inr ⟨hrc, by rw [hleast]; exact owes_passes hstart hp⟩

theorem ends_pair_meets (domain type protocol : CInt) (sv : Handle × Handle) :
    Meets (ends host) Starts (Ends.socketpair domain type protocol sv) (Paired host) := by
  refine Meets.one (ends_quiet host) ?_
  intro s r s' hs ha
  have ha : if host.windows then ∃ tr, Exec ledger (socketpair domain type protocol sv) s tr r s'
    else s.MakesPair r s' := ha
  split at ha
  · rename_i hw
    obtain ⟨tr, ha⟩ := ha
    exact paired_of_returns hw
      (socketpair_meets domain type protocol sv s tr r s' (busy_of_starts hs) ha)
  · exact paired_of_makesPair ‹_› hs ha

theorem ends_pipe_meets (fildes : Handle × Handle) :
    Meets (ends host) Starts (Ends.pipe fildes) (Paired host) := by
  refine Meets.one (ends_quiet host) ?_
  intro s r s' hs ha
  have ha : if host.windows then ∃ tr, Exec ledger (pipe fildes) s tr r s'
    else s.MakesPair r s' := ha
  split at ha
  · rename_i hw
    obtain ⟨tr, ha⟩ := ha
    exact paired_of_returns hw (socketpair_meets _ _ _ fildes s tr r s' (busy_of_starts hs) ha)
  · exact paired_of_makesPair ‹_› hs ha

/-- What both functions do with the pair. -/
theorem settled_meets {nonblock cloexec : Prop} [Decidable nonblock] [Decidable cloexec]
    (r : PairResult) :
    Meets (ends host) (Paired host r)
      (if r.rc = 0 then settle host nonblock cloexec r.sv0 r.sv1 else .ret r)
      (AllOrNothing nonblock cloexec) := by
  refine Meets.ite (fun hrc => ?_) fun hrc => Meets.ret (ends_stable host _) ?_
  · by_cases hends : r.sv0 ≠ -1 ∧ r.sv1 ≠ -1
    · refine Meets.mono (settle_meets nonblock cloexec hends.1 hends.2) ?_ fun _ _ h => h
      intro s hcase
      rcases hcase with ⟨-, -, -, hs⟩ | ⟨hne, -⟩
      · exact hs
      · exact absurd hrc hne
    · intro s tr r' s' hcase _
      rcases hcase with ⟨-, ha, hb, -⟩ | ⟨hne, -⟩
      · exact absurd ⟨ha, hb⟩ hends
      · exact absurd hrc hne
  · intro s hcase
    rcases hcase with ⟨h, -⟩ | ⟨-, hs⟩
    · exact absurd h hrc
    · exact Or.inr ⟨hrc, nothingLeft_of_owes hs⟩

/-- Splitting the flags off the type loses neither of them. -/
theorem flags_and (type : CInt) : (type &&& ~~~0xf#32) &&& sockNonblock = type &&& sockNonblock
    ∧ (type &&& ~~~0xf#32) &&& sockCloexec = type &&& sockCloexec := by
  have hn : ~~~0xf#32 &&& sockNonblock = sockNonblock := by decide
  have hc : ~~~0xf#32 &&& sockCloexec = sockCloexec := by decide
  rw [BitVec.and_assoc, hn, BitVec.and_assoc, hc]
  exact ⟨rfl, rfl⟩

theorem bsdSocketpair_meets (domain type protocol : CInt) (sv : Handle × Handle) :
    Meets (ends host) Starts (bsdSocketpair host domain type protocol sv)
      (AllOrNothing (type &&& sockNonblock ≠ 0#32) (type &&& sockCloexec ≠ 0#32)) := by
  rw [← (flags_and type).1, ← (flags_and type).2]
  exact Meets.bind (ends_pair_meets domain (type &&& 0xf#32) protocol sv) settled_meets

theorem bsdPipe2_meets (fildes : Handle × Handle) (flags : CInt) :
    Meets (ends host) Starts (bsdPipe2 host fildes flags)
      (AllOrNothing (flags &&& host.oNonblock ≠ 0#32) (flags &&& host.oCloexec ≠ 0#32)) :=
  Meets.bind (ends_pipe_meets fildes) settled_meets

theorem socketpair_settles (domain type protocol : CInt) (sv : Handle × Handle) :
    Meets ledger Starts (socketpair domain type protocol sv)
      fun r s => AllOrNothing False False r s ∧ ReportsFailure r s := by
  refine Meets.mono (socketpair_meets domain type protocol sv) (fun s hs => busy_of_starts hs) ?_
  intro r s hcase
  rcases hcase with ⟨hrc, ha, hb, hs⟩ | ⟨hrc, hs, hreport⟩
  · exact ⟨Or.inl ⟨hrc, bothOpen_of_owes ha hb hs False.elim False.elim⟩,
      fun hne => absurd hrc hne⟩
  · exact ⟨Or.inr ⟨by rw [hrc]; decide, nothingLeft_of_owes hs⟩, fun _ => hreport⟩

/-! ## Flags in the type -/

/-- Arguments with which `socketpair` returns at once. -/
def Refused (domain type protocol : CInt) : Prop :=
  domain ≠ afUnix ∨ type &&& sockStream = 0#32 ∨ protocol ≠ pfUnspec

/-- The type carries neither flag. -/
def Flagless (type : CInt) : Prop := type &&& sockNonblock = 0#32 ∧ type &&& sockCloexec = 0#32

/-- All or nothing, the flags being those that the type asks for. -/
def KeepsType (type : CInt) (r : PairResult) (s : Ledger) : Prop :=
  AllOrNothing (type &&& sockNonblock ≠ 0#32) (type &&& sockCloexec ≠ 0#32) r s
    ∧ ReportsFailure r s

/-- A process with no sockets. -/
def noSockets : Ledger := start (fun _ => false) (fun _ => false) (fun _ => false) (.other 0)

/-- What such a process holds when every call has worked. -/
def twoEnds : Ledger := (((noSockets.add 3).add 4).add 5).drop 3

/-- A run of `socketpair` in which every call works. -/
theorem exec_blocks {domain type protocol : CInt} (h : ¬ Refused domain type protocol)
    (sv : Handle × Handle) : ∃ tr, Exec ledger (socketpair domain type protocol sv) noSockets tr
      ⟨0, 4, 5⟩ twoEnds := by
  let name : SockAddr := ⟨afInet, inaddrLoopback, 4000⟩
  let e : WsaError := .other 0
  unfold Refused at h
  unfold socketpair
  rw [if_neg h]
  refine Exec.exists_call_to (r := (3 : Int)) (Or.inl ⟨by decide, by decide, rfl, e, rfl⟩) ?_
  refine Exec.exists_call_to (r := (0 : Int)) (Or.inl ⟨rfl, e, rfl⟩) ?_
  refine Exec.exists_call_to (r := (0 : Int)) (Or.inl ⟨rfl, e, rfl⟩) ?_
  refine Exec.exists_call_to (r := some name) (Or.inl ⟨nofun, e, rfl⟩) ?_
  refine Exec.exists_call_to (r := (0 : Int)) (Or.inl ⟨rfl, e, rfl⟩) ?_
  refine Exec.exists_call_to (r := (4 : Int)) (Or.inl ⟨by decide, by decide, rfl, e, rfl⟩) ?_
  refine Exec.exists_call_to (r := (0 : Int)) (Or.inl ⟨rfl, e, rfl⟩) ?_
  refine Exec.exists_call_to (r := (5 : Int)) (Or.inl ⟨by decide, by decide, rfl, e, rfl⟩) ?_
  refine Exec.exists_call_to (r := some name) (Or.inl ⟨nofun, e, rfl⟩) ?_
  refine Exec.exists_call_to (r := some name) (Or.inl ⟨nofun, e, rfl⟩) ?_
  refine Exec.exists_call_to (r := (0 : Int)) (Or.inl ⟨rfl, rfl, e, rfl⟩) ?_
  refine Exec.exists_call_to (r := ()) ⟨e, rfl⟩ ?_
  exact ⟨_, .ret _ _⟩

theorem starts_noSockets : Starts noSockets := ⟨_, _, _, _, rfl⟩

/-- Neither end has a flag then. -/
theorem flagless_of_keeps {type : CInt} (h : KeepsType type ⟨0, 4, 5⟩ twoEnds) : Flagless type := by
  rcases h.1 with ⟨-, hopen⟩ | ⟨hne, -⟩
  · constructor
    · by_contra hn
      exact absurd (hopen.nonblock hn).1 (by decide)
    · by_contra hc
      exact absurd (hopen.cloexec hc).1 (by decide)
  · exact absurd rfl hne

/-- **The flags in the type are dropped**: `socketpair` does as it is told only where there are
none. -/
theorem socketpair_keeps_iff (domain type protocol : CInt) (sv : Handle × Handle) :
    Meets ledger Starts (socketpair domain type protocol sv) (KeepsType type) ↔
      Refused domain type protocol ∨ Flagless type := by
  constructor
  · intro h
    by_cases hrefused : Refused domain type protocol
    · exact Or.inl hrefused
    · obtain ⟨tr, hexec⟩ := exec_blocks hrefused sv
      exact Or.inr (flagless_of_keeps (h noSockets tr _ _ starts_noSockets hexec))
  · intro hcase
    rcases hcase with hrefused | ⟨hn, hc⟩
    · -- nothing has been made, so nothing is left
      unfold Refused at hrefused
      unfold socketpair
      rw [if_pos hrefused]
      refine Meets.ret (ledger_stable _) fun s hs => ?_
      obtain ⟨hbusy, hmade⟩ := busy_of_starts hs
      exact ⟨Or.inr ⟨(by decide : (-1 : Int) ≠ 0), nothingLeft_of_owes hbusy.owes⟩,
        fun _ hne => absurd hmade hne⟩
    · refine Meets.mono (socketpair_settles domain type protocol sv) (fun s hs => hs) ?_
      intro r s h
      rw [KeepsType, hn, hc, ne_self_iff_false]
      exact h

/--
**All or nothing.**

Whichever calls fail, and whatever flags are requested, `bsd_socketpair` and `bsd_pipe2`
return 0 with two open ends on which these flags are in force, or something else with
every end they made closed once. So do the `socketpair` and `pipe` of Windows, flags aside;
after the listener has been made they also clear the vector and report the error of the
call that failed. Flags in its type `socketpair` accepts and drops.
-/
theorem ends_allOrNothing (host : Host) :
    (∀ domain type protocol sv,
      Meets (ends host) Starts (bsdSocketpair host domain type protocol sv)
        (AllOrNothing (type &&& sockNonblock ≠ 0#32) (type &&& sockCloexec ≠ 0#32)))
    ∧ (∀ fildes flags, Meets (ends host) Starts (bsdPipe2 host fildes flags)
        (AllOrNothing (flags &&& host.oNonblock ≠ 0#32) (flags &&& host.oCloexec ≠ 0#32)))
    ∧ (∀ domain type protocol sv, Meets ledger Starts (socketpair domain type protocol sv)
        fun r s => AllOrNothing False False r s ∧ ReportsFailure r s)
    ∧ (∀ fildes, Meets ledger Starts (pipe fildes)
        fun r s => AllOrNothing False False r s ∧ ReportsFailure r s)
    ∧ ∀ domain type protocol sv,
        Meets ledger Starts (socketpair domain type protocol sv) (KeepsType type) ↔
          Refused domain type protocol ∨ Flagless type :=
  ⟨bsdSocketpair_meets, bsdPipe2_meets, socketpair_settles,
    fun fildes => socketpair_settles _ _ _ fildes, socketpair_keeps_iff⟩

/-- **A flag that is dropped**: `pipe` asks for `SOCK_NONBLOCK`, and gets 0 and two ends that
block. -/
theorem pipe_blocks : ∃ tr r s', Starts noSockets
    ∧ Exec (ends windowsHost) (Ends.pipe (0, 0)) noSockets tr r s'
    ∧ r.rc = 0
    ∧ ¬ AllOrNothing ((sockStream ||| sockNonblock) &&& sockNonblock ≠ 0#32)
        ((sockStream ||| sockNonblock) &&& sockCloexec ≠ 0#32) r s' := by
  have haccepted : ¬ Refused afUnix (sockStream ||| sockNonblock) pfUnspec := by
    unfold Refused
    decide
  obtain ⟨tr, hexec⟩ := exec_blocks haccepted (0, 0)
  have hanswer : EndAnswers windowsHost noSockets (.pipe (0, 0)) ⟨0, 4, 5⟩ twoEnds := by
    show ∃ tr, Exec ledger (pipe (0, 0)) noSockets tr ⟨0, 4, 5⟩ twoEnds
    exact ⟨tr, hexec⟩
  refine ⟨_, _, _, starts_noSockets, .call hanswer (.ret _ _), rfl, ?_⟩
  intro hcase
  rcases hcase with ⟨-, hopen⟩ | ⟨hne, -⟩
  · have hblock := (hopen.nonblock (by decide)).1
    exact absurd hblock (by decide)
  · exact hne rfl

end LibrePortable.Sock
