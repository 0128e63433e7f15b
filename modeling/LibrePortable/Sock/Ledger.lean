import Mathlib.Algebra.Group.Int.Defs
import LibrePortable.Lib.Hoare
import LibrePortable.Sock.Socketpair

/-!
# What `socketpair` leaves behind

Nothing here is said about the network. The system may let any call succeed or fail, and
a ledger is kept of the sockets that were made and of those that were given to a closing
call. At every point of the program some of the sockets are still to be closed, should
it fail there: the program *owes* them.
-/

namespace LibrePortable.Sock

open Lib Prog Win

/-- What this process holds, and a record of what it did. -/
structure Ledger where
  live : Handle → Bool
  nonblock : Handle → Bool
  /-- Not inherited by child processes. -/
  cloexec : Handle → Bool
  made : List Handle
  /-- Given to a closing call, in order. -/
  closed : List Handle
  /-- Given to a closing call that failed. -/
  refused : List Handle
  lastError : WsaError
  /-- The error of the last call that failed, closing calls aside. -/
  failure : Option WsaError

namespace Ledger

/-- A process that has yet to make a socket, whatever else it holds. -/
def start (live nonblock cloexec : Handle → Bool) (e : WsaError) : Ledger :=
  ⟨live, nonblock, cloexec, [], [], [], e, none⟩

def failed (s : Ledger) (e : WsaError) : Ledger := { s with lastError := e, failure := some e }

/-- A new descriptor, neither non-blocking nor close-on-exec. -/
def add (s : Ledger) (h : Handle) : Ledger :=
  { s with
    live := Function.update s.live h true
    nonblock := Function.update s.nonblock h false
    cloexec := Function.update s.cloexec h false
    made := s.made ++ [h] }

def drop (s : Ledger) (h : Handle) : Ledger :=
  { s with live := Function.update s.live h false, closed := s.closed ++ [h] }

def refuse (s : Ledger) (h : Handle) : Ledger :=
  { s with closed := s.closed ++ [h], refused := s.refused ++ [h] }

/-- A call that works; it may leave any last error behind. -/
def Passes (s s' : Ledger) : Prop := ∃ e, s' = { s with lastError := e }

/-- A call that returns -1 and sets the last error. -/
def Fails (s : Ledger) (rc : Int) (s' : Ledger) : Prop := rc = -1 ∧ ∃ e, s' = s.failed e

/-- A call that makes a descriptor, `least` or above and not in use. -/
def Makes (s : Ledger) (least h : Int) (s' : Ledger) : Prop :=
  least ≤ h ∧ h < 2 ^ 31 ∧ s.live h = false ∧ (s.add h).Passes s'

/-- A closing call. It can fail, as it does on -1, and can only work on what is open. -/
def Closes (s : Ledger) (h : Handle) (rc : Int) (s' : Ledger) : Prop :=
  if h = -1 then rc = -1 ∧ s.Passes s'
  else (rc = 0 ∧ s.live h = true ∧ (s.drop h).Passes s') ∨ (rc = -1 ∧ (s.refuse h).Passes s')

/-- How the system answers `socketpair`. Any call can work or fail; a name can be any
name. Winsock hands out no number below 3. -/
def Answers (s : Ledger) : (e : PairCall) → PairAnswer e → Ledger → Prop
  | .socket, h, s' | .wsaSocket, h, s' | .accept _, h, s' => s.Makes 3 h s' ∨ s.Fails h s'
  | .setsockopt _, rc, s' | .bind .., rc, s' | .listen .., rc, s' | .connect .., rc, s' =>
      (rc = (0 : Int) ∧ s.Passes s') ∨ s.Fails rc s'
  | .getsockname _, a, s' | .getpeername _, a, s' =>
      (a ≠ (none : Option SockAddr) ∧ s.Passes s')
        ∨ (a = (none : Option SockAddr) ∧ ∃ e, s' = s.failed e)
  | .closesocket h, rc, s' => s.Closes h rc s'
  | .wsaGetLastError, e, s' => e = s.lastError ∧ s' = s
  | .wsaSetLastError e, _, s' => s' = { s with lastError := e }
  | .sentinels _, _, s' => s.Passes s'

/-- The system, with nobody else touching the descriptors of this process. -/
def ledger : Surroundings PairCall PairAnswer Ledger where
  Answer := Answers
  Drift _ _ := False

end Ledger

open Ledger

variable {s s' : Ledger} {least x rc : Int} {rest rest' : List Handle}

/-! ## Owing -/

/-- Of the sockets made, those in `rest` are still open and all others have been given to
a closing call once; -1 in `rest` stands for none. -/
structure Owes (least : Int) (rest : List Handle) (s : Ledger) : Prop where
  nodup : s.made.Nodup
  made : (s.closed ++ rest.filter (· ≠ -1)).Perm s.made
  live : ∀ h ∈ rest, h ≠ -1 → s.live h = true ∧ least ≤ h ∧ h < 2 ^ 31
  /-- What was closed and is open nevertheless, the system refused to close. -/
  gone : ∀ h ∈ s.closed, s.live h = true → h ∈ s.refused

theorem owes_start (least : Int) (live nonblock cloexec : Handle → Bool) (e : WsaError) :
    Owes least [] (start live nonblock cloexec e) :=
  ⟨List.nodup_nil, List.Perm.refl _, nofun, nofun⟩

theorem owes_passes (h : Owes least rest s) (hp : s.Passes s') : Owes least rest s' := by
  obtain ⟨e, rfl⟩ := hp
  exact ⟨h.nodup, h.made, h.live, h.gone⟩

theorem owes_failed (h : Owes least rest s) (e : WsaError) : Owes least rest (s.failed e) :=
  ⟨h.nodup, h.made, h.live, h.gone⟩

/-- -1 is nothing to close. -/
theorem owes_none (h : Owes least rest s) : Owes least (-1 :: rest) s where
  nodup := h.nodup
  made := by simpa using h.made
  live x hx hne := by
    rcases List.mem_cons.mp hx with rfl | hx
    · exact absurd rfl hne
    · exact h.live x hx hne
  gone := h.gone

/-- The order in which the rest is closed does not matter. -/
theorem owes_perm (hperm : rest.Perm rest') (h : Owes least rest s) : Owes least rest' s where
  nodup := h.nodup
  made := ((List.Perm.append_left s.closed (hperm.filter _)).symm).trans h.made
  live x hx := h.live x (hperm.mem_iff.mpr hx)
  gone := h.gone

/-- What is made is not -1. -/
theorem makes_ne (hleast : 0 ≤ least) (h : s.Makes least x s') : x ≠ -1 := by
  have := h.1
  omega

/-- **A descriptor that is made** is one more to close. Nothing may have been closed
before, since the system can hand out the number of a closed one again. -/
theorem owes_makes (hleast : 0 ≤ least) (h : Owes least rest s) (hnone : s.closed = [])
    (hm : s.Makes least x s') : Owes least (x :: rest) s' := by
  have hx := makes_ne hleast hm
  obtain ⟨hle, hlt, hfree, hp⟩ := hm
  refine owes_passes ?_ hp
  have hmade : (rest.filter (· ≠ -1)).Perm s.made := by simpa [hnone] using h.made
  -- what was made is open, and this one was not
  have hnew : x ∉ s.made := by
    intro hc
    obtain ⟨hc, -⟩ := List.mem_filter.mp (hmade.mem_iff.mpr hc)
    rw [(h.live x hc hx).1] at hfree
    cases hfree
  constructor
  · show (s.made ++ [x]).Nodup
    exact List.nodup_append.mpr ⟨h.nodup, List.pairwise_singleton .., fun a ha b hb => by
      rw [List.mem_singleton.mp hb]
      intro heq
      subst heq
      exact hnew ha⟩
  · show (s.closed ++ (x :: rest).filter (· ≠ -1)).Perm (s.made ++ [x])
    rw [hnone, List.nil_append, List.filter_cons_of_pos (by simpa using hx)]
    exact (hmade.cons x).trans (List.perm_append_singleton x s.made).symm
  · intro y hy hne
    show Function.update s.live x true y = true ∧ _
    by_cases hyx : y = x
    · subst hyx
      exact ⟨Function.update_self .., hle, hlt⟩
    · rw [Function.update_of_ne hyx]
      exact h.live y ((List.mem_cons.mp hy).resolve_left hyx) hne
  · intro y hy
    have hy : y ∈ s.closed := hy
    rw [hnone] at hy
    exact absurd hy List.not_mem_nil

/-- **A closing call** leaves one less to close, whether it works or not. -/
theorem owes_closes (h : Owes least (x :: rest) s) (hc : s.Closes x rc s') :
    Owes least rest s' := by
  unfold Closes at hc
  split at hc
  · -- -1 is nothing to close
    rename_i hx
    refine owes_passes ⟨h.nodup, ?_, fun y hy => h.live y (List.mem_cons_of_mem _ hy), h.gone⟩ hc.2
    simpa [hx] using h.made
  · rename_i hx
    have hperm : ((s.closed ++ [x]) ++ rest.filter (· ≠ -1)).Perm s.made := by
      have := h.made
      rwa [List.filter_cons_of_pos (by simpa using hx), List.append_cons] at this
    -- each is made once, so what remains is not the one just closed
    have hne : ∀ y ∈ rest, y ≠ -1 → y ≠ x := by
      intro y hy hy1 heq
      subst heq
      have hnd := hperm.nodup_iff.mpr h.nodup
      refine (List.nodup_append.mp hnd).2.2 y (List.mem_append_right _ (List.mem_singleton_self y))
        y (List.mem_filter.mpr ⟨hy, by simpa using hy1⟩) rfl
    rcases hc with ⟨-, -, hp⟩ | ⟨-, hp⟩
    · refine owes_passes (s := s.drop x)
        ⟨h.nodup, hperm, fun y hy hy1 => ?_, fun y hy hl => ?_⟩ hp
      · show Function.update s.live x false y = true ∧ _
        rw [Function.update_of_ne (hne y hy hy1)]
        exact h.live y (List.mem_cons_of_mem _ hy) hy1
      · have hl : Function.update s.live x false y = true := hl
        by_cases hyx : y = x
        · subst hyx
          rw [Function.update_self] at hl
          cases hl
        · rw [Function.update_of_ne hyx] at hl
          have hy : y ∈ s.closed := by
            rcases List.mem_append.mp hy with hy | hy
            · exact hy
            · exact absurd (List.mem_singleton.mp hy) hyx
          exact h.gone y hy hl
    · refine owes_passes (s := s.refuse x) ⟨h.nodup, hperm,
        fun y hy => h.live y (List.mem_cons_of_mem _ hy), fun y hy hl => ?_⟩ hp
      show y ∈ s.refused ++ [x]
      rcases List.mem_append.mp hy with hy | hy
      · exact List.mem_append_left _ (h.gone y hy hl)
      · exact List.mem_append_right _ hy

/-! ## The error path -/

/-- The error a failed `socketpair` is to report: that of the call that failed, or a
refused connection where no call failed. -/
def Ledger.reported (s : Ledger) : WsaError := s.failure.getD .WSAECONNREFUSED

/-- Nobody else moves. -/
theorem ledger_quiet (s s' : Ledger) : ¬ ledger.Drift s s' := id

theorem ledger_stable (P : Ledger → Prop) : ledger.Stable P := fun _ _ _ h => h.elim

/-- On the way to a return value: nothing has been closed or has failed, and `rest` is owed. -/
structure Busy (rest : List Handle) (s : Ledger) : Prop where
  owes : Owes 3 rest s
  unclosed : s.closed = []
  failure : s.failure = none

/-- About to clean up: `rest` is owed, and the error to report is the last one. -/
structure Failing (rest : List Handle) (s : Ledger) : Prop where
  owes : Owes 3 rest s
  error : s.lastError = s.reported

theorem closes_failure (h : s.Closes x rc s') : s'.failure = s.failure := by
  unfold Closes at h
  split at h
  · obtain ⟨-, e, rfl⟩ := h
    rfl
  · rcases h with ⟨-, -, e, rfl⟩ | ⟨-, e, rfl⟩ <;> rfl

/-- One of the closing calls of the error path, `e` being the error it set aside. -/
theorem closesocket_meets (x : Handle) (rest : List Handle) (e : WsaError) :
    Meets ledger (fun s => Owes 3 (x :: rest) s ∧ e = s.reported) (Call.closesocket x)
      (fun _ s => Owes 3 rest s ∧ e = s.reported) := by
  refine Meets.one ledger_quiet ?_
  intro s rc s' h hc
  obtain ⟨howes, he⟩ := h
  exact ⟨owes_closes howes hc, by rw [Ledger.reported, closes_failure hc]; exact he⟩

/-- **The error path** closes what is owed, and reports the error it found. -/
theorem fail_meets (l a b : Handle) : Meets ledger (Failing [l, a, b]) (fail l a b)
    (fun r s => r = ⟨-1, -1, -1⟩ ∧ Owes 3 [] s ∧ s.lastError = s.reported) := by
  refine Meets.bind (M := fun e s => Owes 3 [l, a, b] s ∧ e = s.reported)
    (Meets.one ledger_quiet ?_) fun e => ?_
  · intro s e s' hs h
    obtain ⟨rfl, rfl⟩ := h
    exact ⟨hs.owes, hs.error⟩
  refine Meets.bind (closesocket_meets l [a, b] e) fun _ => ?_
  refine Meets.bind (closesocket_meets a [b] e) fun _ => ?_
  refine Meets.bind (closesocket_meets b [] e) fun _ => ?_
  refine Meets.bind (M := fun _ s => Owes 3 [] s ∧ s.lastError = s.reported)
    (Meets.one ledger_quiet ?_) fun _ => Meets.ret (ledger_stable _) fun s hs => ⟨rfl, hs⟩
  intro s _ s' h heq
  obtain ⟨howes, he⟩ := h
  subst heq
  exact ⟨⟨howes.nodup, howes.made, howes.live, howes.gone⟩, he⟩

/-! ## The way to a return value -/

/-- A call that makes a socket: `h` is owed as well, or the call failed. -/
def Made (rest : List Handle) (h : Handle) (s : Ledger) : Prop :=
  (h = -1 ∧ Failing rest s) ∨ (h ≠ -1 ∧ Busy (h :: rest) s)

/-- A call that makes none. -/
def Worked (rest : List Handle) (rc : Int) (s : Ledger) : Prop :=
  (rc = 0 ∧ Busy rest s) ∨ (rc = -1 ∧ Failing rest s)

/-- What a return of `socketpair` leaves behind. -/
def Returns (r : PairResult) (s : Ledger) : Prop :=
  (r.rc = 0 ∧ r.sv0 ≠ -1 ∧ r.sv1 ≠ -1 ∧ Owes 3 [r.sv0, r.sv1] s)
    ∨ (r.rc = -1 ∧ Owes 3 [] s
      ∧ (s.made ≠ [] → r.sv0 = -1 ∧ r.sv1 = -1 ∧ s.lastError = s.reported))

theorem busy_passes (h : Busy rest s) (hp : s.Passes s') : Busy rest s' := by
  have howes := owes_passes h.owes hp
  obtain ⟨e, rfl⟩ := hp
  exact ⟨howes, h.unclosed, h.failure⟩

theorem failing_of_busy (h : Busy rest s) (e : WsaError) : Failing rest (s.failed e) :=
  ⟨owes_failed h.owes e, rfl⟩

theorem failing_perm (hperm : rest.Perm rest') (h : Failing rest s) : Failing rest' s :=
  ⟨owes_perm hperm h.owes, h.error⟩

theorem failing_none (h : Failing rest s) : Failing (-1 :: rest) s := ⟨owes_none h.owes, h.error⟩

theorem made_of {h : Handle} (hb : Busy rest s) (ha : s.Makes 3 h s' ∨ s.Fails h s') :
    Made rest h s' := by
  rcases ha with hm | ⟨rfl, e, rfl⟩
  · have howes := owes_makes (by decide) hb.owes hb.unclosed hm
    have hne := makes_ne (by decide) hm
    obtain ⟨-, -, -, e, rfl⟩ := hm
    exact Or.inr ⟨hne, howes, hb.unclosed, hb.failure⟩
  · exact Or.inl ⟨rfl, failing_of_busy hb e⟩

theorem worked_of (hb : Busy rest s) (ha : (rc = 0 ∧ s.Passes s') ∨ s.Fails rc s') :
    Worked rest rc s' := by
  rcases ha with ⟨rfl, hp⟩ | ⟨rfl, e, rfl⟩
  · exact Or.inl ⟨rfl, busy_passes hb hp⟩
  · exact Or.inr ⟨rfl, failing_of_busy hb e⟩

/-- A call that asks for a name. -/
def Named (rest : List Handle) (a : Option SockAddr) (s : Ledger) : Prop :=
  (a ≠ none ∧ Busy rest s) ∨ (a = none ∧ Failing rest s)

theorem named_of {a : Option SockAddr} (hb : Busy rest s)
    (ha : (a ≠ none ∧ s.Passes s') ∨ (a = none ∧ ∃ e, s' = s.failed e)) : Named rest a s' := by
  rcases ha with ⟨hne, hp⟩ | ⟨rfl, e, rfl⟩
  · exact Or.inl ⟨hne, busy_passes hb hp⟩
  · exact Or.inr ⟨rfl, failing_of_busy hb e⟩

/-- A call that fails leads to the error path, with what is owed at that point. -/
theorem fail_returns {l a b : Handle} {P : Ledger → Prop} (h : ∀ s, P s → Failing [l, a, b] s) :
    Meets ledger P (fail l a b) Returns :=
  Meets.mono (fail_meets l a b) h fun _ _ ⟨hr, howes, he⟩ => by
    subst hr
    exact Or.inr ⟨rfl, howes, fun _ => ⟨rfl, rfl, he⟩⟩

/-- Before the connecting end exists. -/
theorem fail_first {l : Handle} {P : Ledger → Prop} (h : ∀ s, P s → Failing [l] s) :
    Meets ledger P (fail l (-1) (-1)) Returns :=
  fail_returns fun s hs =>
    failing_perm (@List.perm_append_comm _ [-1, -1] [l])
      (failing_none (failing_none (h s hs)))

/-- Before the accepted end exists. -/
theorem fail_second {l a : Handle} {P : Ledger → Prop} (h : ∀ s, P s → Failing [a, l] s) :
    Meets ledger P (fail l a (-1)) Returns :=
  fail_returns fun s hs => failing_perm (List.reverse_perm [-1, a, l]).symm (failing_none (h s hs))

theorem pair_meets {l a b : Handle} (self peer : SockAddr) (ha : a ≠ -1) (hb : b ≠ -1) :
    Meets ledger (Busy [b, a, l]) (pair l a b self peer) Returns := by
  have horder : [b, a, l].Perm [l, a, b] := List.reverse_perm [l, a, b]
  refine Meets.ite (fun _ => ?_) fun _ => ?_
  · -- no call has failed, so the error is the one set here
    refine Meets.bind (M := fun _ => Failing [l, a, b]) (Meets.one ledger_quiet ?_) fun _ =>
      fail_returns fun s hs => hs
    intro s _ s' hs heq
    subst heq
    refine ⟨owes_perm horder (owes_passes hs.owes ⟨_, rfl⟩), ?_⟩
    show WsaError.WSAECONNREFUSED = s.failure.getD .WSAECONNREFUSED
    rw [hs.failure]
    rfl
  · refine Meets.bind (M := fun _ => Owes 3 [a, b]) (Meets.one ledger_quiet ?_) fun _ => ?_
    · exact fun s rc s' hs hc => owes_closes (owes_perm horder hs.owes) hc
    refine Meets.bind (M := fun _ => Owes 3 [a, b]) (Meets.one ledger_quiet ?_) fun _ => ?_
    · exact fun s _ s' hs hp => owes_passes hs hp
    · exact Meets.ret (ledger_stable _) fun s hs => Or.inl ⟨rfl, ha, hb, hs⟩

theorem verify_meets {l a b : Handle} (ha : a ≠ -1) (hb : b ≠ -1) :
    Meets ledger (Busy [b, a, l]) (verify l a b) Returns := by
  have horder : [b, a, l].Perm [l, a, b] := List.reverse_perm [l, a, b]
  have hfail : ∀ s, Named [b, a, l] none s → Failing [l, a, b] s := by
    intro s hcase
    rcases hcase with ⟨hne, -⟩ | ⟨-, hs⟩
    · exact absurd rfl hne
    · exact failing_perm horder hs
  have hbusy : ∀ name s, Named [b, a, l] (some name) s → Busy [b, a, l] s := by
    intro name s hcase
    rcases hcase with ⟨-, hs⟩ | ⟨hn, -⟩
    · exact hs
    · cases hn
  refine Meets.bind (M := Named [b, a, l])
    (Meets.one ledger_quiet fun s _ s' hs ha => named_of hs ha) fun self => ?_
  cases self with
  | none => exact fail_returns hfail
  | some self =>
      refine Meets.bind (M := Named [b, a, l])
        (Meets.one ledger_quiet fun s _ s' hs ha => named_of (hbusy self s hs) ha) fun peer => ?_
      cases peer with
      | none => exact fail_returns hfail
      | some peer => exact Meets.mono (pair_meets self peer ha hb) (hbusy peer) fun _ _ h => h

/-- Where the call returned 0, it worked; elsewhere it failed. -/
theorem Worked.zero (h : Worked rest 0 s) : Busy rest s := by
  rcases h with ⟨-, h⟩ | ⟨h, -⟩
  · exact h
  · exact absurd h (by decide)

theorem Worked.failing (h : Worked rest rc s) (hrc : rc ≠ 0) : Failing rest s :=
  (h.resolve_left fun h => hrc h.1).2

theorem Made.busy {h : Handle} (hm : Made rest h s) (hne : h ≠ -1) : Busy (h :: rest) s :=
  (hm.resolve_left fun h => hne h.1).2

theorem Made.failing {h : Handle} (hm : Made rest h s) (heq : h = -1) : Failing rest s :=
  (hm.resolve_right fun h => h.1 heq).2

theorem rendezvous_meets (l : Handle) (addr : SockAddr) :
    Meets ledger (Busy [l]) (rendezvous l addr) Returns := by
  refine Meets.bind (M := Worked [l])
    (Meets.one ledger_quiet fun s _ s' hs ha => worked_of hs ha) fun rc => ?_
  refine Meets.ite (fun hrc => fail_first fun s hs => hs.failing hrc) fun hrc => ?_
  obtain rfl : rc = 0 := not_not.mp hrc
  refine Meets.bind (M := Made [l])
    (Meets.one ledger_quiet fun s _ s' hs ha => made_of hs.zero ha) fun a => ?_
  refine Meets.ite (fun ha => ?_) fun ha => ?_
  · subst ha
    exact fail_first fun s hs => hs.failing rfl
  refine Meets.bind (M := Worked [a, l])
    (Meets.one ledger_quiet fun s _ s' hs hr => worked_of (hs.busy ha) hr) fun rc => ?_
  refine Meets.ite (fun hrc => fail_second fun s hs => hs.failing hrc) fun hrc => ?_
  obtain rfl : rc = 0 := not_not.mp hrc
  refine Meets.bind (M := Made [a, l])
    (Meets.one ledger_quiet fun s _ s' hs hr => made_of hs.zero hr) fun b => ?_
  refine Meets.ite (fun hb => ?_) fun hb => ?_
  · subst hb
    exact fail_second fun s hs => hs.failing rfl
  · exact Meets.mono (verify_meets ha hb) (fun s hs => hs.busy hb) fun _ _ h => h

/-- **`socketpair` is all or nothing**, whichever of its calls fail. -/
theorem socketpair_meets (domain type protocol : CInt) (sv : Handle × Handle) :
    Meets ledger (fun s => Busy [] s ∧ s.made = []) (socketpair domain type protocol sv)
      Returns := by
  refine Meets.ite (fun _ => Meets.ret (ledger_stable _) ?_) fun _ => ?_
  · intro s hboth
    obtain ⟨hs, hmade⟩ := hboth
    exact Or.inr ⟨rfl, hs.owes, fun hne => absurd hmade hne⟩
  refine Meets.bind (M := Made [])
    (Meets.one ledger_quiet fun s _ s' hs ha => made_of hs.1 ha) fun l => ?_
  refine Meets.ite (fun hl => Meets.ret (ledger_stable _) fun s hs => ?_) fun hl => ?_
  · have hs := hs.failing hl
    exact Or.inr ⟨rfl, hs.owes, fun _ => ⟨rfl, rfl, hs.error⟩⟩
  refine Meets.bind (M := Worked [l])
    (Meets.one ledger_quiet fun s _ s' hs ha => worked_of (hs.busy hl) ha) fun rc => ?_
  refine Meets.ite (fun hrc => fail_first fun s hs => hs.failing (by omega)) fun hrc => ?_
  refine Meets.bind (M := Worked [l])
    (Meets.one ledger_quiet fun s _ s' hs ha => ?_) fun rc => ?_
  · rcases hs with ⟨-, hs⟩ | ⟨hc, -⟩
    · exact worked_of hs ha
    · exact absurd hc hrc
  refine Meets.ite (fun hrc => fail_first fun s hs => hs.failing hrc) fun hrc => ?_
  obtain rfl : rc = 0 := not_not.mp hrc
  refine Meets.bind (M := Named [l])
    (Meets.one ledger_quiet fun s _ s' hs ha => named_of hs.zero ha) fun addr => ?_
  cases addr with
  | none =>
      refine fail_first ?_
      intro s hcase
      rcases hcase with ⟨hne, -⟩ | ⟨-, hs⟩
      · exact absurd rfl hne
      · exact hs
  | some addr =>
      refine Meets.mono (rendezvous_meets l _) ?_ fun _ _ h => h
      intro s hcase
      rcases hcase with ⟨-, hs⟩ | ⟨hn, -⟩
      · exact hs
      · cases hn

end LibrePortable.Sock
