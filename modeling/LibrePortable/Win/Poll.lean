import LibrePortable.Win.Posix

/-!
# `poll` on Windows

`poll_win.c` splits the entries into sockets and other handles, then alternates:
a look at the handles with `WaitForMultipleObjects` and a wait of at most a tenth
of a second on the sockets with `select`, until something is ready or the timeout
is used up. A second walk over the entries then works out each `revents`.

What the system answers is an `Env`: one answer for every place a call is made.
The loop need not end, so it carries fuel, and running out of it is `none`.
-/

namespace LibrePortable.Win.Poll

open LibrePortable.Win

/-- A Windows `HANDLE`. -/
abbrev Handle := Nat

/-- `FD_SETSIZE`, as Winsock defines it. -/
def fdSetsize : Nat := 64

/-- `WAIT_OBJECT_0`. -/
def waitObject0 : Nat := 0

/-- `WAIT_FAILED`. -/
def waitFailed : Nat := 0xFFFFFFFF

/-! ## Event bits -/

/-- Which header the event bits come from: the compat one, or Winsock's own
where `_WIN32_WINNT >= 0x0600`. -/
inductive Header where
  | compat
  | winsock
  deriving DecidableEq, Repr

/-- C's `short`. -/
abbrev Bits := BitVec 16

namespace Header

def pollin : Header → Bits
  | compat => 0x001
  | winsock => 0x300

def pollpri : Header → Bits
  | compat => 0x002
  | winsock => 0x400

def pollout : Header → Bits
  | compat => 0x004
  | winsock => 0x010

def pollerr : Header → Bits
  | compat => 0x008
  | winsock => 0x001

def pollhup : Header → Bits
  | compat => 0x010
  | winsock => 0x002

def pollnval : Header → Bits
  | compat => 0x020
  | winsock => 0x004

def pollrdnorm : Header → Bits
  | compat => 0x040
  | winsock => 0x100

def pollrdband : Header → Bits
  | compat => 0x080
  | winsock => 0x200

def pollwrnorm : Header → Bits
  | compat => 0x100
  | winsock => 0x010

def pollwrband : Header → Bits
  | compat => 0x200
  | winsock => 0x020

/-- The requests that put a socket in the read set. -/
def readMask (H : Header) : Bits := H.pollin ||| H.pollrdnorm ||| H.pollrdband

/-- The requests that put a socket in the write set. -/
def writeMask (H : Header) : Bits := H.pollout ||| H.pollwrnorm ||| H.pollwrband

end Header

/-- `struct pollfd`. -/
structure Pollfd where
  fd : CInt
  events : Bits
  revents : Bits
  deriving DecidableEq, Repr

/-! ## `fd_set` -/

/-- Winsock's `fd_set`: an array of distinct sockets, never longer than `FD_SETSIZE`. -/
structure FdSet where
  fds : List CInt
  nodup : fds.Nodup
  bounded : fds.length ≤ fdSetsize

namespace FdSet

/-- `FD_ZERO`. -/
def zero : FdSet := ⟨[], List.nodup_nil, Nat.zero_le _⟩

/-- `FD_SET`: add a socket that is not there yet, if there is room. -/
def set (s : FdSet) (fd : CInt) : FdSet :=
  if h : fd ∉ s.fds ∧ s.fds.length < fdSetsize then
    ⟨s.fds ++ [fd],
      List.nodup_append.mpr ⟨s.nodup, List.pairwise_singleton _ fd, fun _ ha _ hb =>
        fun he => h.1 (List.mem_singleton.mp hb ▸ he ▸ ha)⟩,
      by rw [List.length_append]; exact h.2⟩
  else s

/-- `FD_ISSET`. -/
def isSet (s : FdSet) (fd : CInt) : Bool := decide (fd ∈ s.fds)

end FdSet

/-! ## What the system answers -/

/-- `recv` with `MSG_PEEK`: its result, and the error if it failed. -/
structure RecvAnswer where
  ret : Int
  err : WsaError

/-- What a console reports next. -/
inductive EventType where
  | KEY_EVENT | MOUSE_EVENT | WINDOW_BUFFER_SIZE_EVENT | MENU_EVENT | FOCUS_EVENT
  deriving DecidableEq, Repr

/-- `INPUT_RECORD`, as far as it is looked at. -/
structure InputRecord where
  eventType : EventType
  bKeyDown : Bool
  deriving DecidableEq, Repr

/-- `select`: its result, the sets it leaves behind, and the error if it failed. -/
structure SelectAnswer where
  rc : Int
  rfds : FdSet
  wfds : FdSet
  efds : FdSet
  err : WsaError

/-- The places in `compute_select_revents` that peek at a socket. -/
inductive Peek where
  | readSet | exceptSet | oob
  deriving DecidableEq, Repr

/-- Every answer the system gives during one call of `poll`. -/
structure Env where
  /-- `WSAEnumNetworkEvents` on entry `i` in the set-up pass. -/
  enumSetup : Nat → Int
  /-- The same in the result pass. -/
  enumResult : Nat → Int
  /-- `_get_osfhandle`. -/
  osfHandle : CInt → Handle
  /-- `WaitForMultipleObjects` in pass `k`. -/
  wait : Nat → Nat
  /-- `select` in pass `k`. -/
  select : Nat → SelectAnswer
  /-- `recv` on entry `i`. -/
  recv : Nat → Peek → RecvAnswer
  /-- `GetStdHandle(STD_INPUT_HANDLE)`. -/
  stdInput : Handle
  /-- `PeekConsoleInput` for entry `i`: the record, if the call succeeds. -/
  peekConsole : Nat → Option InputRecord

/-! ## The helpers -/

/-- `conn_is_closed`. -/
def connIsClosed (a : RecvAnswer) : Bool :=
  a.ret == -1 &&
    match a.err with
    | .WSAECONNABORTED | .WSAECONNRESET | .WSAENETRESET | .WSAESHUTDOWN => true
    | _ => false

/-- `conn_has_oob_data`. -/
def connHasOobData (a : RecvAnswer) : Bool := a.ret == 1

/-- `is_socket` of `poll_win.c`: asks Winsock, except about the standard descriptors. -/
def isSocket (fd : CInt) (enum : Int) : Bool := if fd.slt 3#32 then false else enum == 0

/-- `compute_select_revents`. -/
def computeSelectRevents (H : Header) (recv : Peek → RecvAnswer) (fd : CInt) (events : Bits)
    (rfds wfds efds : FdSet) : Bits :=
  let rc : Bits := 0
  let rc := if events &&& H.readMask ≠ 0 ∧ rfds.isSet fd then
      if connIsClosed (recv .readSet) then rc ||| H.pollhup
      else rc ||| (H.pollin ||| H.pollrdnorm)
    else rc
  let rc := if events &&& H.writeMask ≠ 0 ∧ wfds.isSet fd then rc ||| H.pollout else rc
  if efds.isSet fd then
    if connIsClosed (recv .exceptSet) then rc ||| H.pollhup
    else if connHasOobData (recv .oob) then rc ||| (H.pollrdband ||| H.pollpri)
    else rc ||| H.pollerr
  else rc

/-- `compute_wait_revents`: the bits, and whether a console record was flushed.
Past the handles recorded in the set-up pass `h` is indeterminate. -/
def computeWaitRevents (H : Header) (stdInput : Handle) (peek : Option InputRecord)
    (h : Option Handle) (events : Bits) (object waitRc : Nat) : Bits × Bool :=
  let rc : Bits := if events &&& (H.pollout ||| H.pollwrnorm) ≠ 0 then H.pollout else 0
  if waitRc ≥ waitObject0 ∧ object = waitRc - waitObject0
      ∧ events &&& (H.pollin ||| H.pollrdnorm) ≠ 0 then
    if h = some stdInput then
      match peek with
      | some record =>
          if record.eventType = .KEY_EVENT ∧ record.bKeyDown then (rc ||| H.pollin, false)
          else (rc, true)
      | none => (rc ||| H.pollin, false)
    else (rc ||| H.pollin, false)
  else (rc, false)

/-- The errno that `wsa_select_errno` chooses. -/
def wsaSelectErrno : WsaError → Errno
  | .WSAEINTR | .WSAEINPROGRESS => .EINTR
  | .WSAEFAULT => .EFAULT
  | .WSAEINVAL => .EINVAL
  | .WSANOTINITIALISED => .EPERM
  | .WSAENETDOWN => .ENOMEM
  | _ => Errno.EIO

/-! ## The set-up pass -/

/-- What the first walk over the entries leaves behind; `numHandles` is the length of `handles`. -/
structure Setup where
  rfds : FdSet
  wfds : FdSet
  efds : FdSet
  numSockets : Nat
  handles : List Handle

/-- Before the walk. -/
def Setup.empty : Setup := ⟨.zero, .zero, .zero, 0, []⟩

/-- Record a socket. -/
def Setup.addSocket (su : Setup) (H : Header) (p : Pollfd) : Setup :=
  { su with
    efds := su.efds.set p.fd
    rfds := if p.events &&& H.readMask ≠ 0 then su.rfds.set p.fd else su.rfds
    wfds := if p.events &&& H.writeMask ≠ 0 then su.wfds.set p.fd else su.wfds
    numSockets := su.numSockets + 1 }

/-- Record the handle of anything else. -/
def Setup.addHandle (su : Setup) (h : Handle) : Setup := { su with handles := su.handles ++ [h] }

/-- A disabled entry. -/
def Pollfd.negative (p : Pollfd) : Bool := p.fd.slt 0#32

/-- The first walk, from entry `i` on; `none` is the `EINVAL` return. -/
def setUp (H : Header) (env : Env) : Nat → List Pollfd → Setup → Option Setup
  | _, [], su => some su
  | i, p :: ps, su =>
      if p.negative then setUp H env (i + 1) ps su
      else if isSocket p.fd (env.enumSetup i) then
        if su.numSockets ≥ fdSetsize then none
        else setUp H env (i + 1) ps (su.addSocket H p)
      else
        if su.handles.length ≥ fdSetsize then none
        else setUp H env (i + 1) ps (su.addHandle (env.osfHandle p.fd))

/-! ## The wait loop -/

/-- `TIMEVAL`. -/
structure Timeval where
  sec : Int
  usec : Int
  deriving DecidableEq, Repr

/-- One system call of the loop, with its answer. -/
inductive PollCall where
  | wait (handles : List Handle) (rc : Nat)
  | select (rfds wfds efds : FdSet) (tv : Timeval) (answer : SelectAnswer)

/-- The variables that live across passes. -/
structure LoopState where
  timespent : Int
  looptime : Int
  waitRc : Nat
  rfds : FdSet
  wfds : FdSet
  efds : FdSet

/-- How a pass ends: an error return, a `break`, or on to the loop condition. -/
inductive PassEnd where
  | error (e : Errno)
  | stop
  | idle
  deriving DecidableEq, Repr

/-- One pass: its calls, how it ended, and the variables afterwards. -/
structure Pass where
  log : List PollCall
  ended : PassEnd
  state : LoopState

/-- The slice of this pass: never more than the time that is left. -/
def slice (timeoutMs : Int) (st : LoopState) : Int :=
  if timeoutMs ≠ -1 ∧ timeoutMs - st.timespent < st.looptime then timeoutMs - st.timespent
  else st.looptime

/-- Did the wait report one of the handles? -/
def handleSignaled (su : Setup) (waitRc : Nat) : Bool :=
  su.handles.length ≠ 0 && decide (waitRc ≥ waitObject0) &&
    decide (waitRc ≤ waitObject0 + su.handles.length - 1)

/-- What follows `select`: the error return, the `break`, or the time spent goes up. -/
def conclude (su : Setup) (signaled : Bool) (ans : SelectAnswer) (st : LoopState) :
    PassEnd × LoopState :=
  if !signaled ∧ ans.rc = socketError then (.error (wsaSelectErrno ans.err), st)
  else if signaled ∨ (su.numSockets ≠ 0 ∧ ans.rc > 0) then (.stop, st)
  else (.idle, { st with timespent := st.timespent + st.looptime })

/-- The body of the `do` loop, in pass `k`. -/
def pass (env : Env) (su : Setup) (timeoutMs : Int) (k : Nat) (st : LoopState) : Pass :=
  let looptime := slice timeoutMs st
  let waitRc := if su.handles.length ≠ 0 then env.wait k else st.waitRc
  let waits := if su.handles.length ≠ 0 then [PollCall.wait su.handles waitRc] else []
  if su.handles.length ≠ 0 ∧ waitRc = waitFailed then
    { log := waits, ended := .error .ENOMEM
      state := { st with looptime := looptime, waitRc := waitRc } }
  else
    let signaled := handleSignaled su waitRc
    let tv : Timeval := ⟨0, if signaled then 0 else looptime * 1000⟩
    let ans := env.select k
    let done := conclude su signaled ans
      ⟨st.timespent, looptime, waitRc, ans.rfds, ans.wfds, ans.efds⟩
    { log := waits ++ [.select su.rfds su.wfds su.efds tv ans], ended := done.1, state := done.2 }

/-- How the loop ends. -/
structure LoopEnd where
  log : List PollCall
  result : Except Errno LoopState

/-- The `do … while` loop from pass `k` on. -/
def loop (env : Env) (su : Setup) (timeoutMs : Int) : Nat → Nat → LoopState → Option LoopEnd
  | 0, _, _ => none
  | fuel + 1, k, st =>
      let ps := pass env su timeoutMs k st
      match ps.ended with
      | .error e => some ⟨ps.log, .error e⟩
      | .stop => some ⟨ps.log, .ok ps.state⟩
      | .idle =>
          if timeoutMs = -1 ∨ ps.state.timespent < timeoutMs then
            (loop env su timeoutMs fuel (k + 1) ps.state).map
              (fun r => { r with log := ps.log ++ r.log })
          else some ⟨ps.log, .ok ps.state⟩

/-! ## The result pass -/

/-- What the second walk leaves behind: the entries, how many are ready, and the
consoles a record was flushed from. -/
structure Results where
  pfds : List Pollfd
  ready : Nat
  flushed : List (Option Handle)

/-- Put one finished entry in front of the results of the others. -/
def Results.cons (p : Pollfd) (flushed : List (Option Handle)) (r : Results) : Results :=
  ⟨p :: r.pfds, (if p.revents ≠ 0 then 1 else 0) + r.ready, flushed ++ r.flushed⟩

/-- The second walk, from entry `i` on; `n` is `num_handles`. -/
def results (H : Header) (env : Env) (su : Setup) (st : LoopState) :
    Nat → Nat → List Pollfd → Results
  | _, _, [] => ⟨[], 0, []⟩
  | i, n, p :: ps =>
      if p.negative then (results H env su st (i + 1) n ps).cons { p with revents := 0 } []
      else if isSocket p.fd (env.enumResult i) then
        let rev := computeSelectRevents H (env.recv i) p.fd p.events st.rfds st.wfds st.efds
        (results H env su st (i + 1) n ps).cons { p with revents := rev } []
      else
        let rev := computeWaitRevents H env.stdInput (env.peekConsole i) su.handles[n]? p.events n
          st.waitRc
        (results H env su st (i + 1) (n + 1) ps).cons { p with revents := rev.1 }
          (if rev.2 then [su.handles[n]?] else [])

/-! ## `poll` -/

/-- What `poll` leaves behind. -/
structure Outcome where
  rc : Int
  errno : Option Errno
  pfds : List Pollfd
  log : List PollCall
  flushed : List (Option Handle)

/-- A return of -1. -/
def Outcome.error (e : Errno) (pfds : List Pollfd) (log : List PollCall) : Outcome :=
  ⟨-1, some e, pfds, log, []⟩

/-- The variables before the first pass. -/
def LoopState.start (su : Setup) (timeoutMs : Int) : LoopState :=
  ⟨0, if timeoutMs > 100 ∨ timeoutMs = -1 then 100 else timeoutMs, waitFailed,
    su.rfds, su.wfds, su.efds⟩

/-- `poll`. The array is `none` for a NULL pointer; `none` comes back when the
fuel runs out while the loop is still waiting. -/
def poll (H : Header) (env : Env) (pfds : Option (List Pollfd)) (timeoutMs : Int) (fuel : Nat) :
    Option Outcome :=
  match pfds with
  | none => some (.error .EINVAL [] [])
  | some pfds =>
    if pfds.length ≤ 0 then some ⟨0, none, pfds, [], []⟩
    else
      match setUp H env 0 pfds .empty with
      | none => some (.error .EINVAL pfds [])
      | some su =>
        match loop env su timeoutMs fuel 0 (.start su timeoutMs) with
        | none => none
        | some ⟨log, .error e⟩ => some (.error e pfds log)
        | some ⟨log, .ok st⟩ =>
            let r := results H env su st 0 0 pfds
            some ⟨r.ready, none, r.pfds, log, r.flushed⟩

end LibrePortable.Win.Poll
