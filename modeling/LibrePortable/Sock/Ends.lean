import LibrePortable.Sock.Ledger
import LibrePortable.Win.Posix

/-!
# `bsd_socketpair` and `bsd_pipe2`

Where the host's own calls take no flags, the pair is made first and the flags are set on
each end afterwards; if that fails the pair is closed again. Windows has neither call, so
there the emulations of `socketpair` and `pipe` stand in for them, and closing an end goes
through the shim that tells sockets from runtime descriptors.
-/

namespace LibrePortable.Sock

open Lib Prog Win

/-- `SOCK_NONBLOCK` and `SOCK_CLOEXEC` of the compatibility header. -/
def sockNonblock : CInt := 0x4000#32
def sockCloexec : CInt := 0x8000#32

/-- `pipe` on Windows. -/
def pipe (fildes : Handle × Handle) : PairProg PairResult :=
  socketpair afUnix (sockStream ||| sockNonblock) pfUnspec fildes

/-- What the two functions are compiled against. -/
structure Host where
  windows : Bool
  oNonblock : CInt
  oCloexec : CInt
  fdCloexec : CInt
  oNonblock_ne : oNonblock ≠ 0#32
  fdCloexec_ne : fdCloexec ≠ 0#32

/-- Windows, with the values of the compatibility header. -/
def windowsHost : Host :=
  ⟨true, Win.oNonblock, Win.oCloexec, 1#32, by decide, by decide⟩

/-- The commands given to `fcntl`. -/
inductive FcntlCmd where
  | F_GETFD
  | F_SETFD (flags : CInt)
  | F_GETFL
  | F_SETFL (flags : CInt)

/-- The calls the two functions make. -/
inductive EndCall where
  | socketpair (domain type protocol : CInt) (socketVector : Handle × Handle)
  | pipe (fildes : Handle × Handle)
  | ioctlsocket (s : Handle) (cmd : CInt) (mode : Nat)
  | setHandleInformation (h : Handle) (mask flags : CInt)
  | fcntl (fd : Handle) (cmd : FcntlCmd)
  | close (fd : Handle)
  | getErrno
  | setErrno (e : Errno)

def EndAnswer : EndCall → Type
  | .socketpair .. | .pipe _ => PairResult
  | .ioctlsocket .. | .setHandleInformation .. | .fcntl .. => CInt
  | .close _ => Int
  | .getErrno => Errno
  | .setErrno _ => Unit

abbrev EndProg : Type → Type := Prog EndCall EndAnswer

def fionbio : CInt := 0x8004667e#32
def handleFlagInherit : CInt := 1#32

namespace Ends

def socketpair (domain type protocol : CInt) (sv : Handle × Handle) : EndProg PairResult :=
  .call (.socketpair domain type protocol sv) .ret
def pipe (fildes : Handle × Handle) : EndProg PairResult := .call (.pipe fildes) .ret
def ioctlsocket (s : Handle) (cmd : CInt) (mode : Nat) : EndProg CInt :=
  .call (.ioctlsocket s cmd mode) .ret
def setHandleInformation (h : Handle) (mask flags : CInt) : EndProg CInt :=
  .call (.setHandleInformation h mask flags) .ret
def fcntl (fd : Handle) (cmd : FcntlCmd) : EndProg CInt := .call (.fcntl fd cmd) .ret
def close (fd : Handle) : EndProg Int := .call (.close fd) .ret
def getErrno : EndProg Errno := .call .getErrno .ret
def setErrno (e : Errno) : EndProg Unit := .call (.setErrno e) .ret

end Ends

/-- `setfd`; both files have a copy of it. -/
def setfd (host : Host) (fd : Handle) (flag : CInt) : EndProg CInt :=
  if host.windows then
    if flag &&& host.fdCloexec ≠ 0#32 then do
      let ok ← Ends.setHandleInformation fd handleFlagInherit 0#32
      return if ok = 0#32 then -1#32 else 0#32
    else return -1#32
  else do
    let flags ← Ends.fcntl fd .F_GETFD
    Ends.fcntl fd (.F_SETFD (flags ||| flag))

/-- `setfl`. -/
def setfl (host : Host) (fd : Handle) (flag : CInt) : EndProg CInt :=
  if host.windows then
    if flag &&& host.oNonblock ≠ 0#32 then Ends.ioctlsocket fd fionbio 1
    else return -1#32
  else do
    let flags ← Ends.fcntl fd .F_GETFL
    Ends.fcntl fd (.F_SETFL (flags ||| flag))

/-- Set a flag on both ends, if it was requested. -/
def onBoth (requested : Prop) [Decidable requested] (set : Handle → EndProg CInt)
    (sv0 sv1 : Handle) (rc : CInt) : EndProg CInt :=
  if requested then do
    let rc0 ← set sv0
    let rc1 ← set sv1
    return rc ||| rc0 ||| rc1
  else return rc

/-- What follows once the pair has been made: the flags, or the end of the pair. -/
def settle (host : Host) (nonblock cloexec : Prop) [Decidable nonblock] [Decidable cloexec]
    (sv0 sv1 : Handle) : EndProg PairResult := do
  let rc ← onBoth nonblock (fun fd => setfl host fd host.oNonblock) sv0 sv1 0#32
  let rc ← onBoth cloexec (fun fd => setfd host fd host.fdCloexec) sv0 sv1 rc
  if rc ≠ 0#32 then
    let e ← Ends.getErrno
    let _ ← Ends.close sv0
    let _ ← Ends.close sv1
    Ends.setErrno e
    return ⟨rc.toInt, sv0, sv1⟩
  else return ⟨rc.toInt, sv0, sv1⟩

/-- `bsd_socketpair`. -/
def bsdSocketpair (host : Host) (domain type protocol : CInt) (socketVector : Handle × Handle) :
    EndProg PairResult := do
  let flags := type &&& ~~~0xf#32
  let r ← Ends.socketpair domain (type &&& 0xf#32) protocol socketVector
  if r.rc = 0 then
    settle host (flags &&& sockNonblock ≠ 0#32) (flags &&& sockCloexec ≠ 0#32) r.sv0 r.sv1
  else return r

/-- `bsd_pipe2`. -/
def bsdPipe2 (host : Host) (fildes : Handle × Handle) (flags : CInt) : EndProg PairResult := do
  let r ← Ends.pipe fildes
  if r.rc = 0 then
    settle host (flags &&& host.oNonblock ≠ 0#32) (flags &&& host.oCloexec ≠ 0#32) r.sv0 r.sv1
  else return r

/-! ## The system -/

namespace Ledger

/-- The ledger under the shims of Windows; the runtime's own calls concern no socket. -/
def ShimAnswers (s : Ledger) : (e : WinCall) → Answer e → Ledger → Prop
  | .closesocket h, rc, s' => s.Closes h.toInt rc s'
  | .wsaGetLastError, e, s' => e = s.lastError ∧ s' = s
  | _, _, s' => s.Passes s'

def shims : Surroundings WinCall Answer Ledger where
  Answer := ShimAnswers
  Drift _ _ := False

/-- A host's own call: both ends, or an error. -/
def MakesPair (s : Ledger) (r : PairResult) (s' : Ledger) : Prop :=
  (r.rc = 0 ∧ ∃ s₁, s.Makes 0 r.sv0 s₁ ∧ s₁.Makes 0 r.sv1 s') ∨ (r.rc ≠ 0 ∧ s.Passes s')

def setNonblock (s : Ledger) (h : Handle) (b : Bool) : Ledger :=
  { s with nonblock := Function.update s.nonblock h b }

def setCloexec (s : Ledger) (h : Handle) (b : Bool) : Ledger :=
  { s with cloexec := Function.update s.cloexec h b }

/-- `fcntl`: the flags asked for can be any; setting them returns -1 and sets nothing, or
anything else and sets them. -/
def Fcntl (host : Host) (s : Ledger) (fd : Handle) : FcntlCmd → CInt → Ledger → Prop
  | .F_GETFD, _, s' | .F_GETFL, _, s' => s' = s
  | .F_SETFD flags, rc, s' =>
      (rc ≠ -1#32 ∧ s' = s.setCloexec fd (flags &&& host.fdCloexec != 0#32))
        ∨ (rc = -1#32 ∧ s' = s)
  | .F_SETFL flags, rc, s' =>
      (rc ≠ -1#32 ∧ s' = s.setNonblock fd (flags &&& host.oNonblock != 0#32))
        ∨ (rc = -1#32 ∧ s' = s)

/-- How the system answers. On Windows the pair comes from the emulations, and an end is
closed through `posix_close`. -/
def EndAnswers (host : Host) (s : Ledger) : (e : EndCall) → EndAnswer e → Ledger → Prop
  | .socketpair domain type protocol sv, r, s' =>
      if host.windows then ∃ tr, Exec ledger (Sock.socketpair domain type protocol sv) s tr r s'
      else s.MakesPair r s'
  | .pipe fildes, r, s' =>
      if host.windows then ∃ tr, Exec ledger (Sock.pipe fildes) s tr r s' else s.MakesPair r s'
  | .ioctlsocket h cmd mode, rc, s' =>
      (rc = 0#32 ∧ (if cmd = fionbio then s.setNonblock h (mode != 0) else s).Passes s')
        ∨ (rc = -1#32 ∧ ∃ e, s' = s.failed e)
  | .setHandleInformation h mask flags, ok, s' =>
      (ok ≠ 0#32 ∧ (if mask &&& handleFlagInherit ≠ 0#32 then
          s.setCloexec h (flags &&& handleFlagInherit == 0#32) else s).Passes s')
        ∨ (ok = 0#32 ∧ s.Passes s')
  | .fcntl fd cmd, rc, s' => Fcntl host s fd cmd rc s'
  | .close fd, rc, s' =>
      if host.windows then ∃ tr, Exec shims (posixClose (BitVec.ofInt 32 fd)) s tr rc s'
      else s.Closes fd rc s'
  | .getErrno, _, s' | .setErrno _, _, s' => s' = s

def ends (host : Host) : Surroundings EndCall EndAnswer Ledger where
  Answer := EndAnswers host
  Drift _ _ := False

end Ledger

end LibrePortable.Sock
