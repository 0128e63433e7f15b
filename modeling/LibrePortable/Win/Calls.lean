import LibrePortable.Lib.Prog

/-!
# What the Windows shims are written against

The C `int`, the error numbers, and the alphabet of calls into the C runtime and
Winsock that the descriptor functions of the compatibility layer make. A
descriptor of the runtime and a socket handle are both handed around as an
`int`, so both appear here as a 32-bit word; which of the two tables a call looks
the word up in is what `aim` says.
-/

namespace LibrePortable.Win

open Lib

/-- C's `int`. -/
abbrev CInt := BitVec 32

/-- An address the shims pass through without looking at what is there. -/
abbrev Ptr := Nat

/-- The values of `errno` the shims set. -/
inductive Errno where
  | ENOMEM | EACCES | EPERM | EIO | EFAULT | EINTR | EINVAL | EINPROGRESS | EAGAIN
  | ENOTSUP | EFBIG | ENOTSOCK | ENOPROTOOPT | ECONNREFUSED | EAFNOSUPPORT | EBADF | EPIPE
  /-- Any other number, set by the runtime itself. -/
  | other (n : Nat)
  deriving DecidableEq, Repr

/-- The Winsock errors the shims tell apart. -/
inductive WsaError where
  | WSAENOBUFS | WSAEACCES | WSANOTINITIALISED | WSAEHOSTUNREACH | WSAENETDOWN | WSAEFAULT
  | WSAEINTR | WSAEINVAL | WSAEINPROGRESS | WSAEWOULDBLOCK | WSAEOPNOTSUPP | WSAEMSGSIZE
  | WSAENOTSOCK | WSAENOPROTOOPT | WSAECONNREFUSED | WSAEAFNOSUPPORT | WSAEBADF
  | WSAENETRESET | WSAENOTCONN | WSAECONNABORTED | WSAECONNRESET | WSAESHUTDOWN | WSAETIMEDOUT
  /-- Any other code. -/
  | other (n : Nat)
  deriving DecidableEq, Repr

/-- The third argument of `lseek`. -/
inductive Whence where
  | SEEK_SET | SEEK_CUR | SEEK_END
  deriving DecidableEq, Repr

/-- The calls the descriptor shims make. -/
inductive WinCall where
  | «open» (path : String) (flags mode : CInt)
  | close (fd : CInt)
  | read (fd : CInt) (buf : Ptr) (count : Nat)
  | write (fd : CInt) (buf : Ptr) (count : Nat)
  | lseek (fd : CInt) (offset : Int) (whence : Whence)
  | fdopen (fd : CInt) (mode : String)
  | fstat (fd : CInt) (statbuf : Ptr)
  | chsize (fd : CInt) (length : Int)
  | closesocket (s : CInt)
  | recv (s : CInt) (buf : Ptr) (len : Nat) (flags : CInt)
  | send (s : CInt) (buf : Ptr) (len : Nat) (flags : CInt)
  | getsockopt (s level optname : CInt) (optval optlen : Ptr)
  | setsockopt (s level optname : CInt) (optval : Ptr) (optlen : Nat)
  | wsaGetLastError
  | getErrno
  | setErrno (e : Errno)
  deriving DecidableEq, Repr

/-- What each call returns. `fdopen` returns a stream or NULL; the error
functions return an error; everything else an integer. -/
def Answer : WinCall → Type
  | .open .. => CInt
  | .fdopen .. => Option Ptr
  | .wsaGetLastError => WsaError
  | .getErrno => Errno
  | .setErrno _ => Unit
  | _ => Int

/-- A shim: a program over these calls. -/
abbrev Shim : Type → Type := Prog WinCall Answer

/-- Where a call looks its descriptor up: the runtime's table or Winsock's. -/
inductive Aim where
  | crt (fd : CInt)
  | wsock (s : CInt)
  deriving DecidableEq, Repr

/-- The descriptor a call acts on, if it acts on one. -/
def aim : WinCall → Option Aim
  | .close fd | .read fd _ _ | .write fd _ _ | .lseek fd _ _ => some (.crt fd)
  | .fdopen fd _ | .fstat fd _ | .chsize fd _ => some (.crt fd)
  | .closesocket s | .recv s _ _ _ | .send s _ _ _ => some (.wsock s)
  | .getsockopt s _ _ _ _ | .setsockopt s _ _ _ _ => some (.wsock s)
  | .open .. | .wsaGetLastError | .getErrno | .setErrno _ => none

/-- The descriptors a trace acts on, in order. -/
def aims (tr : List (Event WinCall Answer)) : List Aim := tr.filterMap (fun ev => aim ev.1)

theorem aims_cons_some {e : WinCall} {r : Answer e} {t : Aim} (h : aim e = some t)
    (tr : List (Event WinCall Answer)) : aims (⟨e, r⟩ :: tr) = t :: aims tr := by
  unfold aims; rw [List.filterMap_cons_some (by exact h)]

theorem aims_cons_none {e : WinCall} {r : Answer e} (h : aim e = none)
    (tr : List (Event WinCall Answer)) : aims (⟨e, r⟩ :: tr) = aims tr := by
  unfold aims; rw [List.filterMap_cons_none (by exact h)]

/-! ## The calls, at the types of their answers -/

namespace Call

def «open» (path : String) (flags mode : CInt) : Shim CInt := .call (.open path flags mode) .ret
def close (fd : CInt) : Shim Int := .call (.close fd) .ret
def read (fd : CInt) (buf : Ptr) (count : Nat) : Shim Int := .call (.read fd buf count) .ret
def write (fd : CInt) (buf : Ptr) (count : Nat) : Shim Int := .call (.write fd buf count) .ret
def lseek (fd : CInt) (offset : Int) (whence : Whence) : Shim Int :=
  .call (.lseek fd offset whence) .ret
def fdopen (fd : CInt) (mode : String) : Shim (Option Ptr) := .call (.fdopen fd mode) .ret
def fstat (fd : CInt) (statbuf : Ptr) : Shim Int := .call (.fstat fd statbuf) .ret
def chsize (fd : CInt) (length : Int) : Shim Int := .call (.chsize fd length) .ret
def closesocket (s : CInt) : Shim Int := .call (.closesocket s) .ret
def recv (s : CInt) (buf : Ptr) (len : Nat) (flags : CInt) : Shim Int :=
  .call (.recv s buf len flags) .ret
def send (s : CInt) (buf : Ptr) (len : Nat) (flags : CInt) : Shim Int :=
  .call (.send s buf len flags) .ret
def getsockopt (s level optname : CInt) (optval optlen : Ptr) : Shim Int :=
  .call (.getsockopt s level optname optval optlen) .ret
def setsockopt (s level optname : CInt) (optval : Ptr) (optlen : Nat) : Shim Int :=
  .call (.setsockopt s level optname optval optlen) .ret
def wsaGetLastError : Shim WsaError := .call .wsaGetLastError .ret
def getErrno : Shim Errno := .call .getErrno .ret
def setErrno (e : Errno) : Shim Unit := .call (.setErrno e) .ret

end Call

end LibrePortable.Win
