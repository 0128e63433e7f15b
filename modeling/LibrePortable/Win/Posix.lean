import Mathlib.Data.Nat.Bitwise
import LibrePortable.Win.Calls

/-!
# The descriptor shims of `posix_win.c`

Two tables of small numbers, the runtime's and Winsock's, are presented to
callers as one. A runtime descriptor leaves `posix_open` with its top bit set,
a socket keeps its number, and every other function looks at the top bit to
decide which table a value belongs to.
-/

namespace LibrePortable.Win

open Lib Call

/-- The bit that marks a runtime descriptor. -/
def highBit : CInt := 0x80000000#32

/-- `is_socket`: the standard descriptors and the marked values are not sockets. -/
def isSocket (fd : CInt) : Bool :=
  if fd.slt 3#32 then false else fd &&& highBit == 0#32

/-- `get_real_fd`: the runtime descriptor behind a value. -/
def getRealFd (fd : CInt) : CInt := fd &&& 0x7fffffff#32

/-- `INT_MAX`, the longest transfer handed on in one call. -/
def intMax : Nat := 2147483647

/-- `SOCKET_ERROR`. -/
def socketError : Int := -1

/-! ## Flags of `open` -/

def oCreat : CInt := 0x0100#32
def oBinary : CInt := 0x8000#32
def oNoinherit : CInt := 0x0080#32
def oNonblock : CInt := 0x100000#32
def oCloexec : CInt := 0x200000#32

/-- The errno that `wsa_errno` chooses for a Winsock error. -/
def wsaErrnoOf : WsaError → Errno
  | .WSAENOBUFS => .ENOMEM
  | .WSAEACCES => .EACCES
  | .WSANOTINITIALISED => .EPERM
  | .WSAEHOSTUNREACH | .WSAENETDOWN => Errno.EIO
  | .WSAEFAULT => .EFAULT
  | .WSAEINTR => .EINTR
  | .WSAEINVAL => .EINVAL
  | .WSAEINPROGRESS => .EINPROGRESS
  | .WSAEWOULDBLOCK => .EAGAIN
  | .WSAEOPNOTSUPP => .ENOTSUP
  | .WSAEMSGSIZE => .EFBIG
  | .WSAENOTSOCK => .ENOTSOCK
  | .WSAENOPROTOOPT => .ENOPROTOOPT
  | .WSAECONNREFUSED => .ECONNREFUSED
  | .WSAEAFNOSUPPORT => .EAFNOSUPPORT
  | .WSAEBADF => .EBADF
  | .WSAENETRESET | .WSAENOTCONN | .WSAECONNABORTED | .WSAECONNRESET | .WSAESHUTDOWN
  | .WSAETIMEDOUT => .EPIPE
  | .other _ => Errno.EIO

/-- `wsa_errno`: set errno, return -1. -/
def wsaErrno (err : WsaError) : Shim Int := do
  setErrno (wsaErrnoOf err)
  return -1

/-- `posix_fdopen`. -/
def posixFdopen (fd : CInt) (mode : String) : Shim (Option Ptr) :=
  fdopen (getRealFd fd) mode

/-- `libressl_fstat`. -/
def libresslFstat (fd : CInt) (statbuf : Ptr) : Shim Int :=
  fstat (getRealFd fd) statbuf

/-- `ftruncate`. -/
def ftruncate (fd : CInt) (length : Int) : Shim Int :=
  chsize (getRealFd fd) length

/-- `posix_open`. The variable argument is read only when `O_CREAT` is given. -/
def posixOpen (path : String) (flags modeArg : CInt) : Shim CInt := do
  let mode := if flags &&& oCreat ≠ 0#32 then modeArg else 0#32
  let flags := flags ||| oBinary
  -- the last two bits are this layer's own, so the runtime must not see them
  let flags := if flags &&& oCloexec ≠ 0#32 then (flags &&& ~~~oCloexec) ||| oNoinherit else flags
  let flags := flags &&& ~~~oNonblock
  let fh ← «open» path flags mode
  if fh = -1#32 then return fh
  return fh + highBit

/-- `posix_close`. -/
def posixClose (fd : CInt) : Shim Int := do
  if isSocket fd then
    let rc ← closesocket fd
    if rc = socketError then
      let err ← wsaGetLastError
      wsaErrno err
    else return rc
  else close (getRealFd fd)

/-- `posix_read`. -/
def posixRead (fd : CInt) (buf : Ptr) (count : Nat) : Shim Int := do
  let count := if count > intMax then intMax else count
  if isSocket fd then
    let rc ← recv fd buf count 0#32
    if rc = socketError then
      let err ← wsaGetLastError
      wsaErrno err
    else return rc
  else read (getRealFd fd) buf count

/-- `posix_write`. -/
def posixWrite (fd : CInt) (buf : Ptr) (count : Nat) : Shim Int := do
  let count := if count > intMax then intMax else count
  if isSocket fd then
    let rc ← send fd buf count 0#32
    if rc = socketError then
      let err ← wsaGetLastError
      wsaErrno err
    else return rc
  else write (getRealFd fd) buf count

/-- `posix_getsockopt`. -/
def posixGetsockopt (sockfd level optname : CInt) (optval optlen : Ptr) : Shim Int := do
  if isSocket sockfd then
    let rc ← getsockopt sockfd level optname optval optlen
    if rc ≠ 0 then
      let err ← wsaGetLastError
      wsaErrno err
    else return rc
  else return -1

/-- `posix_setsockopt`. -/
def posixSetsockopt (sockfd level optname : CInt) (optval : Ptr) (optlen : Nat) : Shim Int := do
  if isSocket sockfd then
    let rc ← setsockopt sockfd level optname optval optlen
    if rc ≠ 0 then
      let err ← wsaGetLastError
      wsaErrno err
    else return rc
  else return -1

/-! ## The value `posix_open` makes of a runtime descriptor -/

/-- The value of runtime descriptor `n`, marked. -/
def tag (n : Nat) : CInt := BitVec.ofNat 32 n + highBit

theorem highBit_toNat : highBit.toNat = 2 ^ 31 := by decide

theorem tag_toNat {n : Nat} (h : n < 2 ^ 31) : (tag n).toNat = n + 2 ^ 31 := by
  rw [tag, BitVec.toNat_add, BitVec.toNat_ofNat, highBit_toNat]
  omega

/-- A marked value is negative. -/
theorem tag_toInt {n : Nat} (h : n < 2 ^ 31) : (tag n).toInt = (n : Int) - 2 ^ 31 := by
  rw [BitVec.toInt_eq_toNat_cond, tag_toNat h]
  omega

theorem getRealFd_toNat (fd : CInt) : (getRealFd fd).toNat = fd.toNat % 2 ^ 31 := by
  have h : (0x7fffffff#32).toNat = 2 ^ 31 - 1 := by decide
  rw [getRealFd, BitVec.toNat_and, h]
  exact Nat.and_two_pow_sub_one_eq_mod fd.toNat 31

/-- The mark comes off again. -/
theorem getRealFd_tag {n : Nat} (h : n < 2 ^ 31) : getRealFd (tag n) = BitVec.ofNat 32 n := by
  apply BitVec.eq_of_toNat_eq
  rw [getRealFd_toNat, tag_toNat h, BitVec.toNat_ofNat]
  omega

/-- An unmarked value is its own descriptor. -/
theorem getRealFd_of_lt {fd : CInt} (h : fd.toNat < 2 ^ 31) : getRealFd fd = fd := by
  apply BitVec.eq_of_toNat_eq
  rw [getRealFd_toNat, Nat.mod_eq_of_lt h]

theorem and_highBit (fd : CInt) : fd &&& highBit = 0#32 ↔ fd.toNat < 2 ^ 31 := by
  have hz : (0#32).toNat = 0 := rfl
  have hlt := fd.isLt
  have htest : fd.toNat.testBit 31 = true ↔ 2 ^ 31 ≤ fd.toNat := by
    rw [Nat.testBit_eq_decide_div_mod_eq, decide_eq_true_iff]
    omega
  rw [← BitVec.toNat_inj, BitVec.toNat_and, highBit_toNat, hz, Nat.and_comm, Nat.two_pow_and]
  -- the mask keeps bit 31, and nothing stands above it
  cases hc : fd.toNat.testBit 31 with
  | false =>
      have : ¬ 2 ^ 31 ≤ fd.toNat := fun h => by rw [htest.mpr h] at hc; exact Bool.noConfusion hc
      simp only [Bool.toNat_false, Nat.mul_zero, true_iff]
      omega
  | true =>
      have := htest.mp hc
      simp only [Bool.toNat_true]
      omega

/-- **What counts as a socket**: the values from 3 up to the mark. -/
theorem isSocket_iff (fd : CInt) : isSocket fd = true ↔ 3 ≤ fd.toNat ∧ fd.toNat < 2 ^ 31 := by
  have hlt := fd.isLt
  -- the comparison with 3 is signed, so a marked value counts as small
  have hslt : fd.slt 3#32 = true ↔ fd.toNat < 3 ∨ 2 ^ 31 ≤ fd.toNat := by
    rw [BitVec.slt_iff_toInt_lt, BitVec.toInt_eq_toNat_cond]
    have h3 : (3#32).toInt = 3 := rfl
    rw [h3]
    omega
  unfold isSocket
  split
  · rename_i h; rw [hslt] at h; simp; omega
  · rename_i h; rw [hslt] at h; rw [beq_iff_eq, and_highBit]; omega

theorem isSocket_tag {n : Nat} (h : n < 2 ^ 31) : isSocket (tag n) = false := by
  rw [Bool.eq_false_iff]
  intro hs
  have := ((isSocket_iff _).mp hs).2
  rw [tag_toNat h] at this
  omega

theorem isSocket_std {fd : CInt} (h : fd.toNat < 3) : isSocket fd = false := by
  rw [Bool.eq_false_iff]
  intro hs
  have := ((isSocket_iff _).mp hs).1
  omega

end LibrePortable.Win
