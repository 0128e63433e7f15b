import LibrePortable.Win.Posix

/-!
# What each shim acts on

`target` is the decision every shim makes about a value: which table, and which
number in it. The lemmas here say, once per shim, that whatever the system
answers, the calls made are aimed there and nowhere else.
-/

namespace LibrePortable.Win

open Lib Prog Call

/-- The descriptor a value stands for, as the shims decide it. -/
def target (fd : CInt) : Aim := if isSocket fd then .wsock fd else .crt (getRealFd fd)

theorem target_tag {n : Nat} (h : n < 2 ^ 31) : target (tag n) = .crt (BitVec.ofNat 32 n) := by
  rw [target, isSocket_tag h, getRealFd_tag h]; rfl

theorem target_std {n : Nat} (h : n < 3) :
    target (BitVec.ofNat 32 n) = .crt (BitVec.ofNat 32 n) := by
  have hn : (BitVec.ofNat 32 n).toNat = n := by rw [BitVec.toNat_ofNat]; omega
  rw [target, isSocket_std (by omega), getRealFd_of_lt (by omega)]; rfl

theorem target_socket {n : Nat} (h3 : 3 ≤ n) (h : n < 2 ^ 31) :
    target (BitVec.ofNat 32 n) = .wsock (BitVec.ofNat 32 n) := by
  have hn : (BitVec.ofNat 32 n).toNat = n := by rw [BitVec.toNat_ofNat]; omega
  rw [target, (isSocket_iff _).mpr (by omega)]; rfl

/-- Reporting a Winsock error touches no descriptor and returns -1. -/
theorem wsaErrno_runs {tr : List (Event WinCall Answer)} {r : Int}
    (h : Runs (do let err ← wsaGetLastError; wsaErrno err) tr r) : aims tr = [] ∧ r = -1 := by
  obtain ⟨err, tr₁, rfl, h₁⟩ := runs_call.mp h
  obtain ⟨u, tr₂, rfl, h₂⟩ := runs_call.mp h₁
  obtain ⟨rfl, hr⟩ := runs_ret.mp h₂
  exact ⟨rfl, hr⟩

/-- A shim that asks Winsock for a socket and the runtime for anything else acts
on the one descriptor its argument stands for. -/
theorem dispatch_aims {fd : CInt} {ws crt : WinCall} {k : Answer ws → Shim Int}
    {c : Answer crt → Shim Int} (hws : aim ws = some (.wsock fd))
    (hcrt : aim crt = some (.crt (getRealFd fd)))
    (hk : ∀ r tr a, Runs (k r) tr a → aims tr = []) (hc : ∀ r tr a, Runs (c r) tr a → aims tr = [])
    {tr : List (Event WinCall Answer)} {a : Int}
    (h : Runs (if isSocket fd then Prog.call ws k else Prog.call crt c) tr a) :
    aims tr = [target fd] := by
  -- `target` asks what the shim asks, so each branch meets its own call
  unfold target
  split at h
  · rename_i hs
    obtain ⟨r, tr', rfl, h'⟩ := runs_call.mp h
    rw [if_pos hs, aims_cons_some hws, hk _ _ _ h']
  · rename_i hs
    obtain ⟨r, tr', rfl, h'⟩ := runs_call.mp h
    rw [if_neg hs, aims_cons_some hcrt, hc _ _ _ h']

theorem ret_aims {a b : Int} {tr : List (Event WinCall Answer)}
    (h : Runs (.ret a : Shim Int) tr b) : aims tr = [] := by
  rw [(runs_ret.mp h).1]; rfl

/-- The tail shared by the socket branches: report the error or return the count. -/
theorem orErrno_aims {p : Prop} [Decidable p] {rc a : Int} {tr : List (Event WinCall Answer)}
    (h : Runs (if p then (do let err ← wsaGetLastError; wsaErrno err) else return rc) tr a) :
    aims tr = [] := by
  split at h
  · exact (wsaErrno_runs h).1
  · exact ret_aims h

theorem posixClose_aims {fd : CInt} {tr : List (Event WinCall Answer)} {r : Int}
    (h : Runs (posixClose fd) tr r) : aims tr = [target fd] := by
  refine dispatch_aims rfl rfl ?_ (fun _ _ _ h => ret_aims h) h
  intro (rc : Int) _ _ h
  exact orErrno_aims h

theorem posixRead_aims {fd : CInt} {buf : Ptr} {count : Nat} {tr : List (Event WinCall Answer)}
    {r : Int} (h : Runs (posixRead fd buf count) tr r) : aims tr = [target fd] := by
  refine dispatch_aims rfl rfl ?_ (fun _ _ _ h => ret_aims h) h
  intro (rc : Int) _ _ h
  exact orErrno_aims h

theorem posixWrite_aims {fd : CInt} {buf : Ptr} {count : Nat} {tr : List (Event WinCall Answer)}
    {r : Int} (h : Runs (posixWrite fd buf count) tr r) : aims tr = [target fd] := by
  refine dispatch_aims rfl rfl ?_ (fun _ _ _ h => ret_aims h) h
  intro (rc : Int) _ _ h
  exact orErrno_aims h

/-- A shim for sockets only makes no call on any other value, and fails. -/
theorem socketOnly_runs {fd : CInt} {ws : WinCall} {k : Answer ws → Shim Int}
    (hws : aim ws = some (.wsock fd)) (hk : ∀ r tr a, Runs (k r) tr a → aims tr = [])
    {tr : List (Event WinCall Answer)} {a : Int}
    (h : Runs (if isSocket fd then Prog.call ws k else Prog.ret (-1)) tr a) :
    if isSocket fd then aims tr = [target fd] else aims tr = [] ∧ a = -1 := by
  unfold target
  split at h
  · rename_i hs
    obtain ⟨r, tr', rfl, h'⟩ := runs_call.mp h
    rw [if_pos hs, if_pos hs, aims_cons_some hws, hk _ _ _ h']
  · rename_i hs
    rw [if_neg hs]
    obtain ⟨rfl, rfl⟩ := runs_ret.mp h
    exact ⟨rfl, rfl⟩

theorem posixGetsockopt_runs {fd level optname : CInt} {optval optlen : Ptr}
    {tr : List (Event WinCall Answer)} {r : Int}
    (h : Runs (posixGetsockopt fd level optname optval optlen) tr r) :
    if isSocket fd then aims tr = [target fd] else aims tr = [] ∧ r = -1 := by
  refine socketOnly_runs rfl ?_ h
  intro (rc : Int) _ _ h
  exact orErrno_aims h

theorem posixSetsockopt_runs {fd level optname : CInt} {optval : Ptr} {optlen : Nat}
    {tr : List (Event WinCall Answer)} {r : Int}
    (h : Runs (posixSetsockopt fd level optname optval optlen) tr r) :
    if isSocket fd then aims tr = [target fd] else aims tr = [] ∧ r = -1 := by
  refine socketOnly_runs rfl ?_ h
  intro (rc : Int) _ _ h
  exact orErrno_aims h

theorem posixFdopen_aims {fd : CInt} {mode : String} {tr : List (Event WinCall Answer)}
    {r : Option Ptr} (h : Runs (posixFdopen fd mode) tr r) : aims tr = [.crt (getRealFd fd)] := by
  obtain ⟨_, _, rfl, h'⟩ := runs_call.mp h
  rw [(runs_ret.mp h').1]; rfl

theorem libresslFstat_aims {fd : CInt} {statbuf : Ptr} {tr : List (Event WinCall Answer)}
    {r : Int} (h : Runs (libresslFstat fd statbuf) tr r) : aims tr = [.crt (getRealFd fd)] := by
  obtain ⟨_, _, rfl, h'⟩ := runs_call.mp h
  rw [(runs_ret.mp h').1]; rfl

theorem ftruncate_aims {fd : CInt} {length : Int} {tr : List (Event WinCall Answer)}
    {r : Int} (h : Runs (ftruncate fd length) tr r) : aims tr = [.crt (getRealFd fd)] := by
  obtain ⟨_, _, rfl, h'⟩ := runs_call.mp h
  rw [(runs_ret.mp h').1]; rfl

/-- **What `posix_open` does**: one call, whose answer it hands on marked, or -1. -/
theorem posixOpen_runs {path : String} {flags mode : CInt} {tr : List (Event WinCall Answer)}
    {v : CInt} (h : Runs (posixOpen path flags mode) tr v) :
    ∃ (f m fh : CInt), tr = [⟨.open path f m, fh⟩] ∧
      v = if fh = -1#32 then fh else fh + highBit := by
  obtain ⟨(fh : CInt), tr', rfl, h'⟩ := runs_call.mp h
  change Runs (if fh = -1#32 then Prog.ret fh else Prog.ret (fh + highBit)) tr' v at h'
  -- only a descriptor is marked; the error value is handed on as it is
  by_cases hf : fh = -1#32
  · rw [if_pos hf] at h'
    obtain ⟨rfl, hv⟩ := runs_ret.mp h'
    exact ⟨_, _, fh, rfl, hv.trans (if_pos hf).symm⟩
  · rw [if_neg hf] at h'
    obtain ⟨rfl, hv⟩ := runs_ret.mp h'
    exact ⟨_, _, fh, rfl, hv.trans (if_neg hf).symm⟩

end LibrePortable.Win
