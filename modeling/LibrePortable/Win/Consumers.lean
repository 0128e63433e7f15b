import LibrePortable.Win.PollSetup
import LibrePortable.Win.Tables

/-!
# Who understands a descriptor from `posix_open`

The mark that `posix_open` sets has to come off again in every function that takes a
descriptor, and these live in three libraries. The shims next to `posix_open` take it
off. `pread` and `pwrite` hand it on to the runtime, and `poll` takes it for the sign
of a disabled entry.
-/

namespace LibrePortable.Win

open Lib Prog Call

/-! ## Positioned transfers -/

/-- The common body of `pread` and `pwrite`: move, transfer, move back, keeping the
errno of the transfer. -/
def positioned (d : CInt) (transfer : Shim Int) (offset : Int) : Shim Int := do
  let cpos ← lseek d 0 .SEEK_CUR
  if cpos = -1 then return -1
  else
    let rc ← lseek d offset .SEEK_SET
    if rc = -1 then return -1
    else
      let bytes ← transfer
      let saveErrno ← getErrno
      let rc ← lseek d cpos .SEEK_SET
      if rc = -1 then return -1
      else
        setErrno saveErrno
        return bytes

/-- `pread`. -/
def pread (d : CInt) (buf : Ptr) (nbytes : Nat) (offset : Int) : Shim Int :=
  positioned d (read d buf nbytes) offset

/-- `pwrite`. -/
def pwrite (d : CInt) (buf : Ptr) (nbytes : Nat) (offset : Int) : Shim Int :=
  positioned d (write d buf nbytes) offset

/-- Every descriptor a trace acts on is the runtime's `fd`, and there is one. -/
def AimedAt (fd : CInt) (tr : List (Event WinCall Answer)) : Prop :=
  aims tr ≠ [] ∧ ∀ t ∈ aims tr, t = .crt fd

theorem aimedAt_of_eq {fd : CInt} {tr : List (Event WinCall Answer)} (h : aims tr = [.crt fd]) :
    AimedAt fd tr := by
  unfold AimedAt
  rw [h]
  exact ⟨List.cons_ne_nil _ _, fun t ht => List.mem_singleton.mp ht⟩

theorem AimedAt.inj {fd fd' : CInt} {tr : List (Event WinCall Answer)} (h : AimedAt fd tr)
    (h' : AimedAt fd' tr) : fd = fd' := by
  obtain ⟨t, ht⟩ := List.exists_mem_of_ne_nil _ h.1
  exact Aim.crt.inj ((h.2 t ht).symm.trans (h'.2 t ht))

/-- A call aimed at `fd`, and then calls aimed there or nowhere. -/
theorem aimedAt_cons {fd : CInt} {e : WinCall} {r : Answer e} {tr : List (Event WinCall Answer)}
    (he : aim e = some (.crt fd)) (htr : ∀ t ∈ aims tr, t = .crt fd) :
    AimedAt fd (⟨e, r⟩ :: tr) := by
  unfold AimedAt
  rw [aims_cons_some he]
  refine ⟨List.cons_ne_nil _ _, fun t ht => ?_⟩
  rcases List.mem_cons.mp ht with rfl | ht
  · rfl
  · exact htr t ht

theorem none_aimed {fd : CInt} {tr : List (Event WinCall Answer)} (h : aims tr = []) :
    ∀ t ∈ aims tr, t = Aim.crt fd := by
  rw [h]
  exact fun t ht => absurd ht List.not_mem_nil

theorem runs_lseek {α : Type} {d : CInt} {offset : Int} {whence : Whence} {f : Int → Shim α}
    {tr : List (Event WinCall Answer)} {a : α} (h : Runs (lseek d offset whence >>= f) tr a) :
    ∃ (rc : Int) (tr' : List (Event WinCall Answer)),
      tr = ⟨.lseek d offset whence, rc⟩ :: tr' ∧ Runs (f rc) tr' a :=
  runs_call.mp h

theorem runs_getErrno {α : Type} {f : Errno → Shim α} {tr : List (Event WinCall Answer)} {a : α}
    (h : Runs (getErrno >>= f) tr a) :
    ∃ (e : Errno) (tr' : List (Event WinCall Answer)),
      tr = ⟨.getErrno, e⟩ :: tr' ∧ Runs (f e) tr' a :=
  runs_call.mp h

/-- **A positioned transfer acts on the number it is given**, as it is given. -/
theorem positioned_aims {d : CInt} {e : WinCall} {f : Answer e → Shim Int} {offset : Int}
    (he : aim e = some (.crt d)) (hf : ∀ r, ∃ a, f r = .ret a)
    {tr : List (Event WinCall Answer)} {r : Int}
    (h : Runs (positioned d (.call e f) offset) tr r) : AimedAt d tr := by
  -- where the file stands now
  obtain ⟨cpos, tr₁, rfl, h₁⟩ := runs_lseek h
  refine aimedAt_cons rfl ?_
  split at h₁
  · exact none_aimed (ret_aims h₁)
  -- to the position asked for
  obtain ⟨rc, tr₂, rfl, h₂⟩ := runs_lseek h₁
  refine (aimedAt_cons rfl ?_).2
  split at h₂
  · exact none_aimed (ret_aims h₂)
  -- the transfer itself
  obtain ⟨x, tr₃, rfl, h₃⟩ := runs_call.mp h₂
  refine (aimedAt_cons he ?_).2
  obtain ⟨bytes, hb⟩ := hf x
  rw [hb] at h₃
  obtain ⟨saved, tr₄, rfl, h₄⟩ := runs_getErrno h₃
  show ∀ t ∈ aims tr₄, t = .crt d
  -- and back; saving the errno touched no descriptor
  obtain ⟨rc', tr₅, rfl, h₅⟩ := runs_lseek h₄
  refine (aimedAt_cons rfl ?_).2
  split at h₅
  · exact none_aimed (ret_aims h₅)
  obtain ⟨u, tr₆, rfl, h₆⟩ := runs_call.mp h₅
  show ∀ t ∈ aims tr₆, t = .crt d
  exact none_aimed (ret_aims h₆)

theorem pread_aims {d : CInt} {buf : Ptr} {nbytes : Nat} {offset : Int}
    {tr : List (Event WinCall Answer)} {r : Int} (h : Runs (pread d buf nbytes offset) tr r) :
    AimedAt d tr :=
  positioned_aims rfl (fun _ => ⟨_, rfl⟩) h

theorem pwrite_aims {d : CInt} {buf : Ptr} {nbytes : Nat} {offset : Int}
    {tr : List (Event WinCall Answer)} {r : Int} (h : Runs (pwrite d buf nbytes offset) tr r) :
    AimedAt d tr :=
  positioned_aims rfl (fun _ => ⟨_, rfl⟩) h

/-! ## The consumers -/

/-- The functions that take a descriptor, each with its other arguments; `poll` takes it
in an entry that asks for some events. -/
inductive Consumer where
  | posixRead (buf : Ptr) (count : Nat)
  | posixWrite (buf : Ptr) (count : Nat)
  | posixClose
  | posixFdopen (mode : String)
  | libresslFstat (statbuf : Ptr)
  | ftruncate (length : Int)
  | pread (buf : Ptr) (nbytes : Nat) (offset : Int)
  | pwrite (buf : Ptr) (nbytes : Nat) (offset : Int)
  | poll (events revents : Poll.Bits)

/-- However it is answered, a shim acts on runtime descriptor `n` and on nothing else. -/
def ShimActsOn {α : Type} (p : Shim α) (n : Nat) : Prop :=
  ∀ tr r, Runs p tr r → AimedAt (BitVec.ofNat 32 n) tr

/-- Wherever the entry stands in the array, the set-up pass records the handle of
runtime descriptor `n` for it, unless there is no room. -/
def PollActsOn (p : Poll.Pollfd) (n : Nat) : Prop :=
  ∀ (H : Poll.Header) (env : Poll.Env) (i : Nat) (ps : List Poll.Pollfd) (su : Poll.Setup),
    Poll.setUp H env i (p :: ps) su =
      if su.handles.length ≥ Poll.fdSetsize then none
      else Poll.setUp H env (i + 1) ps (su.addHandle (env.osfHandle (BitVec.ofNat 32 n)))

/-- What it means for a consumer to act on runtime descriptor `n` when given `v`. -/
def ActsOn (v : CInt) (n : Nat) : Consumer → Prop
  | .posixRead buf count => ShimActsOn (posixRead v buf count) n
  | .posixWrite buf count => ShimActsOn (posixWrite v buf count) n
  | .posixClose => ShimActsOn (posixClose v) n
  | .posixFdopen mode => ShimActsOn (posixFdopen v mode) n
  | .libresslFstat statbuf => ShimActsOn (libresslFstat v statbuf) n
  | .ftruncate length => ShimActsOn (ftruncate v length) n
  | .pread buf nbytes offset => ShimActsOn (pread v buf nbytes offset) n
  | .pwrite buf nbytes offset => ShimActsOn (pwrite v buf nbytes offset) n
  | .poll events revents => PollActsOn ⟨v, events, revents⟩ n

/-- The consumers that take the mark off. -/
def Consumer.unmarks : Consumer → Bool
  | .posixRead .. | .posixWrite .. | .posixClose | .posixFdopen _ | .libresslFstat _
  | .ftruncate _ => true
  | .pread .. | .pwrite .. | .poll .. => false

/-- An answer to every call. -/
def someAnswer : (e : WinCall) → Answer e
  | .open .. => (0#32 : CInt)
  | .fdopen .. => (none : Option Ptr)
  | .wsaGetLastError => WsaError.WSAEINVAL
  | .getErrno => Errno.EINVAL
  | .setErrno _ => ()
  | .close _ | .read .. | .write .. | .lseek .. | .fstat .. | .chsize .. | .closesocket _
  | .recv .. | .send .. | .getsockopt .. | .setsockopt .. => (0 : Int)

/-- A function that acts on one number does not act on another. -/
theorem not_shimActsOn {α : Type} {p : Shim α} {v : CInt} {n : Nat}
    (hp : ∀ tr r, Runs p tr r → AimedAt v tr) (hne : v ≠ BitVec.ofNat 32 n) : ¬ ShimActsOn p n := by
  intro h
  obtain ⟨tr, r, hr⟩ := exists_runs someAnswer p
  exact hne ((hp tr r hr).inj (h tr r hr))

/-- The mark makes a value another one. -/
theorem tag_ne_ofNat {n : Nat} (h : n < 2 ^ 31) : tag n ≠ BitVec.ofNat 32 n := by
  intro he
  have hb := congrArg BitVec.toNat he
  rw [tag_toNat h, BitVec.toNat_ofNat] at hb
  omega

/-- **`poll` passes over a marked value**, wherever it stands. -/
theorem setUp_tag {H : Poll.Header} {env : Poll.Env} {i n : Nat} {p : Poll.Pollfd}
    {ps : List Poll.Pollfd} {su : Poll.Setup} (h : n < 2 ^ 31) (hp : p.fd = tag n) :
    Poll.setUp H env i (p :: ps) su = Poll.setUp H env (i + 1) ps su := by
  have hneg : p.negative = true := by
    -- the mark is the sign bit, and a negative entry is disabled
    rw [Poll.Pollfd.negative, hp, BitVec.slt_iff_toInt_lt, tag_toInt h]
    have h0 : (0#32).toInt = 0 := rfl
    omega
  rw [Poll.setUp, if_pos hneg]

theorem not_pollActsOn {n : Nat} {p : Poll.Pollfd} (h : n < 2 ^ 31) (hp : p.fd = tag n) :
    ¬ PollActsOn p n := by
  intro hact
  -- a system that would record a handle for the descriptor
  let env : Poll.Env :=
    { enumSetup := fun _ => 0, enumResult := fun _ => 0, osfHandle := fun _ => 0
      wait := fun _ => 0, select := fun _ => ⟨0, .zero, .zero, .zero, .WSAEINVAL⟩
      recv := fun _ _ => ⟨0, .WSAEINVAL⟩, stdInput := 0, peekConsole := fun _ => none }
  have hrec := hact .compat env 0 [] .empty
  rw [setUp_tag h hp, if_neg (by decide)] at hrec
  have hlen := congrArg (fun su => su.handles.length) (Option.some.inj hrec)
  rw [Poll.Setup.length_addHandle] at hlen
  exact absurd hlen (Nat.succ_ne_self _).symm

/-- What a consumer makes of a marked value. -/
theorem actsOn_tag_iff {n : Nat} (h : n < 2 ^ 31) (c : Consumer) :
    ActsOn (tag n) n c ↔ c.unmarks = true := by
  have hreal := getRealFd_tag h
  have htgt := target_tag h
  have hne := tag_ne_ofNat h
  cases c with
  | posixRead buf count =>
      exact ⟨fun _ => rfl, fun _ tr r hr => aimedAt_of_eq (htgt ▸ posixRead_aims hr)⟩
  | posixWrite buf count =>
      exact ⟨fun _ => rfl, fun _ tr r hr => aimedAt_of_eq (htgt ▸ posixWrite_aims hr)⟩
  | posixClose => exact ⟨fun _ => rfl, fun _ tr r hr => aimedAt_of_eq (htgt ▸ posixClose_aims hr)⟩
  | posixFdopen mode =>
      exact ⟨fun _ => rfl, fun _ tr r hr => aimedAt_of_eq (hreal ▸ posixFdopen_aims hr)⟩
  | libresslFstat statbuf =>
      exact ⟨fun _ => rfl, fun _ tr r hr => aimedAt_of_eq (hreal ▸ libresslFstat_aims hr)⟩
  | ftruncate length =>
      exact ⟨fun _ => rfl, fun _ tr r hr => aimedAt_of_eq (hreal ▸ ftruncate_aims hr)⟩
  | pread buf nbytes offset =>
      exact ⟨fun hc => absurd hc (not_shimActsOn (fun _ _ => pread_aims) hne), nofun⟩
  | pwrite buf nbytes offset =>
      exact ⟨fun hc => absurd hc (not_shimActsOn (fun _ _ => pwrite_aims) hne), nofun⟩
  | poll events revents => exact ⟨fun hc => absurd hc (not_pollActsOn h rfl), nofun⟩

/--
**No descriptor from `posix_open` means the same everywhere.**

Whatever value a successful open returns, the six shims act on the runtime descriptor
it was made from, and `pread`, `pwrite` and `poll` never do.
-/
theorem consumers_disagree {path : String} {flags mode v : CInt} {s s' : Os}
    {tr : List (Event WinCall Answer)} (h : Exec Os.world (posixOpen path flags mode) s tr v s')
    (hv : v ≠ -1#32) :
    (∀ c, ActsOn v (openedFd tr) c ↔ c.unmarks = true) ∧ ¬ ∀ c, ActsOn v (openedFd tr) c := by
  rcases posixOpen_exec h with ⟨rfl, -⟩ | ⟨n, hn, -, hfd, rfl, -⟩
  · exact absurd rfl hv
  have hiff := actsOn_tag_iff (n := n) (by omega)
  rw [hfd]
  exact ⟨hiff, fun hall => absurd ((hiff (.pread 0 0 0)).mp (hall _)) (by decide)⟩

/-- An open of a file that gets runtime descriptor 3. -/
theorem exec_open_three : Exec Os.world (posixOpen "f" 0#32 0#32) startWorld.os
    [⟨.open "f" oBinary 0#32, BitVec.ofNat 32 3⟩] (tag 3) (startWorld.os.opened 3) :=
  .call (Or.inr ⟨3, by decide, rfl, rfl, rfl⟩) (.ret _ _)

theorem consumers_disagree_three :
    (∀ c, ActsOn (tag 3) 3 c ↔ c.unmarks = true) ∧ ¬ ∀ c, ActsOn (tag 3) 3 c :=
  consumers_disagree exec_open_three (by decide)

/-- **`pread` on that descriptor looks for number `2^31 + 3`**, and `poll` passes over it. -/
theorem pread_misses_three : Exec Os.world (posixOpen "f" 0#32 0#32) startWorld.os
      [⟨.open "f" oBinary 0#32, BitVec.ofNat 32 3⟩] (tag 3) (startWorld.os.opened 3)
    ∧ ¬ ActsOn (tag 3) 3 (.pread 0 1 0) ∧ ¬ ActsOn (tag 3) 3 (.poll 0x001 0) :=
  ⟨exec_open_three, not_shimActsOn (fun _ _ => pread_aims) (tag_ne_ofNat (by decide)),
    not_pollActsOn (by decide) rfl⟩

end LibrePortable.Win
