import LibrePortable.Lib.Transition
import LibrePortable.Win.Shims

/-!
# One space of values over two tables

The runtime and Winsock each keep a table of their own and number its entries
without regard to the other. This file runs the shims over both: `Os` is the
pair of tables, `world` every sequence of opens, socket creations and shim calls
on live values, and the record a run keeps of each live value is the object it
was made from. The invariant is that the shims, which see the number only,
always arrive at that object.
-/

namespace LibrePortable.Win

open Lib Prog

/-- The two tables: the object behind every descriptor number that is in use. -/
structure Os where
  /-- The C runtime's table. -/
  crt : Nat → Option Nat
  /-- Winsock's table. -/
  wsock : Nat → Option Nat
  /-- Objects made so far; the next one gets this name. -/
  next : Nat

namespace Os

/-- The runtime opens a new object at `n`. -/
def opened (s : Os) (n : Nat) : Os :=
  { s with crt := fun m => if m = n then some s.next else s.crt m, next := s.next + 1 }

/-- Winsock makes a new socket with handle `h`. -/
def socketed (s : Os) (h : Nat) : Os :=
  { s with wsock := fun m => if m = h then some s.next else s.wsock m, next := s.next + 1 }

/-- The runtime gives up number `n`. -/
def closed (s : Os) (n : Nat) : Os :=
  { s with crt := fun m => if m = n then none else s.crt m }

/-- Winsock gives up handle `h`. -/
def sockClosed (s : Os) (h : Nat) : Os :=
  { s with wsock := fun m => if m = h then none else s.wsock m }

/-- How the system answers. `open` fails or hands out any free number below
`2^31 - 1`, so a number is reused once it is free; the closing calls may or may
not free their entry, whatever they return; the other calls change no table. -/
def Answers (s : Os) : (e : WinCall) → Answer e → Os → Prop
  | .open .., fh, s' =>
      (fh = -1#32 ∧ s' = s) ∨
        ∃ n, n < 2 ^ 31 - 1 ∧ s.crt n = none ∧ fh = BitVec.ofNat 32 n ∧ s' = s.opened n
  | .close fd, _, s' => s' = s ∨ s' = s.closed fd.toNat
  | .closesocket h, _, s' => s' = s ∨ s' = s.sockClosed h.toNat
  | _, _, s' => s' = s

/-- The system, with nobody else using the tables during one shim call. -/
def world : Surroundings WinCall Answer Os where
  Answer := Answers
  Drift _ _ := False

end Os

/-- What a live value was made from: an entry of a table, and the object in it. -/
inductive Target where
  | file (n obj : Nat)
  | sock (h obj : Nat)
  deriving DecidableEq, Repr

namespace Target

/-- The entry a target occupies. -/
def aim : Target → Aim
  | .file n _ => .crt (BitVec.ofNat 32 n)
  | .sock h _ => .wsock (BitVec.ofNat 32 h)

/-- Is it a runtime descriptor? -/
def isFile : Target → Bool
  | .file .. => true
  | .sock .. => false

end Target

/-- Is this very object still open at its number? -/
def Os.holds (s : Os) : Target → Bool
  | .file n o => s.crt n == some o
  | .sock h o => s.wsock h == some o

/-- The shims that take a descriptor. -/
inductive Op where
  | read (buf : Ptr) (count : Nat)
  | write (buf : Ptr) (count : Nat)
  | close
  | getsockopt (level optname : CInt) (optval optlen : Ptr)
  | setsockopt (level optname : CInt) (optval : Ptr) (optlen : Nat)
  | fdopen (mode : String)
  | fstat (statbuf : Ptr)
  | ftruncate (length : Int)

/-- What a shim returns. -/
inductive Ret where
  | int (i : Int)
  | stream (p : Option Ptr)
  deriving DecidableEq, Repr

namespace Op

/-- The shim behind an operation. -/
def shim : Op → CInt → Shim Ret
  | .read buf count, v => do return .int (← posixRead v buf count)
  | .write buf count, v => do return .int (← posixWrite v buf count)
  | .close, v => do return .int (← posixClose v)
  | .getsockopt level optname optval optlen, v => do
      return .int (← posixGetsockopt v level optname optval optlen)
  | .setsockopt level optname optval optlen, v => do
      return .int (← posixSetsockopt v level optname optval optlen)
  | .fdopen mode, v => do return .stream (← posixFdopen v mode)
  | .fstat statbuf, v => do return .int (← libresslFstat v statbuf)
  | .ftruncate length, v => do return .int (← Win.ftruncate v length)

/-- Called on runtime descriptors only. -/
def fileOnly : Op → Bool
  | .fdopen _ | .fstat _ | .ftruncate _ => true
  | _ => false

/-- Meant for sockets only. -/
def socketOnly : Op → Bool
  | .getsockopt .. | .setsockopt .. => true
  | _ => false

end Op

/-- A process: the tables, and what every live value was made from. -/
structure World where
  os : Os
  live : List (CInt × Target)

/-- The runtime descriptor that the `open` in a trace handed out. -/
def openedFd : List (Event WinCall Answer) → Nat
  | ⟨.open _ _ _, fh⟩ :: _ => BitVec.toNat (show CInt from fh)
  | _ => 0

/-- What can be seen of a step. -/
inductive Label where
  | openPath (tr : List (Event WinCall Answer)) (v : CInt)
  | socket (v : CInt)
  | op (o : Op) (v : CInt) (t : Target) (tr : List (Event WinCall Answer)) (r : Ret)

/-- The values live after an open: the new one, made from the runtime descriptor
just handed out, unless the open failed. -/
def World.liveAfterOpen (w : World) (os' : Os) (tr : List (Event WinCall Answer)) (v : CInt) :
    List (CInt × Target) :=
  if v = -1#32 then w.live
  else (v, .file (openedFd tr) ((os'.crt (openedFd tr)).getD 0)) :: w.live

theorem World.liveAfterOpen_error (w : World) (os' : Os) (tr : List (Event WinCall Answer)) :
    w.liveAfterOpen os' tr (-1#32) = w.live := if_pos rfl

theorem World.liveAfterOpen_ne {w : World} {os' : Os} {tr : List (Event WinCall Answer)} {v : CInt}
    (h : v ≠ -1#32) : w.liveAfterOpen os' tr v
      = (v, .file (openedFd tr) ((os'.crt (openedFd tr)).getD 0)) :: w.live := if_neg h

/-- One step of a process. A value stays live as long as its object is open. -/
inductive ShimStep : World → Label → World → Prop where
  | openPath {w : World} {path : String} {flags mode v : CInt} {tr : List (Event WinCall Answer)}
      {os' : Os} : Exec Os.world (posixOpen path flags mode) w.os tr v os' →
      ShimStep w (.openPath tr v) ⟨os', w.liveAfterOpen os' tr v⟩
  | socket {w : World} {h : Nat} : 3 ≤ h → h < 2 ^ 31 → w.os.wsock h = none →
      ShimStep w (.socket (BitVec.ofNat 32 h))
        ⟨w.os.socketed h, (BitVec.ofNat 32 h, .sock h w.os.next) :: w.live⟩
  | op {w : World} {o : Op} {v : CInt} {t : Target} {tr : List (Event WinCall Answer)} {r : Ret}
      {os' : Os} : (v, t) ∈ w.live → (o.fileOnly = true → t.isFile = true) →
      Exec Os.world (o.shim v) w.os tr r os' →
      ShimStep w (.op o v t tr r) ⟨os', w.live.filter (fun p => os'.holds p.2)⟩

/-- The three standard descriptors, each open on the object named like it. -/
def stdLive : List (CInt × Target) :=
  [(0#32, .file 0 0), (1#32, .file 1 1), (2#32, .file 2 2)]

/-- A process begins with the standard descriptors live; anything else may be
open in either table. -/
def shims : Lts World Label where
  Init w := w.live = stdLive ∧ ∀ n < 3, w.os.crt n = some n
  Step := ShimStep

/-! ## Which object a value means -/

/-- How a value is made from a target: marked, or one of the standard three, or
a socket's own number. -/
def Denotes (v : CInt) : Target → Prop
  | .file n o => (n < 2 ^ 31 - 1 ∧ v = tag n) ∨ (n < 3 ∧ o = n ∧ v = BitVec.ofNat 32 n)
  | .sock h _ => 3 ≤ h ∧ h < 2 ^ 31 ∧ v = BitVec.ofNat 32 h

/-- The shims find the entry a value was made from. -/
theorem target_of_denotes {v : CInt} {t : Target} (h : Denotes v t) : target v = t.aim := by
  cases t with
  | file n o =>
      rcases h with ⟨hn, rfl⟩ | ⟨hn, -, rfl⟩
      · exact target_tag (by omega)
      · exact target_std hn
  | sock n o =>
      obtain ⟨h3, hn, rfl⟩ := h
      exact target_socket h3 hn

theorem isSocket_of_denotes {v : CInt} {t : Target} (h : Denotes v t) :
    isSocket v = !t.isFile := by
  cases t with
  | file n o =>
      rcases h with ⟨hn, rfl⟩ | ⟨hn, -, rfl⟩
      · exact isSocket_tag (by omega)
      · exact isSocket_std (by rw [BitVec.toNat_ofNat]; omega)
  | sock n o =>
      obtain ⟨h3, hn, rfl⟩ := h
      exact (isSocket_iff _).mpr (by rw [BitVec.toNat_ofNat]; omega)

/-- On a runtime descriptor, marked or standard, `get_real_fd` finds the number. -/
theorem getRealFd_of_denotes {v : CInt} {t : Target} (h : Denotes v t) (hf : t.isFile = true) :
    Aim.crt (getRealFd v) = t.aim := by
  have hs : isSocket v = false := by rw [isSocket_of_denotes h, hf]; rfl
  rw [← target_of_denotes h, target, hs]; rfl

/-- The error value stands above every value made from anything. -/
theorem ne_error_of_toNat {v : CInt} (h : v.toNat < 2 ^ 32 - 1) : v ≠ -1#32 := by
  have herr : (-1#32 : CInt).toNat = 2 ^ 32 - 1 := by decide
  intro hv
  rw [hv, herr] at h
  exact Nat.lt_irrefl _ h

theorem tag_ne_error {n : Nat} (h : n < 2 ^ 31 - 1) : tag n ≠ -1#32 :=
  ne_error_of_toNat (by rw [tag_toNat (by omega)]; omega)

theorem ofNat_ne_error {n : Nat} (h : n < 2 ^ 31) : BitVec.ofNat 32 n ≠ -1#32 :=
  ne_error_of_toNat (by rw [BitVec.toNat_ofNat]; omega)

theorem denotes_ne_error {v : CInt} {t : Target} (h : Denotes v t) : v ≠ -1#32 := by
  cases t with
  | file n o =>
      rcases h with ⟨hn, rfl⟩ | ⟨hn, -, rfl⟩
      · exact tag_ne_error hn
      · exact ofNat_ne_error (by omega)
  | sock n o =>
      obtain ⟨h3, hn, rfl⟩ := h
      exact ofNat_ne_error hn

/-- A value says which table it is from, and which entry. -/
theorem denotes_aim_inj {v : CInt} {t t' : Target} (h : Denotes v t) (h' : Denotes v t') :
    t.aim = t'.aim := by
  rw [← target_of_denotes h, target_of_denotes h']

theorem denotes_std {v : CInt} {t : Target} (h : Denotes v t) (hv : v.toNat < 3) :
    (v, t) ∈ stdLive := by
  cases t with
  | file n o =>
      rcases h with ⟨hn, rfl⟩ | ⟨hn, rfl, rfl⟩
      · rw [tag_toNat (by omega)] at hv; omega
      · obtain rfl | rfl | rfl : o = 0 ∨ o = 1 ∨ o = 2 := by omega
        all_goals simp [stdLive]
  | sock n o =>
      obtain ⟨h3, hn, rfl⟩ := h
      rw [BitVec.toNat_ofNat] at hv; omega

/-- Two open objects at one entry are one object. -/
theorem holds_aim_inj {s : Os} {v : CInt} {t t' : Target} (hd : Denotes v t) (hd' : Denotes v t')
    (h : s.holds t = true) (h' : s.holds t' = true) : t = t' := by
  have haim := denotes_aim_inj hd hd'
  cases t with
  | file n o =>
    cases t' with
    | file n' o' =>
        -- the words are equal, and both numbers are too small to be cut off
        have hn : n = n' := by
          have hb := congrArg BitVec.toNat (Aim.crt.inj haim)
          rw [BitVec.toNat_ofNat, BitVec.toNat_ofNat] at hb
          simp only [Denotes] at hd hd'
          omega
        subst hn
        simp only [Os.holds, beq_iff_eq] at h h'
        rw [h] at h'
        rw [Option.some.inj h']
    | sock n' o' => exact Aim.noConfusion haim
  | sock n o =>
    cases t' with
    | file n' o' => exact Aim.noConfusion haim
    | sock n' o' =>
        have hn : n = n' := by
          have hb := congrArg BitVec.toNat (Aim.wsock.inj haim)
          rw [BitVec.toNat_ofNat, BitVec.toNat_ofNat] at hb
          simp only [Denotes] at hd hd'
          omega
        subst hn
        simp only [Os.holds, beq_iff_eq] at h h'
        rw [h] at h'
        rw [Option.some.inj h']

/-! ## A call changes only the entry it is aimed at -/

theorem answers_holds {s s' : Os} {e : WinCall} {r : Answer e} {t : Target}
    (h : s.Answers e r s') (ht : s.holds t = true) (hne : aim e ≠ some t.aim) :
    s'.holds t = true := by
  cases e with
  | «open» path flags mode =>
      -- a new descriptor takes a number that was free
      rcases h with ⟨-, rfl⟩ | ⟨n, -, hfree, -, rfl⟩
      · exact ht
      · cases t with
        | file m o =>
            simp only [Os.holds, beq_iff_eq, Os.opened] at ht ⊢
            rw [if_neg (fun he => by rw [he, hfree] at ht; cases ht)]
            exact ht
        | sock m o => exact ht
  | close fd =>
      rcases h with rfl | rfl
      · exact ht
      · cases t with
        | file m o =>
            simp only [Os.holds, beq_iff_eq, Os.closed] at ht ⊢
            rw [if_neg (fun he => hne (by simp [aim, Target.aim, he]))]
            exact ht
        | sock m o => exact ht
  | closesocket fd =>
      rcases h with rfl | rfl
      · exact ht
      · cases t with
        | file m o => exact ht
        | sock m o =>
            simp only [Os.holds, beq_iff_eq, Os.sockClosed] at ht ⊢
            rw [if_neg (fun he => hne (by simp [aim, Target.aim, he]))]
            exact ht
  -- the other calls change neither table
  | read | write | lseek | fdopen | fstat | chsize | recv | send | getsockopt | setsockopt
  | wsaGetLastError | getErrno | setErrno => exact h ▸ ht

/-- **Frame.** An open object no call was aimed at is still open afterwards. -/
theorem exec_holds {α : Type} {p : Shim α} {s s' : Os} {tr : List (Event WinCall Answer)} {a : α}
    {t : Target} (h : Exec Os.world p s tr a s') (ht : s.holds t = true)
    (hne : t.aim ∉ aims tr) : s'.holds t = true := by
  induction h with
  | ret _ _ => exact ht
  | drift hd _ _ => exact hd.elim
  | @call e k r s s' s'' tr a ha _ ih =>
      have he : aim e ≠ some t.aim := by
        intro he
        rw [aims_cons_some he] at hne
        exact hne (List.mem_cons_self ..)
      -- the calls behind it are not aimed at `t` either
      refine ih (answers_holds ha ht he) (fun hmem => hne ?_)
      cases hc : aim e with
      | none => rw [aims_cons_none hc]; exact hmem
      | some t' => rw [aims_cons_some hc]; exact List.mem_cons_of_mem _ hmem

/-! ## One step -/

/-- A step is on target. A shim on a live value makes calls on its object's entry
and on no other (the socket-only shims make none on a file, and fail), and every
other open object stays open. An open that succeeds adds the value of a runtime
descriptor that was free and is now open. -/
def Label.OnTarget (w w' : World) : Label → Prop
  | .op o _ t tr r =>
      (if o.socketOnly && t.isFile then aims tr = [] ∧ r = .int (-1) else aims tr = [t.aim]) ∧
        ∀ t', t'.aim ≠ t.aim → w.os.holds t' = true → w'.os.holds t' = true
  | .openPath tr v =>
      ((v = -1#32 ∧ w'.live = w.live) ∨
        ∃ n o, openedFd tr = n ∧ w.os.crt n = none ∧ w'.os.crt n = some o ∧
          w'.live = (v, .file n o) :: w.live) ∧
        ∀ t', w.os.holds t' = true → w'.os.holds t' = true
  | .socket _ => ∀ t', w.os.holds t' = true → w'.os.holds t' = true

/-- The invariant: every live value denotes an object that is open. -/
def World.Sound (w : World) : Prop :=
  ∀ v t, (v, t) ∈ w.live → Denotes v t ∧ w.os.holds t = true

/-- The runs of a shim whose result is only wrapped up. -/
theorem runs_map {α : Type} {p : Shim α} {f : α → Ret} {tr : List (Event WinCall Answer)} {r : Ret}
    (h : Runs (p >>= fun a => Prog.ret (f a)) tr r) : ∃ a, Runs p tr a ∧ r = f a := by
  induction p generalizing tr with
  | ret a =>
      obtain ⟨rfl, rfl⟩ := runs_ret.mp h
      exact ⟨a, .ret a, rfl⟩
  | call e k ih =>
      obtain ⟨x, tr', rfl, h'⟩ := runs_call.mp h
      obtain ⟨a, ha, rfl⟩ := ih x h'
      exact ⟨a, .call x ha, rfl⟩

/-- **Every shim finds the object its argument was made from.** -/
theorem shim_aims {o : Op} {v : CInt} {t : Target} {tr : List (Event WinCall Answer)} {r : Ret}
    (hd : Denotes v t) (hf : o.fileOnly = true → t.isFile = true) (h : Runs (o.shim v) tr r) :
    if o.socketOnly && t.isFile then aims tr = [] ∧ r = .int (-1) else aims tr = [t.aim] := by
  have htgt := target_of_denotes hd
  have hsock := isSocket_of_denotes hd
  cases o with
  | read buf count => obtain ⟨a, ha, rfl⟩ := runs_map h; exact htgt ▸ posixRead_aims ha
  | write buf count => obtain ⟨a, ha, rfl⟩ := runs_map h; exact htgt ▸ posixWrite_aims ha
  | close => obtain ⟨a, ha, rfl⟩ := runs_map h; exact htgt ▸ posixClose_aims ha
  | getsockopt level optname optval optlen =>
      obtain ⟨a, ha, rfl⟩ := runs_map h
      -- on a file it has failed before any call is made
      have hr := posixGetsockopt_runs ha
      cases hfile : t.isFile <;> simp_all [Op.socketOnly]
  | setsockopt level optname optval optlen =>
      obtain ⟨a, ha, rfl⟩ := runs_map h
      have hr := posixSetsockopt_runs ha
      cases hfile : t.isFile <;> simp_all [Op.socketOnly]
  | fdopen mode =>
      obtain ⟨a, ha, rfl⟩ := runs_map h
      exact getRealFd_of_denotes hd (hf rfl) ▸ posixFdopen_aims ha
  | fstat statbuf =>
      obtain ⟨a, ha, rfl⟩ := runs_map h
      exact getRealFd_of_denotes hd (hf rfl) ▸ libresslFstat_aims ha
  | ftruncate length =>
      obtain ⟨a, ha, rfl⟩ := runs_map h
      exact getRealFd_of_denotes hd (hf rfl) ▸ ftruncate_aims ha

/-- **What `posix_open` does to the tables**: it fails and changes nothing, or one
free runtime descriptor is now open on a new object and its mark is returned. -/
theorem posixOpen_exec {path : String} {flags mode v : CInt} {s s' : Os}
    {tr : List (Event WinCall Answer)} (h : Exec Os.world (posixOpen path flags mode) s tr v s') :
    (v = -1#32 ∧ s' = s) ∨
      ∃ n, n < 2 ^ 31 - 1 ∧ s.crt n = none ∧ openedFd tr = n ∧ v = tag n ∧ s' = s.opened n := by
  obtain ⟨(fh : CInt), s₁, tr', rfl, hans, h'⟩ := Exec.call_inv (fun _ _ => id) h
  change Exec Os.world (if fh = -1#32 then Prog.ret fh else Prog.ret (fh + highBit)) s₁ tr' v s'
    at h'
  rcases hans with ⟨rfl, rfl⟩ | ⟨n, hn, hfree, rfl, rfl⟩
  · obtain ⟨-, rfl, rfl⟩ := Exec.ret_inv (fun _ _ => id) (by simpa using h')
    exact Or.inl ⟨rfl, rfl⟩
  · -- what the runtime hands out is never taken for its error value
    rw [if_neg (ofNat_ne_error (by omega))] at h'
    obtain ⟨-, rfl, rfl⟩ := Exec.ret_inv (fun _ _ => id) h'
    refine Or.inr ⟨n, hn, hfree, ?_, rfl, rfl⟩
    show (BitVec.ofNat 32 n).toNat = n
    rw [BitVec.toNat_ofNat]; omega

/-! ## Every run -/

theorem sound_init {w : World} (h : shims.Init w) : w.Sound := by
  obtain ⟨hl, hstd⟩ := h
  intro v t hv
  rw [hl] at hv
  simp only [stdLive, List.mem_cons, Prod.mk.injEq, List.not_mem_nil, or_false] at hv
  rcases hv with ⟨rfl, rfl⟩ | ⟨rfl, rfl⟩ | ⟨rfl, rfl⟩ <;>
    exact ⟨Or.inr ⟨by decide, rfl, rfl⟩, by simp [Os.holds, hstd]⟩

/-- An open acts on no descriptor that exists already. -/
theorem posixOpen_aims {path : String} {flags mode v : CInt} {tr : List (Event WinCall Answer)}
    (h : Runs (posixOpen path flags mode) tr v) : aims tr = [] := by
  obtain ⟨f, m, fh, rfl, -⟩ := posixOpen_runs h
  rfl

/-- A new socket takes a handle no open socket has. -/
theorem socketed_holds {s : Os} {h : Nat} {t : Target} (hfree : s.wsock h = none)
    (ht : s.holds t = true) : (s.socketed h).holds t = true := by
  cases t with
  | file m o => exact ht
  | sock m o =>
      simp only [Os.holds, beq_iff_eq, Os.socketed] at ht ⊢
      rw [if_neg (fun he => by rw [he, hfree] at ht; cases ht)]
      exact ht

/-- **Every step is on target**, if the live values denote open objects. -/
theorem step_onTarget {w w' : World} {l : Label} (hw : w.Sound) (h : ShimStep w l w') :
    l.OnTarget w w' := by
  cases h with
  | @openPath path flags mode v tr os' he =>
      refine ⟨?_, fun t' ht' =>
        exec_holds he ht' (by rw [posixOpen_aims he.runs]; exact List.not_mem_nil)⟩
      rcases posixOpen_exec he with ⟨rfl, -⟩ | ⟨n, hn, hfree, hfd, rfl, rfl⟩
      · exact Or.inl ⟨rfl, w.liveAfterOpen_error os' tr⟩
      · have hcrt : (w.os.opened n).crt n = some w.os.next := by simp [Os.opened]
        refine Or.inr ⟨n, w.os.next, hfd, hfree, hcrt, ?_⟩
        simp only [World.liveAfterOpen_ne (tag_ne_error hn), hfd, hcrt, Option.getD_some]
  | socket h3 hh hfree => exact fun t' ht' => socketed_holds hfree ht'
  | @op o v t tr r os' hv hf he =>
      obtain ⟨hd, -⟩ := hw v t hv
      have haims := shim_aims hd hf he.runs
      refine ⟨haims, fun t' hne ht' => exec_holds he ht' (fun hmem => ?_)⟩
      split at haims
      · rw [haims.1] at hmem; exact List.not_mem_nil hmem
      · rw [haims] at hmem; exact hne (List.mem_singleton.mp hmem)

/-- **The invariant is preserved by every step.** -/
theorem sound_step {w w' : World} {l : Label} (hw : w.Sound) (h : ShimStep w l w') :
    w'.Sound := by
  have hon := step_onTarget hw h
  cases h with
  | @openPath path flags mode v tr os' he =>
      intro v' t hv
      -- an open takes nothing away from the values that were live
      have hold : (v', t) ∈ w.live → Denotes v' t ∧ os'.holds t = true :=
        fun hm => ⟨(hw v' t hm).1, hon.2 t (hw v' t hm).2⟩
      rcases posixOpen_exec he with ⟨rfl, -⟩ | ⟨n, hn, -, hfd, rfl, rfl⟩
      · exact hold hv
      · rcases hon.1 with ⟨herr, -⟩ | ⟨n', o, hfd', -, ho, hlive⟩
        · exact absurd herr (tag_ne_error hn)
        · rw [hlive] at hv
          rcases List.mem_cons.mp hv with heq | hm
          · -- the value just returned
            obtain ⟨rfl, rfl⟩ := Prod.mk.inj heq
            obtain rfl : n = n' := hfd.symm.trans hfd'
            exact ⟨Or.inl ⟨hn, rfl⟩, by rw [Os.holds, ho]; exact beq_self_eq_true _⟩
          · exact hold hm
  | @socket h h3 hh hfree =>
      intro v' t hv
      rcases List.mem_cons.mp hv with heq | hm
      · obtain ⟨rfl, rfl⟩ := Prod.mk.inj heq
        exact ⟨⟨h3, hh, rfl⟩, by simp [Os.holds, Os.socketed]⟩
      · exact ⟨(hw v' t hm).1, hon t (hw v' t hm).2⟩
  | op _ _ _ =>
      intro v' t hv
      -- a value stays live only while its object is open
      obtain ⟨hm, hopen⟩ := List.mem_filter.mp hv
      exact ⟨(hw v' t hm).1, hopen⟩

theorem sound_reachable {w : World} (h : shims.Reachable w) : w.Sound :=
  h.invariant (fun _ => sound_init) (fun _ _ _ _ hw hs => sound_step hw hs)

/-- What a state of the process must be like for its values not to be mixed up. -/
structure World.Faithful (w : World) : Prop where
  /-- A value means one object: no socket shares a value with a file. -/
  one_object : ∀ v t t', (v, t) ∈ w.live → (v, t') ∈ w.live → t = t'
  /-- The object is open, and its value is not the error value. -/
  is_open : ∀ v t, (v, t) ∈ w.live → w.os.holds t = true ∧ v ≠ -1#32
  /-- 0, 1 and 2 mean the standard descriptors. -/
  std : ∀ v t, (v, t) ∈ w.live → v.toNat < 3 → (v, t) ∈ stdLive
  /-- Whatever is done next is done to the object it was asked of. -/
  next_step : ∀ l w', ShimStep w l w' → l.OnTarget w w'

/--
**Descriptor values never get mixed up.**

However opens, closes, socket creations and shim calls follow each other, and
whichever numbers the two tables hand out, also the same ones at the same time,
a live value leads every shim to the object it was made from and to nothing else.
-/
theorem shims_faithful {w : World} (h : shims.Reachable w) : w.Faithful := by
  have hw := sound_reachable h
  exact
    { one_object := fun v t t' ht ht' =>
        holds_aim_inj (hw v t ht).1 (hw v t' ht').1 (hw v t ht).2 (hw v t' ht').2
      is_open := fun v t ht => ⟨(hw v t ht).2, denotes_ne_error (hw v t ht).1⟩
      std := fun v t ht hv => denotes_std (hw v t ht).1 hv
      next_step := fun l w' hs => step_onTarget hw hs }

/-- A process that has just started. -/
def startWorld : World := ⟨⟨fun n => if n < 3 then some n else none, fun _ => none, 3⟩, stdLive⟩

/-- The same process once socket 3 and runtime descriptor 3 are both in use. -/
def collidedWorld : World :=
  ⟨(startWorld.os.socketed 3).opened 3,
    (tag 3, .file 3 4) :: (BitVec.ofNat 32 3, .sock 3 3) :: stdLive⟩

theorem collidedWorld_reachable : shims.Reachable collidedWorld := by
  have h0 : shims.Reachable startWorld := .init ⟨rfl, fun n hn => if_pos hn⟩
  have h1 := h0.tail (ShimStep.socket (h := 3) (by decide) (by decide) rfl)
  let w1 : World := ⟨startWorld.os.socketed 3, (BitVec.ofNat 32 3, .sock 3 3) :: stdLive⟩
  have hopen : Exec Os.world (posixOpen "" 0#32 0#32) (startWorld.os.socketed 3)
      [⟨.open "" oBinary 0#32, BitVec.ofNat 32 3⟩] (tag 3) ((startWorld.os.socketed 3).opened 3) :=
    .call (Or.inr ⟨3, by decide, rfl, rfl, rfl⟩) (.ret _ _)
  exact h1.tail (ShimStep.openPath (w := w1) hopen)

theorem shims_faithful_collided : collidedWorld.Faithful := shims_faithful collidedWorld_reachable

end LibrePortable.Win
