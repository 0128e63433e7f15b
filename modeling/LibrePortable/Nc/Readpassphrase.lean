import Mathlib.Logic.Function.Basic
import LibrePortable.Lib.Prog

/-!
# `readpassphrase`

The prompt is shown with echo turned off, and nine signals are caught until the terminal is
as it was. A handler only sets a flag, at any moment, and the flags are read by the loop
that restores the terminal and by the loop that sends the signals again. So the flags are
part of the surroundings, and every access to one is a call.
-/

namespace LibrePortable.Nc

open Lib Prog

/-! ## Signals and terminals -/

/-- The signals that are caught. -/
inductive Signal where
  | SIGHUP | SIGINT | SIGQUIT | SIGPIPE | SIGALRM | SIGTERM | SIGTSTP | SIGTTIN | SIGTTOU
  deriving DecidableEq

/-- `sa_handler`; `handler` is the function of this file. -/
inductive Handler where
  | SIG_DFL
  | SIG_IGN
  | handler
  | other (function : Nat)
  deriving DecidableEq

/-- `struct sigaction`. -/
structure Sigaction where
  saHandler : Handler
  /-- `sa_mask` and `sa_flags`. -/
  rest : Nat
  deriving DecidableEq

/-- `struct termios`. -/
structure Termios where
  echo : Bool
  echonl : Bool
  vstatus : UInt8
  /-- All other fields. -/
  rest : Nat
  deriving DecidableEq

abbrev CInt : Type := BitVec 32

def rppEchoOn : CInt := 0x01#32
def rppRequireTty : CInt := 0x02#32
def rppForcelower : CInt := 0x04#32
def rppForceupper : CInt := 0x08#32
def rppSevenbit : CInt := 0x10#32
def rppStdin : CInt := 0x20#32

def EINTR : Int := 4
def EINVAL : Int := 22
def ENOTTY : Int := 25

def stdinFileno : Int := 0
def stderrFileno : Int := 2

/-- What the file is compiled against, and the locale. -/
structure Host where
  /-- `_POSIX_VDISABLE`, where there is a `VSTATUS`. -/
  vdisable : Option UInt8
  isalpha : UInt8 → Bool
  tolower : UInt8 → UInt8
  toupper : UInt8 → UInt8

/-! ## Calls -/

inductive TtyCall where
  -- the label `restart`, which only the record of a run takes notice of
  | restart
  -- the flags
  | clearSigno (i : Signal)
  | getSigno (i : Signal)
  | saveSigttou
  | putSigttou (sigttou : Bool)
  -- the terminal
  | openTty
  | setCloexec (fd : Int)
  | tcgetattr (fd : Int)
  | tcsetattr (fd : Int) (term : Termios)
  | write (fd : Int) (text : List UInt8)
  | read (fd : Int)
  | close (fd : Int)
  -- the process
  | sigaction (signum : Signal) (act : Sigaction)
  | kill (sig : Signal)
  | getErrno
  | setErrno (e : Int)

def TtyAnswer : TtyCall → Type
  | .getSigno _ | .saveSigttou => Bool
  | .openTty | .setCloexec _ | .tcsetattr .. | .write .. | .close _ | .getErrno => Int
  | .tcgetattr _ => Option Termios
  | .read _ => Int × UInt8
  | .sigaction .. => Sigaction
  | .restart | .clearSigno _ | .putSigttou _ | .kill _ | .setErrno _ => Unit

abbrev TtyProg : Type → Type := Prog TtyCall TtyAnswer

namespace Tty

def restart : TtyProg Unit := .call .restart .ret
def clearSigno (i : Signal) : TtyProg Unit := .call (.clearSigno i) .ret
def getSigno (i : Signal) : TtyProg Bool := .call (.getSigno i) .ret
def saveSigttou : TtyProg Bool := .call .saveSigttou .ret
def putSigttou (sigttou : Bool) : TtyProg Unit := .call (.putSigttou sigttou) .ret
def openTty : TtyProg Int := .call .openTty .ret
def setCloexec (fd : Int) : TtyProg Int := .call (.setCloexec fd) .ret
def tcgetattr (fd : Int) : TtyProg (Option Termios) := .call (.tcgetattr fd) .ret
def tcsetattr (fd : Int) (term : Termios) : TtyProg Int := .call (.tcsetattr fd term) .ret
def write (fd : Int) (text : List UInt8) : TtyProg Int := .call (.write fd text) .ret
def read (fd : Int) : TtyProg (Int × UInt8) := .call (.read fd) .ret
def close (fd : Int) : TtyProg Int := .call (.close fd) .ret
def sigaction (signum : Signal) (act : Sigaction) : TtyProg Sigaction :=
  .call (.sigaction signum act) .ret
def kill (sig : Signal) : TtyProg Unit := .call (.kill sig) .ret
def getErrno : TtyProg Int := .call .getErrno .ret
def setErrno (e : Int) : TtyProg Unit := .call (.setErrno e) .ret

end Tty

/-- An `if` without an `else`. -/
def onlyIf {α : Type} (c : Prop) [Decidable c] (p : TtyProg α) : TtyProg Unit :=
  if c then do
    let _ ← p
    return ()
  else return ()

/-! ## The signal handlers -/

/-- `sigaction_except_ign`. -/
def sigactionExceptIgn (signum : Signal) (act : Sigaction) : TtyProg Sigaction := do
  let old ← Tty.sigaction signum act
  if old.saHandler = .SIG_IGN ∧ act.saHandler ≠ .SIG_IGN then
    let _ ← Tty.sigaction signum old
    return old
  else return old

/-- `SIGINT` and `SIGQUIT` are caught even if they were ignored. -/
def setAction (signum : Signal) (act : Sigaction) : TtyProg Sigaction :=
  if signum = .SIGINT ∨ signum = .SIGQUIT then Tty.sigaction signum act
  else sigactionExceptIgn signum act

/-- In the order in which they are caught, and later given back. -/
def caughtSignals : List Signal :=
  [.SIGINT, .SIGQUIT, .SIGALRM, .SIGHUP, .SIGPIPE, .SIGTERM, .SIGTSTP, .SIGTTIN, .SIGTTOU]

/-- `sa`. -/
def catching : Sigaction := ⟨.handler, 0⟩

def catchSignals : List Signal → (Signal → Sigaction) → TtyProg (Signal → Sigaction)
  | [], save => return save
  | signum :: rest, save => do
      let old ← setAction signum catching
      catchSignals rest (Function.update save signum old)

def giveBack (save : Signal → Sigaction) : List Signal → TtyProg Unit
  | [] => return ()
  | signum :: rest => do
      let _ ← setAction signum (save signum)
      giveBack save rest

/-! ## The terminal -/

/-- Where to read from and write to; none if a terminal is required and there is none. -/
def openTerminal (flags : CInt) : TtyProg (Option (Int × Int)) :=
  let standard : TtyProg (Option (Int × Int)) :=
    if flags &&& rppRequireTty ≠ 0 then return none
    else return some (stdinFileno, stderrFileno)
  if flags &&& rppStdin ≠ 0 then standard
  else do
    let input ← Tty.openTty
    if input = -1 then standard
    else
      let _ ← Tty.setCloexec input
      return some (input, input)

/-- `term`, for a terminal with the attributes `oterm`. -/
def silenced (host : Host) (flags : CInt) (oterm : Termios) : Termios :=
  let term :=
    if flags &&& rppEchoOn ≠ 0 then oterm else { oterm with echo := false, echonl := false }
  match host.vdisable with
  | some off => { term with vstatus := off }
  | none => term

/-- What stands in for the attributes where there is no terminal. -/
def noTerminal : Termios := ⟨true, false, 0, 0⟩

/-- Turn off echo if possible; `term` and `oterm`. -/
def turnOffEcho (host : Host) (flags : CInt) (input : Int) : TtyProg (Termios × Termios) :=
  if input ≠ stdinFileno then do
    match ← Tty.tcgetattr input with
    | some oterm =>
        let _ ← Tty.tcsetattr input (silenced host flags oterm)
        return (silenced host flags oterm, oterm)
    | none => return (noTerminal, noTerminal)
  else return (noTerminal, noTerminal)

/-- The loop that restores the terminal; no result if it does not end. -/
def restoreLoop (input : Int) (oterm : Termios) : Nat → TtyProg (Option Unit)
  | 0 => return none
  | fuel + 1 => do
      let rc ← Tty.tcsetattr input oterm
      if rc = -1 then
        let e ← Tty.getErrno
        if e = EINTR then
          let ttou ← Tty.getSigno .SIGTTOU
          if ttou then return some () else restoreLoop input oterm fuel
        else return some ()
      else return some ()

/-- Restore old terminal settings. -/
def restoreTerminal (input : Int) (term oterm : Termios) (fuel : Nat) : TtyProg (Option Unit) :=
  if term ≠ oterm then do
    let sigttou ← Tty.saveSigttou
    match ← restoreLoop input oterm fuel with
    | none => return none
    | some () => do
        Tty.putSigttou sigttou
        return some ()
  else return some ()

/-! ## The passphrase -/

/-- What is stored of a character. -/
def stored (host : Host) (flags : CInt) (ch : UInt8) : UInt8 :=
  let ch := if flags &&& rppSevenbit ≠ 0 then ch &&& 0x7f else ch
  if host.isalpha ch then
    let ch := if flags &&& rppForcelower ≠ 0 then host.tolower ch else ch
    if flags &&& rppForceupper ≠ 0 then host.toupper ch else ch
  else ch

/-- The loop that reads; `nr` and what was stored. -/
def readLoop (host : Host) (flags : CInt) (bufsiz : Nat) (input : Int) :
    Nat → List UInt8 → TtyProg (Option (Int × List UInt8))
  | 0, _ => return none
  | fuel + 1, buf => do
      let (nr, ch) ← Tty.read input
      if nr = 1 ∧ ch ≠ 10 ∧ ch ≠ 13 then
        if buf.length < bufsiz - 1 then
          readLoop host flags bufsiz input fuel (buf ++ [stored host flags ch])
        else readLoop host flags bufsiz input fuel buf
      else return some (nr, buf)

/-- In the order of their numbers. -/
def numbered : List Signal :=
  [.SIGHUP, .SIGINT, .SIGQUIT, .SIGPIPE, .SIGALRM, .SIGTERM, .SIGTSTP, .SIGTTIN, .SIGTTOU]

def clearAll : List Signal → TtyProg Unit
  | [] => return ()
  | i :: rest => do
      Tty.clearSigno i
      clearAll rest

/-- Send ourselves every signal whose flag is set; `need_restart`. -/
def resend : List Signal → Bool → TtyProg Bool
  | [], needRestart => return needRestart
  | i :: rest, needRestart => do
      let set ← Tty.getSigno i
      if set then
        Tty.kill i
        resend rest (needRestart || i = .SIGTSTP || i = .SIGTTIN || i = .SIGTTOU)
      else resend rest needRestart

/-- What the caller gets: whether the pointer is NULL, and what `buf` holds if it was
written to. -/
structure Ret where
  null : Bool
  buf : Option (List UInt8)
  deriving DecidableEq

/-- `write` of the prompt, the reads, and the newline that was not echoed: `nr`, `save_errno`
and what was stored. -/
def prompted (host : Host) (prompt : List UInt8) (bufsiz : Nat) (flags : CInt) (input output : Int)
    (term : Termios) (fuel : Nat) : TtyProg (Option (Int × Int × List UInt8)) := do
  onlyIf (flags &&& rppStdin = 0) (Tty.write output prompt)
  match ← readLoop host flags bufsiz input fuel [] with
  | none => return none
  | some (nr, buf) => do
      let saveErrno ← Tty.getErrno
      let e ← Tty.getErrno
      onlyIf (term.echo = false ∧ ¬ (nr = -1 ∧ e = EINTR)) (Tty.write output [10])
      return some (nr, saveErrno, buf)

/-- Restore the signals, close the terminal, and resend what was caught. -/
def finishPass (save : Signal → Sigaction) (input nr saveErrno : Int) (buf : List UInt8) :
    TtyProg (Option (Option Ret)) := do
  giveBack save caughtSignals
  onlyIf (input ≠ stdinFileno) (Tty.close input)
  let needRestart ← resend numbered false
  if needRestart then return some none
  else
    onlyIf (saveErrno ≠ 0) (Tty.setErrno saveErrno)
    return some (some ⟨decide (nr = -1), some buf⟩)

/-- One pass from the label `restart`: none in the inner option if it is needed again. -/
def pass (host : Host) (prompt : List UInt8) (bufsiz : Nat) (flags : CInt) (fuel : Nat) :
    TtyProg (Option (Option Ret)) := do
  Tty.restart
  clearAll numbered
  match ← openTerminal flags with
  | none =>
      Tty.setErrno ENOTTY
      return some (some ⟨true, none⟩)
  | some (input, output) =>
      let (term, oterm) ← turnOffEcho host flags input
      let save ← catchSignals caughtSignals fun _ => ⟨.SIG_DFL, 0⟩
      match ← prompted host prompt bufsiz flags input output term fuel with
      | none => return none
      | some (nr, saveErrno, buf) =>
          match ← restoreTerminal input term oterm fuel with
          | none => return none
          | some () => finishPass save input nr saveErrno buf

/-- `readpassphrase`; no result if a loop goes on for more than `fuel` rounds. -/
def readpassphrase (host : Host) (prompt : List UInt8) (bufsiz : Nat) (flags : CInt) :
    Nat → TtyProg (Option Ret)
  | 0 => return none
  | fuel + 1 =>
      if bufsiz = 0 then do
        Tty.setErrno EINVAL
        return some ⟨true, none⟩
      else do
        match ← pass host prompt bufsiz flags fuel with
        | none => return none
        | some none => readpassphrase host prompt bufsiz flags fuel
        | some (some r) => return some r

/-! ## The process and its terminal -/

/-- A signal sent again, and what the process was like when it was. -/
structure Sent where
  sig : Signal
  attr : Termios
  action : Signal → Sigaction

/-- The terminal, the process, and a record of its signals. -/
structure World where
  attr : Termios
  action : Signal → Sigaction
  signo : Signal → Bool
  errno : Int
  /-- `sigttou`, from its declaration until it has been written back. -/
  sigttou : Option Bool
  /-- Caught since the last restart. -/
  caught : List Signal
  /-- Sent again since the last restart. -/
  sent : List Sent

/-- The action that ends the process. -/
def Signal.terminates (sig : Signal) : Handler → Bool
  | .SIG_DFL => !(sig = .SIGTSTP || sig = .SIGTTIN || sig = .SIGTTOU)
  | _ => false

/-- A function is called when the signal arrives, and a call that waits fails with `EINTR`. -/
def Handler.isFunction : Handler → Bool
  | .handler | .other _ => true
  | .SIG_DFL | .SIG_IGN => false

namespace World

/-- A signal arrives: `handler` sets its flag. What other actions do, short of ending the
process, is over when the program goes on. -/
def deliver (s : World) (sig : Signal) : World :=
  if (s.action sig).saHandler = .handler then
    { s with signo := Function.update s.signo sig true, caught := sig :: s.caught }
  else s

def survives (s : World) (sig : Signal) : Prop := sig.terminates (s.action sig).saHandler = false

instance (s : World) (sig : Signal) : Decidable (s.survives sig) :=
  inferInstanceAs (Decidable (_ = false))

end World

/-- What a call may be answered, if signals arrive as `May` allows: `May s during sig` is about
the arrival of `sig` in the state `s`, during a call of `tcsetattr` or between two calls. -/
def answers (May : World → Bool → Signal → Prop) :
    World → (e : TtyCall) → TtyAnswer e → World → Prop
  | s, .restart, (), s' => s' = { s with caught := [], sent := [] }
  | s, .clearSigno i, (), s' => s' = { s with signo := Function.update s.signo i false }
  | s, .getSigno i, v, s' => v = s.signo i ∧ s' = s
  | s, .saveSigttou, v, s' =>
      v = s.signo .SIGTTOU ∧ s' = { s with sigttou := some (s.signo .SIGTTOU) }
  | s, .putSigttou v, (), s' =>
      s' = { s with signo := Function.update s.signo .SIGTTOU v, sigttou := none }
  | s, .tcgetattr _, r, s' =>
      (r = some s.attr ∧ s' = s) ∨ (r = none ∧ ∃ e, s' = { s with errno := e })
  | s, .tcsetattr _ term, (rc : Int), s' => (rc = 0 ∧ s' = { s with attr := term }) ∨
      (rc = -1 ∧ ∃ sig, May s true sig ∧ (s.action sig).saHandler.isFunction = true ∧
        s' = { s.deliver sig with errno := EINTR })
  | s, .openTty, _, s' | s, .setCloexec _, _, s' | s, .write .., _, s' | s, .read _, _, s'
  | s, .close _, _, s' => ∃ e, s' = { s with errno := e }
  | s, .sigaction signum act, old, s' =>
      old = s.action signum ∧ s' = { s with action := Function.update s.action signum act }
  | s, .kill sig, (), s' => s.survives sig ∧
      s' = { s.deliver sig with sent := ⟨sig, s.attr, s.action⟩ :: s.sent }
  | s, .getErrno, e, s' => e = s.errno ∧ s' = s
  | s, .setErrno e, (), s' => s' = { s with errno := e }

/-- The terminal and the process; between two calls, signals arrive. -/
def surroundings (May : World → Bool → Signal → Prop) : Surroundings TtyCall TtyAnswer World where
  Answer := answers May
  Drift s s' := ∃ sig, May s false sig ∧ s.survives sig ∧ s' = s.deliver sig

/-- Any signal at any time. -/
def Anytime : World → Bool → Signal → Prop := fun _ _ _ => True

/-- A process that calls the function: the handler of this file is not in use, and nothing is
on record. -/
structure Entry (s : World) : Prop where
  action : ∀ sig, (s.action sig).saHandler ≠ .handler
  sigttou : s.sigttou = none
  caught : s.caught = []

/-- **What a call leaves behind**: the terminal and the actions are those at entry, and every
signal caught since the last restart was sent again when they already were. -/
structure Restored (s s' : World) : Prop where
  attr : s'.attr = s.attr
  action : s'.action = s.action
  resent : ∀ sig ∈ s'.caught, ⟨sig, s.attr, s.action⟩ ∈ s'.sent

/-- Whether the arrival of a signal that is caught does no harm to `sigttou`, or to the loop
that follows it. -/
def Harmless : Option Bool → Bool → Signal → Prop
  | none, _, _ => True
  -- the loop gives up if it is interrupted
  | some true, during, _ => during = false
  -- the flag will be overwritten
  | some false, _, sig => sig ≠ .SIGTTOU

instance : ∀ (v : Option Bool) (during : Bool) (sig : Signal), Decidable (Harmless v during sig)
  | none, _, _ => inferInstanceAs (Decidable True)
  | some true, during, _ => inferInstanceAs (Decidable (during = false))
  | some false, _, sig => inferInstanceAs (Decidable (sig ≠ .SIGTTOU))

/-- While the terminal is being restored, no signal is caught during `tcsetattr` if `SIGTTOU` was
caught before, and otherwise `SIGTTOU` is not caught. -/
def Calm (s : World) (during : Bool) (sig : Signal) : Prop :=
  (s.action sig).saHandler = .handler → Harmless s.sigttou during sig

instance (s : World) (during : Bool) (sig : Signal) : Decidable (Calm s during sig) :=
  inferInstanceAs (Decidable (_ → _))

instance (s : World) (during : Bool) (sig : Signal) : Decidable (Anytime s during sig) :=
  inferInstanceAs (Decidable True)

end LibrePortable.Nc
