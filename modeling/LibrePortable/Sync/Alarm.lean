import Mathlib.Logic.Function.Basic
import LibrePortable.Lib.Hoare
import LibrePortable.Lib.Transition

/-!
# Alarms

`apps/openssl/apps_win.c` has an `alarm` for the benchmark of `openssl speed`. An alarm is a
thread that says that it has started, sleeps and calls the handler. The benchmark gets going
only when the thread has said so, and gives the thread back when it has measured enough: if
the handler has not been called by then, by terminating it.

The benchmark is the program here, and the threads it has made move on their own.
-/

namespace LibrePortable.Sync

open Lib Prog

variable {F : Type}

/-- The handle of a thread. -/
abbrev ThreadHandle := Nat

/-- An `unsigned int`, and a `DWORD`. -/
abbrev UInt := BitVec 32

/-- The variables of the file, and what is asked of the system. `F` are the handlers. -/
inductive AlarmCall (F : Type) where
  /-- `speed_alarm_handler` -/
  | setHandler (func : F)
  | getHandler
  /-- `speed_lapse` -/
  | setLapse (n : UInt)
  | getLapse
  /-- `speed_schlock` -/
  | setSchlock (b : Bool)
  | getSchlock
  /-- `speed_thread` -/
  | setThread (h : Option ThreadHandle)
  | getThread
  /-- `CreateThread` of `speed_timer` -/
  | createThread
  | terminateThread (h : Option ThreadHandle)
  | closeHandle (h : Option ThreadHandle)
  | getLastError
  | sleep (milliseconds : UInt)
  /-- `(*func)(0)` -/
  | call (func : Option F)
  | printf (format : String) (err : UInt)
  | exitProcess (err : UInt)

/-- What each returns; `ExitProcess` does not. -/
def AlarmAnswer {F : Type} : AlarmCall F → Type
  | .getHandler => Option F
  | .getLapse | .getLastError => UInt
  | .getSchlock | .terminateThread _ | .closeHandle _ => Bool
  | .getThread | .createThread => Option ThreadHandle
  | .exitProcess _ => Empty
  | _ => Unit

abbrev AlarmProg (F : Type) : Type → Type := Prog (AlarmCall F) AlarmAnswer

section Functions

def setHandler (func : F) : AlarmProg F Unit := .call (.setHandler func) .ret
def setLapse (n : UInt) : AlarmProg F Unit := .call (.setLapse n) .ret
def setSchlock (b : Bool) : AlarmProg F Unit := .call (.setSchlock b) .ret
def getSchlock : AlarmProg F Bool := .call .getSchlock .ret
def setThread (h : Option ThreadHandle) : AlarmProg F Unit := .call (.setThread h) .ret
def getThread : AlarmProg F (Option ThreadHandle) := .call .getThread .ret
def createThread : AlarmProg F (Option ThreadHandle) := .call .createThread .ret
def terminateThread (h : Option ThreadHandle) : AlarmProg F Bool := .call (.terminateThread h) .ret
def closeHandle (h : Option ThreadHandle) : AlarmProg F Bool := .call (.closeHandle h) .ret
def sleep (n : UInt) : AlarmProg F Unit := .call (.sleep n) .ret

/-- Say what failed, and end. -/
def giveUp (format : String) : AlarmProg F Unit := do
  let err ← Prog.call .getLastError .ret
  Prog.call (.printf format err) .ret
  Prog.call (.exitProcess err) Empty.elim

/-- `speed_signal` -/
def speedSignal (func : F) : AlarmProg F Unit := setHandler func

/-- `speed_timer`, the body of the thread -/
def speedTimer : AlarmProg F UInt := do
  setSchlock true
  let lapse ← Prog.call .getLapse .ret
  sleep lapse
  let handler ← Prog.call .getHandler .ret
  Prog.call (.call handler) .ret
  return 0#32

/-- `while (!speed_schlock) Sleep(0);` with at most so many rounds. -/
def awaitSchlock : (fuel : Nat) → AlarmProg F (Option Unit)
  | 0 => return none
  | fuel + 1 => do
    if ← getSchlock then return some ()
    else
      sleep 0#32
      awaitSchlock fuel

/-- `speed_alarm` -/
def speedAlarm (fuel : Nat) (seconds : UInt) : AlarmProg F (Option UInt) := do
  setLapse (seconds * 1000#32)
  setSchlock false
  let thread ← createThread
  setThread thread
  if thread = none then giveUp "CreateThread failed (%lu)"
  let waited ← awaitSchlock fuel
  return waited.map fun _ => seconds

/-- `speed_alarm_free` -/
def speedAlarmFree (run : Bool) : AlarmProg F Unit := do
  if run then
    let h ← getThread
    if (← terminateThread h) = false then giveUp "TerminateThread failed (%lu)"
  let h ← getThread
  if (← closeHandle h) = false then giveUp "CloseHandle failed (%lu)"
  setThread none
  setLapse 0#32
  setSchlock false

end Functions

/-! ## The threads and the system -/

/-- A thread, and what is known of it. -/
structure Timer (F : Type) where
  /-- What `speed_lapse` was when the thread was made. -/
  due : UInt
  /-- It has not been terminated. -/
  alive : Bool
  /-- What it still has to do. -/
  rest : AlarmProg F UInt
  /-- How long it has slept. -/
  slept : Option UInt
  /-- How often it has called the handler. -/
  called : Nat

/-- A thread as it is made. -/
def Timer.new (due : UInt) : Timer F := ⟨due, true, speedTimer, none, 0⟩

/-- It will not do anything any more. -/
def Timer.Over (t : Timer F) : Prop := t.alive = false ∨ ∃ a, t.rest = .ret a

/-- After a call that leaves `rest` to be done. -/
def Timer.went (t : Timer F) (e : AlarmCall F) (rest : AlarmProg F UInt) : Timer F :=
  match e with
  | .sleep n => { t with rest := rest, slept := some n }
  | .call _ => { t with rest := rest, called := t.called + 1 }
  | _ => { t with rest := rest }

/-- The variables of the file, the threads and the handles. -/
structure AlarmWorld (F : Type) where
  handler : Option F
  lapse : UInt
  schlock : Bool
  thread : Option ThreadHandle
  timers : Nat → Option (Timer F)
  /-- Threads made so far. -/
  next : Nat
  /-- The handles that are open, and the thread each is of. -/
  handles : ThreadHandle → Option Nat
  /-- Something undefined has been done. -/
  ub : Bool

namespace AlarmWorld

variable (w : AlarmWorld F)

/-- Thread `i` has become `t`. -/
def setTimer (i : Nat) (t : Timer F) : AlarmWorld F :=
  { w with timers := Function.update w.timers i (some t) }

/-- A thread with handle `h`. -/
def created (h : ThreadHandle) : AlarmWorld F :=
  { w.setTimer w.next (.new w.lapse) with
    next := w.next + 1, handles := Function.update w.handles h (some w.next) }

/-- How a call is answered. -/
def Answers : (e : AlarmCall F) → AlarmAnswer e → AlarmWorld F → Prop
  | .setHandler func, _, w' => w' = { w with handler := some func }
  | .getHandler, r, w' => r = w.handler ∧ w' = w
  | .setLapse n, _, w' => w' = { w with lapse := n }
  | .getLapse, r, w' => r = w.lapse ∧ w' = w
  | .setSchlock b, _, w' => w' = { w with schlock := b }
  | .getSchlock, r, w' => r = w.schlock ∧ w' = w
  | .setThread h, _, w' => w' = { w with thread := h }
  | .getThread, r, w' => r = w.thread ∧ w' = w
  | .createThread, r, w' =>
      (r = (none : Option ThreadHandle) ∧ w' = w) ∨
        ∃ h, w.handles h = none ∧ r = some h ∧ w' = w.created h
  | .terminateThread h, r, w' =>
      match h.bind w.handles with
      | none => w' = { w with ub := true }
      -- a thread that is over may be terminated in vain
      | some i => (r = false ∧ w' = w) ∨
          ∃ t, w.timers i = some t ∧ r = true ∧ w' = w.setTimer i { t with alive := false }
  | .closeHandle h, r, w' =>
      match h, h.bind w.handles with
      | some h, some _ => (r = false ∧ w' = w) ∨
          (r = true ∧ w' = { w with handles := Function.update w.handles h none })
      | _, _ => w' = { w with ub := true }
  | .getLastError, _, w' => w' = w
  | .sleep _, _, w' => w' = w
  -- a handler may set another one
  | .call (some _), _, w' => ∃ g, w' = { w with handler := some g }
  | .call none, _, w' => w' = { w with ub := true }
  | .printf _ _, _, w' => w' = w
  | .exitProcess _, r, _ => r.elim

/-- A step of thread `i`. -/
def TimerStep (w : AlarmWorld F) (i : Nat) (w' : AlarmWorld F) : Prop :=
  ∃ t e k r w₁, w.timers i = some t ∧ t.alive = true ∧ t.rest = .call e k ∧ w.Answers e r w₁ ∧
    w' = w₁.setTimer i (t.went e (k r))

end AlarmWorld

/-- The benchmark among the threads it has made. -/
def alarmWorld (F : Type) : Surroundings (AlarmCall F) AlarmAnswer (AlarmWorld F) where
  Answer := AlarmWorld.Answers
  Drift w w' := ∃ i, w.TimerStep i w'

/-! ## The benchmark -/

/-- What the benchmark does next. -/
inductive AlarmOp (F : Type) where
  | signal (func : F)
  | alarm (seconds : UInt)
  | free (run : Bool)
  /-- It measures, and the threads go on. -/
  | wait

/-- Where it is: with no alarm, or with one that was set to so many seconds. -/
structure AlarmState (F : Type) where
  world : AlarmWorld F
  alarm : Option UInt

/-- The last thread has called the handler. -/
def AlarmWorld.Rung (w : AlarmWorld F) : Prop :=
  ∃ i t, w.next = i + 1 ∧ w.timers i = some t ∧ t.called ≠ 0

/-- One thing the benchmark does: an alarm is set when there is a handler and no alarm, and
is given back once. `run` is what the handler clears, so it is false only if the handler has
been called. -/
inductive AlarmStep : AlarmState F → AlarmOp F → AlarmState F → Prop where
  | signal {w w' : AlarmWorld F} {a : Option UInt} {func : F}
      {tr : List (Event (AlarmCall F) AlarmAnswer)} :
      Exec (alarmWorld F) (speedSignal func) w tr () w' →
      AlarmStep ⟨w, a⟩ (.signal func) ⟨w', a⟩
  | alarm {w w' : AlarmWorld F} {seconds r : UInt} {fuel : Nat}
      {tr : List (Event (AlarmCall F) AlarmAnswer)} : w.handler ≠ none →
      Exec (alarmWorld F) (speedAlarm fuel seconds) w tr (some r) w' →
      AlarmStep ⟨w, none⟩ (.alarm seconds) ⟨w', some r⟩
  | free {w w' : AlarmWorld F} {seconds : UInt} {run : Bool}
      {tr : List (Event (AlarmCall F) AlarmAnswer)} : (run = false → w.Rung) →
      Exec (alarmWorld F) (speedAlarmFree run) w tr () w' →
      AlarmStep ⟨w, some seconds⟩ (.free run) ⟨w', none⟩
  | wait {w w' : AlarmWorld F} {a : Option UInt} : (alarmWorld F).Drift w w' →
      AlarmStep ⟨w, a⟩ .wait ⟨w', a⟩

/-- A benchmark from its start. -/
def alarms (F : Type) : Lts (AlarmState F) (AlarmOp F) where
  Init s := s.alarm = none ∧ s.world.thread = none ∧ (∀ i, s.world.timers i = none) ∧
    (∀ h, s.world.handles h = none) ∧ s.world.next = 0 ∧ s.world.ub = false
  Step := AlarmStep

end LibrePortable.Sync
