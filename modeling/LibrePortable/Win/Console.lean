import LibrePortable.Lib.Transition
import LibrePortable.Win.Calls

/-!
# The console user interface

The callbacks of `UI_OpenSSL()` on Windows, `crypto/compat/ui_openssl_win.c`. They
share four static variables and one lock: `open_console` takes `CRYPTO_LOCK_UI`,
`close_console` gives it back, and whatever the console and the streams answer in
between decides what the callbacks return.

Strings are lists of characters without the terminating zero. `UI_set_result` and
`UI_get0_result_string` are in libcrypto proper, so they are calls here.
-/

namespace LibrePortable.Win

open Lib Prog

/-- What `GetStdHandle` returns. -/
inductive Handle where
  | null
  | INVALID_HANDLE_VALUE
  | ok (h : Nat)
  deriving DecidableEq, Repr

/-- A stream that `tty_in` or `tty_out` may point to. -/
inductive Stream where
  | stdin | stderr
  | other (n : Nat)
  deriving DecidableEq, Repr

abbrev DWORD := BitVec 32

abbrev Text := List Char

def FILE_TYPE_CHAR : DWORD := 2
def ENABLE_ECHO_INPUT : DWORD := 4
def BUFSIZ : Nat := 512
def UI_INPUT_FLAG_ECHO : CInt := 1

/-- The calls the callbacks make. -/
inductive ConsoleCall where
  /-- `CRYPTO_w_lock(CRYPTO_LOCK_UI)` -/
  | wLock
  /-- `CRYPTO_w_unlock(CRYPTO_LOCK_UI)` -/
  | wUnlock
  /-- `GetStdHandle(STD_INPUT_HANDLE)` -/
  | getStdHandle
  | getFileType (handle : Handle)
  | getConsoleMode (handle : Handle)
  | setConsoleMode (handle : Handle) (mode : DWORD)
  | fputs (s : Text) (stream : Option Stream)
  | fflush (stream : Option Stream)
  | fgets (size : Nat) (stream : Option Stream)
  | feof (stream : Option Stream)
  | ferror (stream : Option Stream)
  | fclose (stream : Option Stream)
  | setResult (result : Text)
  | getResult
  deriving DecidableEq, Repr

/-- What they return. `GetConsoleMode` also stores a mode; `fgets` returns NULL or
what it has read. -/
def ConsoleAnswer : ConsoleCall → Type
  | .getStdHandle => Handle
  | .getFileType _ => DWORD
  | .getConsoleMode _ => CInt × DWORD
  | .setConsoleMode .. | .feof _ | .ferror _ | .setResult _ => CInt
  | .fgets .. => Option Text
  | .getResult => Text
  | .wLock | .wUnlock | .fputs .. | .fflush _ | .fclose _ => Unit

/-- A callback: a program over these calls. -/
abbrev ConsoleProg : Type → Type := Prog ConsoleCall ConsoleAnswer

/-- The static variables. -/
structure Statics where
  consoleMode : DWORD
  ttyIn : Option Stream
  ttyOut : Option Stream
  isATty : CInt
  deriving DecidableEq, Repr

/-- `UI_get_string_type` -/
inductive UiStringType where
  | UIT_NONE | UIT_PROMPT | UIT_VERIFY | UIT_BOOLEAN | UIT_INFO | UIT_ERROR
  deriving DecidableEq, Repr

/-- A `UI_STRING`, as far as the callbacks look at it. -/
structure UiString where
  type : UiStringType
  outputString : Text
  actionString : Text
  testString : Text
  inputFlags : CInt
  deriving DecidableEq, Repr

namespace Console

def wLock : ConsoleProg Unit := .call .wLock .ret
def wUnlock : ConsoleProg Unit := .call .wUnlock .ret
def getStdHandle : ConsoleProg Handle := .call .getStdHandle .ret
def getFileType (handle : Handle) : ConsoleProg DWORD := .call (.getFileType handle) .ret
def getConsoleMode (handle : Handle) : ConsoleProg (CInt × DWORD) :=
  .call (.getConsoleMode handle) .ret
def setConsoleMode (handle : Handle) (mode : DWORD) : ConsoleProg CInt :=
  .call (.setConsoleMode handle mode) .ret
def fputs (s : Text) (stream : Option Stream) : ConsoleProg Unit := .call (.fputs s stream) .ret
def fflush (stream : Option Stream) : ConsoleProg Unit := .call (.fflush stream) .ret
def fgets (size : Nat) (stream : Option Stream) : ConsoleProg (Option Text) :=
  .call (.fgets size stream) .ret
def feof (stream : Option Stream) : ConsoleProg CInt := .call (.feof stream) .ret
def ferror (stream : Option Stream) : ConsoleProg CInt := .call (.ferror stream) .ret
def fclose (stream : Option Stream) : ConsoleProg Unit := .call (.fclose stream) .ret
def setResult (result : Text) : ConsoleProg CInt := .call (.setResult result) .ret
def getResult : ConsoleProg Text := .call .getResult .ret

/-! ## Opening and closing -/

/-- `open_console` -/
def openConsole (st : Statics) : ConsoleProg (CInt × Statics) := do
  wLock
  let st := { st with isATty := 1, ttyIn := some .stdin, ttyOut := some .stderr }
  let handle ← getStdHandle
  if handle ≠ .null ∧ handle ≠ .INVALID_HANDLE_VALUE then
    if (← getFileType handle) = FILE_TYPE_CHAR then
      let (rc, mode) ← getConsoleMode handle
      return (rc, { st with consoleMode := mode })
    else
      return (1, st)
  else
    return (0, st)

/-- `SetConsoleMode` if standard input is a console: what `noecho_console` and
`echo_console` have in common. -/
def changeMode (mode : DWORD) : ConsoleProg CInt := do
  let handle ← getStdHandle
  if handle ≠ .null ∧ handle ≠ .INVALID_HANDLE_VALUE then
    if (← getFileType handle) = FILE_TYPE_CHAR then
      setConsoleMode handle mode
    else
      return 1
  else
    return 0

/-- `noecho_console` -/
def noechoConsole (st : Statics) : ConsoleProg CInt :=
  changeMode (st.consoleMode &&& ~~~ENABLE_ECHO_INPUT)

/-- `echo_console` -/
def echoConsole (st : Statics) : ConsoleProg CInt := changeMode st.consoleMode

/-- `if (tty != own) fclose(tty);` -/
def fcloseUnless (own : Stream) (tty : Option Stream) : ConsoleProg Unit :=
  if tty ≠ some own then fclose tty else return ()

/-- `close_console` -/
def closeConsole (st : Statics) : ConsoleProg CInt := do
  fcloseUnless .stdin st.ttyIn
  fcloseUnless .stderr st.ttyOut
  wUnlock
  return 1

/-! ## Strings -/

/-- `write_string` -/
def writeString (st : Statics) (uis : UiString) : ConsoleProg CInt := do
  match uis.type with
  | .UIT_ERROR | .UIT_INFO =>
    fputs uis.outputString st.ttyOut
    fflush st.ttyOut
    return 1
  | _ => return 1

/-- `read_till_nl`; `none` when it has not returned after `fuel` reads. -/
def readTillNl (stream : Option Stream) : (fuel : Nat) → ConsoleProg (Option CInt)
  | 0 => return none
  | fuel + 1 => do
    match ← fgets 4 stream with
    | none => return some 0
    | some buf => if '\n' ∈ buf then return some 1 else readTillNl stream fuel

/-- `if (UI_set_result(ui, uis, result) >= 0) ok = 1;` -/
def keepResult (result : Text) : ConsoleProg (Option CInt) := do
  let rc ← setResult result
  return if rc.slt 0 then some 0 else some 1

/-- `read_string_inner` between `ps = 2` and its label `error`: the value of `ok`. -/
def readResult (fuel : Nat) (st : Statics) (stripNl : Bool) : ConsoleProg (Option CInt) := do
  match ← fgets (BUFSIZ - 1) st.ttyIn with
  | none => return some 0
  | some result =>
    if (← feof st.ttyIn) ≠ 0 then return some 0
    else if (← ferror st.ttyIn) ≠ 0 then return some 0
    else if '\n' ∈ result then
      keepResult (if stripNl then result.takeWhile (· ≠ '\n') else result)
    else
      match ← readTillNl st.ttyIn fuel with
      | none => return none
      | some 0 => return some 0
      | some _ => keepResult result

/-- `read_string_inner` -/
def readStringInner (fuel : Nat) (st : Statics) (echo : Bool) (stripNl : Bool) :
    ConsoleProg (Option CInt) := do
  if echo then
    readResult fuel st stripNl
  else if (← noechoConsole st) = 0 then
    fputs ['\n'] st.ttyOut
    return some 0
  else
    match ← readResult fuel st stripNl with
    | none => return none
    | some ok =>
      fputs ['\n'] st.ttyOut
      if (← echoConsole st) = 0 then return some 0 else return some ok

/-- `read_string` -/
def readString (fuel : Nat) (st : Statics) (uis : UiString) : ConsoleProg (Option CInt) := do
  let echo := uis.inputFlags &&& UI_INPUT_FLAG_ECHO ≠ 0
  match uis.type with
  | .UIT_BOOLEAN =>
    fputs uis.outputString st.ttyOut
    fputs uis.actionString st.ttyOut
    fflush st.ttyOut
    readStringInner fuel st echo false
  | .UIT_PROMPT =>
    fputs uis.outputString st.ttyOut
    fflush st.ttyOut
    readStringInner fuel st echo true
  | .UIT_VERIFY =>
    fputs ("Verifying - ".toList ++ uis.outputString) st.ttyOut
    fflush st.ttyOut
    match ← readStringInner fuel st echo true with
    | none => return none
    | some ok =>
      if ok.sle 0 then return some ok
      else if (← getResult) ≠ uis.testString then
        fputs "Verify failure\n".toList st.ttyOut
        fflush st.ttyOut
        return some 0
      else
        return some 1
  | _ => return some 1

end Console

end LibrePortable.Win
