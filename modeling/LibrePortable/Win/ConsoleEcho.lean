import LibrePortable.Lib.Hoare
import LibrePortable.Win.ConsoleLock

/-!
# Who can see what is typed

A prompt without echo switches the echo bit off, reads, and switches back to the mode that
was saved when the session was opened. Every one of these steps can fail. The variable `ps`
says at the label `error` how far the function has come, and that is what decides whether
there is a mode to restore; the buffer is wiped there in any case.
-/

namespace LibrePortable.Win

open Lib Prog Console

/-! ## The console -/

/-- The mode of the console, and the modes in which it was read from. -/
structure Tty where
  mode : DWORD
  reads : List DWORD

/-- How the console behind the handle `h` answers. Any call may fail; a mode that could not be
set stays. -/
def Tty.Answers (h : Nat) (s : Tty) : (e : ConsoleCall) → ConsoleAnswer e → Tty → Prop
  | .getStdHandle, handle, s' => handle = Handle.ok h ∧ s' = s
  | .getFileType _, type, s' => type = FILE_TYPE_CHAR ∧ s' = s
  | .getConsoleMode _, r, s' => (Prod.fst r ≠ 0#32 → Prod.snd r = s.mode) ∧ s' = s
  | .setConsoleMode _ mode, rc, s' =>
      (rc ≠ 0#32 ∧ s' = { s with mode := mode }) ∨ (rc = 0#32 ∧ s' = s)
  | .fgets .., _, s' => s' = { s with reads := s.reads ++ [s.mode] }
  | _, _, s' => s' = s

/-- The console, with nobody else changing its mode. -/
def tty (h : Nat) : Surroundings ConsoleCall ConsoleAnswer Tty where
  Answer := Tty.Answers h
  Drift _ _ := False

/-- What the calls of `SetConsoleMode` in a trace have returned. -/
def switches : List (Event ConsoleCall ConsoleAnswer) → List CInt
  | [] => []
  | ⟨.setConsoleMode .., rc⟩ :: tr => rc :: switches tr
  | _ :: tr => switches tr

/-- The mode shows nothing of what is typed. -/
def EchoOff (mode : DWORD) : Prop := mode &&& ENABLE_ECHO_INPUT = 0

/-- What a call keeps: `r` is what it returns. -/
structure Keeps (st : Statics) (echo : Bool) (tr : List (Event ConsoleCall ConsoleAnswer))
    (r : CInt) (s s' : Tty) : Prop where
  /-- Without echo, the echo bit is off in every read. -/
  quiet : echo = false → ∃ modes, s'.reads = s.reads ++ modes ∧ ∀ mode ∈ modes, EchoOff mode
  /-- The second switch is the one that restores the mode. -/
  restored : s.mode = st.consoleMode → (switches tr)[1]? ≠ some 0 → s'.mode = st.consoleMode
  failed : 0 ∈ switches tr → r = 0

/-- The flag in a `UI_STRING`. -/
def UiString.echo (uis : UiString) : Bool := uis.inputFlags &&& UI_INPUT_FLAG_ECHO ≠ 0

section Calls

variable {h fuel : Nat} {st : Statics} {s s' : Tty} {tr : List (Event ConsoleCall ConsoleAnswer)}
  {echo stripNl : Bool} {r : CInt}

theorem tty_quiet (h : Nat) (s s' : Tty) : ¬ (tty h).Drift s s' := id

theorem switches_append (tr tr' : List (Event ConsoleCall ConsoleAnswer)) :
    switches (tr ++ tr') = switches tr ++ switches tr' := by
  induction tr with
  | nil => rfl
  | cons ev tr ih =>
      obtain ⟨e, r⟩ := ev
      cases e with
      | setConsoleMode => exact congrArg (r :: ·) ih
      | _ => exact ih

theorem echoOff_without (mode : DWORD) : EchoOff (mode &&& ~~~ENABLE_ECHO_INPUT) := by
  rw [EchoOff, BitVec.and_assoc, BitVec.and_comm (~~~ENABLE_ECHO_INPUT), BitVec.and_not_self]
  exact BitVec.and_zero

/-- A call that changes nothing, at the start of a block. -/
theorem tty_silent {α : Type} {a : α} {e : ConsoleCall} {f : ConsoleAnswer e → ConsoleProg α}
    (he : ∀ {s r s'}, (tty h).Answer s e r s' → s' = s)
    (hexec : Exec (tty h) (.call e .ret >>= f) s tr a s') :
    ∃ r tr', tr = ⟨e, r⟩ :: tr' ∧ Exec (tty h) (f r) s tr' a s' := by
  obtain ⟨r, s₁, tr', rfl, ha, h₁⟩ := Exec.call_bind_inv (tty_quiet h) hexec
  rw [he ha] at h₁
  exact ⟨r, tr', rfl, h₁⟩

/-- **A switch** works, or leaves the mode alone. -/
theorem changeMode_tty {mode : DWORD} (hexec : Exec (tty h) (changeMode mode) s tr r s') :
    switches tr = [r] ∧ s'.reads = s.reads ∧ (r ≠ 0 → s'.mode = mode) ∧ (r = 0 → s' = s) := by
  obtain ⟨(handle : Handle), s₁, tr₁, rfl, ha, h₁⟩ := Exec.call_bind_inv (tty_quiet h) hexec
  obtain ⟨rfl, rfl⟩ := ha
  rcases Exec.ite_inv h₁ with ⟨-, h₁⟩ | ⟨hno, -⟩
  · obtain ⟨(type : DWORD), s₂, tr₂, rfl, ha, h₂⟩ := Exec.call_bind_inv (tty_quiet h) h₁
    obtain ⟨rfl, rfl⟩ := ha
    rcases Exec.ite_inv h₂ with ⟨-, h₂⟩ | ⟨hno, -⟩
    · obtain ⟨rc, s₃, tr₃, rfl, ha, hret⟩ := Exec.call_inv (tty_quiet h) h₂
      obtain ⟨rfl, rfl, rfl⟩ := Exec.ret_inv (tty_quiet h) hret
      rcases ha with ⟨hrc, rfl⟩ | ⟨hrc, rfl⟩
      · exact ⟨rfl, rfl, fun _ => rfl, fun hzero => absurd hzero hrc⟩
      · exact ⟨rfl, rfl, fun hne => absurd hrc hne, fun _ => rfl⟩
    · exact absurd rfl hno
  · exact absurd ⟨fun h => (by cases h), fun h => (by cases h)⟩ hno

/-! ## One prompt -/

/-- Only reads: the mode stays as it was, and was that in each of them. -/
structure OnlyRead (tr : List (Event ConsoleCall ConsoleAnswer)) (s s' : Tty) : Prop where
  mode : s'.mode = s.mode
  reads : ∃ modes, s'.reads = s.reads ++ modes ∧ ∀ mode ∈ modes, mode = s.mode
  switches : switches tr = []

theorem onlyRead_of_onlyCalls {α : Type} {p : ConsoleProg α} {a : α} (hp : p.OnlyCalls IsRead)
    (hexec : Exec (tty h) p s tr a s') : OnlyRead tr s s' := by
  induction hexec with
  | ret a s =>
      exact ⟨rfl, ⟨[], (List.append_nil _).symm, fun _ hm => absurd hm List.not_mem_nil⟩, rfl⟩
  | @call e k r s s₁ s₂ tr a ha _ ih =>
      obtain ⟨hmode, ⟨modes, hreads, hall⟩, hswitches⟩ := ih (hp.2 r)
      cases e with
      | fgets =>
          obtain rfl : s₁ = _ := ha
          refine ⟨hmode, ⟨s.mode :: modes, ?_, fun mode hm => ?_⟩, hswitches⟩
          · rw [hreads]
            exact List.append_assoc ..
          · rcases List.mem_cons.mp hm with rfl | hm
            · rfl
            · exact hall mode hm
      | feof | ferror | setResult =>
          obtain rfl : s₁ = s := ha
          exact ⟨hmode, ⟨modes, hreads, hall⟩, hswitches⟩
      | _ => exact hp.1.elim
  | drift hdrift _ _ => exact hdrift.elim

theorem readStringInner_keeps
    (hexec : Exec (tty h) (readStringInner fuel st echo stripNl) s tr (some r) s') :
    Keeps st echo tr r s s' := by
  cases echo with
  | true =>
      obtain ⟨hmode, -, hswitches⟩ := onlyRead_of_onlyCalls (readResult_reads ..) hexec
      refine ⟨fun h => (by cases h), fun hs _ => hmode.trans hs, fun hfail => ?_⟩
      rw [hswitches] at hfail
      exact absurd hfail List.not_mem_nil
  | false =>
      obtain ⟨tr₁, tr₂, off, s₁, rfl, hoff, h₁⟩ := Exec.bind_inv hexec
      obtain ⟨hswitches₁, hreads₁, hmode₁, hsame₁⟩ := changeMode_tty hoff
      rcases Exec.ite_inv h₁ with ⟨rfl, h₁⟩ | ⟨hworks, h₁⟩
      · -- the echo could not be switched off, and nothing is read
        obtain ⟨u, tr₃, rfl, hret⟩ := tty_silent id h₁
        obtain ⟨rfl, hr, rfl⟩ := Exec.ret_inv (tty_quiet h) hret
        obtain rfl := Option.some.inj hr
        refine ⟨fun _ => ⟨[], ?_, fun _ hm => absurd hm List.not_mem_nil⟩, fun hs _ => ?_,
          fun _ => rfl⟩
        · rw [hreads₁, List.append_nil]
        · rw [hsame₁ rfl, hs]
      obtain ⟨tr₃, tr₄, ok, s₂, rfl, hread, h₂⟩ := Exec.bind_inv h₁
      obtain ⟨-, ⟨modes, hreads₂, hall⟩, hswitches₂⟩ :=
        onlyRead_of_onlyCalls (readResult_reads ..) hread
      cases ok with
      | none =>
          obtain ⟨-, hr, -⟩ := Exec.ret_inv (tty_quiet h) h₂
          cases hr
      | some ok =>
          obtain ⟨u, tr₅, rfl, h₃⟩ := tty_silent id h₂
          obtain ⟨tr₆, tr₇, on, s₄, rfl, hon, h₄⟩ := Exec.bind_inv h₃
          obtain ⟨hswitches₃, hreads₃, hmode₃, -⟩ := changeMode_tty hon
          have hret : ∃ ok', Exec (tty h) (.ret (some ok')) s₄ tr₇ (some r) s' ∧
              (on = 0 → ok' = 0) := by
            rcases Exec.ite_inv h₄ with ⟨-, h₄⟩ | ⟨hne, h₄⟩
            · exact ⟨0, h₄, fun _ => rfl⟩
            · exact ⟨ok, h₄, fun hzero => absurd hzero hne⟩
          obtain ⟨ok', hret, hfails⟩ := hret
          obtain ⟨rfl, hr, rfl⟩ := Exec.ret_inv (tty_quiet h) hret
          obtain rfl := Option.some.inj hr
          have hswitches : switches (tr₁ ++ (tr₃ ++ ⟨.fputs ['\n'] st.ttyOut, u⟩ :: (tr₆ ++ []))) =
              [off, on] := by
            rw [switches_append, switches_append, hswitches₁, hswitches₂]
            show [off] ++ ([] ++ switches (tr₆ ++ [])) = _
            rw [switches_append, hswitches₃]
            rfl
          refine ⟨fun _ => ⟨modes, ?_, fun mode hm => ?_⟩, fun _ hback => ?_, fun hfail => ?_⟩
          · rw [hreads₃, hreads₂, hreads₁]
          · rw [hall mode hm, hmode₁ hworks]
            exact echoOff_without _
          · rw [hswitches] at hback
            exact hmode₃ fun hzero => hback (congrArg some hzero)
          · rw [hswitches] at hfail
            rcases List.mem_cons.mp hfail with hzero | hfail
            · exact absurd hzero.symm hworks
            · exact hfails (List.mem_singleton.mp hfail).symm

/-- Calls that neither read nor switch do not matter. -/
theorem Keeps.silent {tr' : List (Event ConsoleCall ConsoleAnswer)} {r' : CInt}
    (hk : Keeps st echo tr r s s') (htr : switches tr' = switches tr) (hr : r = 0 → r' = 0) :
    Keeps st echo tr' r' s s' := by
  refine ⟨hk.quiet, ?_, ?_⟩
  · rw [htr]
    exact hk.restored
  · rw [htr]
    exact fun hfail => hr (hk.failed hfail)

theorem readString_keeps {uis : UiString}
    (hexec : Exec (tty h) (readString fuel st uis) s tr (some r) s') :
    Keeps st uis.echo tr r s s' := by
  obtain ⟨type, output, action, test, flags⟩ := uis
  have hprompt : ∀ {text : Text} {stripNl : Bool} {s tr s'}, Exec (tty h) (fputs text st.ttyOut >>=
      fun _ => fflush st.ttyOut >>= fun _ => readStringInner fuel st
        (UiString.echo ⟨type, output, action, test, flags⟩) stripNl) s tr (some r) s' →
      Keeps st (UiString.echo ⟨type, output, action, test, flags⟩) tr r s s' := by
    intro text stripNl s tr s' hexec
    obtain ⟨u, tr₁, rfl, h₁⟩ := tty_silent id hexec
    obtain ⟨u', tr₂, rfl, h₂⟩ := tty_silent id h₁
    exact (readStringInner_keeps h₂).silent rfl id
  cases type with
  | UIT_BOOLEAN =>
      obtain ⟨u, tr₁, rfl, h₁⟩ := tty_silent id hexec
      exact (hprompt h₁).silent rfl id
  | UIT_PROMPT => exact hprompt hexec
  | UIT_VERIFY =>
      obtain ⟨u, tr₁, rfl, h₁⟩ := tty_silent id hexec
      obtain ⟨u', tr₂, rfl, h₂⟩ := tty_silent id h₁
      obtain ⟨tr₃, tr₄, ok, s₃, rfl, hinner, h₃⟩ := Exec.bind_inv h₂
      cases ok with
      | none =>
          obtain ⟨-, hr, -⟩ := Exec.ret_inv (tty_quiet h) h₃
          cases hr
      | some ok =>
          have hk := readStringInner_keeps hinner
          rcases Exec.ite_inv h₃ with ⟨-, hret⟩ | ⟨hpos, h₃⟩
          · obtain ⟨rfl, hr, rfl⟩ := Exec.ret_inv (tty_quiet h) hret
            obtain rfl := Option.some.inj hr
            rw [List.append_nil]
            exact hk.silent rfl id
          -- the answer is compared, and the mode is not touched any more
          have hne : ok = 0 → r = 0 := fun hzero => absurd (by rw [hzero]; rfl) hpos
          obtain ⟨(answer : Text), tr₅, rfl, h₄⟩ := tty_silent id h₃
          have hrest : s' = s₃ ∧ switches tr₅ = [] := by
            rcases Exec.ite_inv h₄ with ⟨-, h₄⟩ | ⟨-, hret⟩
            · obtain ⟨v, tr₆, rfl, h₅⟩ := tty_silent id h₄
              obtain ⟨v', tr₇, rfl, hret⟩ := tty_silent id h₅
              obtain ⟨rfl, -, rfl⟩ := Exec.ret_inv (tty_quiet h) hret
              exact ⟨rfl, rfl⟩
            · obtain ⟨rfl, -, rfl⟩ := Exec.ret_inv (tty_quiet h) hret
              exact ⟨rfl, rfl⟩
          obtain ⟨rfl, hswitches⟩ := hrest
          refine hk.silent ?_ hne
          show switches (tr₃ ++ ⟨.getResult, answer⟩ :: tr₅) = switches tr₃
          rw [switches_append]
          show switches tr₃ ++ switches tr₅ = switches tr₃
          rw [hswitches, List.append_nil]
  | _ =>
      obtain ⟨rfl, hr, rfl⟩ := Exec.ret_inv (tty_quiet h) hexec
      exact ⟨fun _ => ⟨[], (List.append_nil _).symm, fun _ hm => absurd hm List.not_mem_nil⟩,
        fun hs _ => hs, fun hfail => absurd hfail List.not_mem_nil⟩

/-! ## Sessions -/

/-- A call of `read_string` that has returned. -/
structure Turn where
  fuel : Nat
  uis : UiString
  tr : List (Event ConsoleCall ConsoleAnswer)
  rc : CInt
  before : Tty
  after : Tty

/-- The mode could not be restored. -/
def Turn.unrestored (x : Turn) : Bool := (switches x.tr)[1]? = some 0

/-- Calls in turn. -/
inductive TtyRun (h : Nat) (st : Statics) : List Turn → Tty → Tty → Prop
  | nil (s : Tty) : TtyRun h st [] s s
  | call {x : Turn} {l : List Turn} {s' : Tty}
      (hexec : Exec (tty h) (readString x.fuel st x.uis) x.before x.tr (some x.rc) x.after)
      (hrest : TtyRun h st l x.after s') : TtyRun h st (x :: l) x.before s'

/-- What is kept over a session that was opened in the mode `saved`. -/
structure SessionKeeps (saved : DWORD) (l : List Turn) : Prop where
  /-- While a prompt without echo is read, the echo bit is off. -/
  quiet : ∀ x ∈ l, x.uis.echo = false →
    ∃ modes, x.after.reads = x.before.reads ++ modes ∧ ∀ mode ∈ modes, EchoOff mode
  /-- Until a restore fails, every call leaves the mode of the beginning. -/
  restored : ∀ l₁ x l₂, l = l₁ ++ x :: l₂ → (∀ y ∈ l₁ ++ [x], y.unrestored = false) →
    x.after.mode = saved
  /-- A call that could not switch the echo off, or not restore the mode, returns 0. -/
  failed : ∀ x ∈ l, 0 ∈ switches x.tr → x.rc = 0

theorem TtyRun.turns {l : List Turn} (hrun : TtyRun h st l s s') :
    ∀ x ∈ l, Keeps st x.uis.echo x.tr x.rc x.before x.after := by
  induction hrun with
  | nil _ => exact fun x hx => absurd hx List.not_mem_nil
  | call hexec _ ih =>
      intro y hy
      rcases List.mem_cons.mp hy with rfl | hy
      · exact readString_keeps hexec
      · exact ih y hy

theorem TtyRun.restored {l : List Turn} (hrun : TtyRun h st l s s')
    (hs : s.mode = st.consoleMode) : ∀ l₁ x l₂, l = l₁ ++ x :: l₂ →
      (∀ y ∈ l₁ ++ [x], y.unrestored = false) → x.after.mode = st.consoleMode := by
  induction hrun with
  | nil _ => exact fun l₁ x l₂ hl => absurd hl (by simp)
  | @call x l s' hexec _ ih =>
      have hk := readString_keeps hexec
      intro l₁ y l₂ hl hback
      cases l₁ with
      | nil =>
          obtain ⟨rfl, -⟩ := List.cons.inj hl
          exact hk.restored hs (of_decide_eq_false (hback x List.mem_cons_self))
      | cons x' l₁ =>
          obtain ⟨rfl, htail⟩ := List.cons.inj hl
          have hfirst := of_decide_eq_false (hback x List.mem_cons_self)
          exact ih (hk.restored hs hfirst) l₁ y l₂ htail fun z hz =>
            hback z (List.mem_cons_of_mem _ hz)

/-- Opening the session saves the mode. -/
theorem openConsole_saves {st₀ : Statics}
    (hexec : Exec (tty h) (openConsole st₀) s tr (r, st) s') (hr : r ≠ 0) :
    s' = s ∧ st.consoleMode = s.mode := by
  obtain ⟨u, tr₁, rfl, h₁⟩ := tty_silent id hexec
  obtain ⟨(handle : Handle), s₂, tr₂, rfl, ha, h₂⟩ := Exec.call_bind_inv (tty_quiet h) h₁
  obtain ⟨rfl, rfl⟩ := ha
  rcases Exec.ite_inv h₂ with ⟨-, h₂⟩ | ⟨hno, -⟩
  · obtain ⟨(type : DWORD), s₃, tr₃, rfl, ha, h₃⟩ := Exec.call_bind_inv (tty_quiet h) h₂
    obtain ⟨rfl, rfl⟩ := ha
    rcases Exec.ite_inv h₃ with ⟨-, h₃⟩ | ⟨hno, -⟩
    · obtain ⟨(x : CInt × DWORD), s₄, tr₄, rfl, ha, hret⟩ := Exec.call_bind_inv (tty_quiet h) h₃
      obtain ⟨hmode, rfl⟩ := ha
      obtain ⟨-, hx, rfl⟩ := Exec.ret_inv (tty_quiet h) hret
      obtain ⟨rfl, rfl⟩ := Prod.mk.inj hx
      exact ⟨rfl, hmode hr⟩
    · exact absurd rfl hno
  · exact absurd ⟨fun h => (by cases h), fun h => (by cases h)⟩ hno

end Calls

/-! ## The buffer -/

/-- What is in the buffer `result`. -/
inductive Buffer where
  /-- What was on the stack, or what a failed read may have left. -/
  | unknown
  | holds (s : Text)
  | wiped
  deriving DecidableEq, Repr

/-- The local variables of `read_string_inner`. -/
structure Locals where
  ps : Int
  ok : CInt
  result : Buffer

namespace Console

/-- `if (UI_set_result(ui, uis, result) >= 0) ok = 1;`, with the variables. -/
def keepLocals (l : Locals) (result : Text) : ConsoleProg (Option Locals) := do
  let rc ← setResult result
  return if rc.slt 0 then some l else some { l with ok := 1 }

/-- `read_string_inner` from `ps = 2` to its label `error`, with the variables. -/
def readLocals (fuel : Nat) (st : Statics) (stripNl : Bool) (l : Locals) :
    ConsoleProg (Option Locals) := do
  let l := { l with ps := 2, result := .holds [] }
  match ← fgets (BUFSIZ - 1) st.ttyIn with
  | none => return some { l with result := .unknown }
  | some result =>
    let l := { l with result := .holds result }
    if (← feof st.ttyIn) ≠ 0 then return some l
    else if (← ferror st.ttyIn) ≠ 0 then return some l
    else if '\n' ∈ result then
      let result := if stripNl then result.takeWhile (· ≠ '\n') else result
      keepLocals { l with result := .holds result } result
    else
      match ← readTillNl st.ttyIn fuel with
      | none => return none
      | some 0 => return some l
      | some _ => keepLocals l result

/-- The mode is restored if `ps` says that it was switched. -/
def restoreEcho (st : Statics) (echo : Bool) (l : Locals) : ConsoleProg Locals := do
  if echo then return l
  else
    fputs ['\n'] st.ttyOut
    if l.ps ≥ 2 then
      if (← echoConsole st) = 0 then return { l with ok := 0 } else return l
    else return l

/-- `error:`, up to `return ok`. -/
def errorLabel (st : Statics) (echo : Bool) (l : Locals) : ConsoleProg (CInt × Buffer) := do
  let l ← restoreEcho st echo l
  -- `explicit_bzero`
  let l := { l with result := .wiped }
  return (l.ok, l.result)

/-- `read_string_inner`, with its variables: what it returns, and the buffer at that point. -/
def readStringLocals (fuel : Nat) (st : Statics) (echo stripNl : Bool) :
    ConsoleProg (Option (CInt × Buffer)) := do
  let l : Locals := ⟨1, 0, .unknown⟩
  if echo then
    match ← readLocals fuel st stripNl l with
    | none => return none
    | some l => return some (← errorLabel st echo l)
  else if (← noechoConsole st) = 0 then
    return some (← errorLabel st echo l)
  else
    match ← readLocals fuel st stripNl l with
    | none => return none
    | some l => return some (← errorLabel st echo l)

end Console

section Locals

variable {fuel : Nat} {st : Statics} {echo stripNl : Bool} {l : Locals} {β : Type}
  {f : Option Locals → ConsoleProg β} {g : Option CInt → ConsoleProg β}

theorem ite_bind_congr {α α' : Type} (cond : Prop) [Decidable cond] {p q : ConsoleProg α}
    {p' q' : ConsoleProg α'} {f : α → ConsoleProg β} {g : α' → ConsoleProg β}
    (hpos : cond → p >>= f = p' >>= g) (hneg : ¬ cond → q >>= f = q' >>= g) :
    (if cond then p else q) >>= f = (if cond then p' else q') >>= g := by
  by_cases hcond : cond
  · rw [if_pos hcond, if_pos hcond]
    exact hpos hcond
  · rw [if_neg hcond, if_neg hcond]
    exact hneg hcond

theorem keepLocals_bind {result : Text} (hok : l.ok = 0) (hps : l.ps = 2)
    (hsome : ∀ l : Locals, l.ps = 2 → f (some l) = g (some l.ok)) :
    keepLocals l result >>= f = keepResult result >>= g := by
  refine congrArg (Prog.call _) (funext fun (rc : CInt) => ?_)
  show f (if rc.slt 0 then some l else some { l with ok := 1 }) =
    g (if rc.slt 0 then some 0 else some 1)
  split
  · rw [hsome l hps, hok]
  · exact hsome _ hps

/-- The last case, when the rest of the line has been read. -/
theorem match_read {γ : Type} {rc : CInt} (hne : rc ≠ 0) (a b d : γ) :
    (match some rc with
      | none => a
      | some 0 => b
      | some _ => d) = d := by
  split
  · rename_i heq
    cases heq
  · rename_i heq
    exact absurd (Option.some.inj heq) hne
  · rfl

/-- With and without the variables, the same is read. -/
theorem readLocals_bind (hok : l.ok = 0) (hnone : f none = g none)
    (hsome : ∀ l : Locals, l.ps = 2 → f (some l) = g (some l.ok)) :
    readLocals fuel st stripNl l >>= f = readResult fuel st stripNl >>= g := by
  have hfail : ∀ b : Buffer, f (some { l with ps := 2, result := b }) = g (some 0) := fun b => by
    rw [hsome _ rfl]
    exact congrArg (fun ok => g (some ok)) hok
  refine congrArg (Prog.call _) (funext fun (r : Option Text) => ?_)
  cases r with
  | none => exact hfail .unknown
  | some result =>
      refine congrArg (Prog.call _) (funext fun (eof : CInt) => ?_)
      refine ite_bind_congr (eof ≠ 0) (fun _ => hfail (.holds result)) fun _ => ?_
      refine congrArg (Prog.call _) (funext fun (error : CInt) => ?_)
      refine ite_bind_congr (error ≠ 0) (fun _ => hfail (.holds result)) fun _ => ?_
      refine ite_bind_congr ('\n' ∈ result) (fun _ => ?_) fun _ => ?_
      · exact keepLocals_bind hok rfl hsome
      · rw [bind_bind, bind_bind]
        refine congrArg (readTillNl st.ttyIn fuel >>= ·) (funext fun rc => ?_)
        rcases rc with _ | rc
        · exact hnone
        · by_cases hzero : rc = 0
          · subst hzero
            exact hfail (.holds result)
          · calc _ = keepLocals { l with ps := 2, result := .holds result } result >>= f :=
                  congrArg (· >>= f) (match_read hzero _ _ _)
              _ = keepResult result >>= g := keepLocals_bind hok rfl hsome
              _ = _ := congrArg (· >>= g) (match_read hzero _ _ _).symm

/-- **The variables only add the buffer**, and that is wiped at every return. -/
theorem readStringLocals_eq (fuel : Nat) (st : Statics) (echo stripNl : Bool) :
    readStringLocals fuel st echo stripNl =
      readStringInner fuel st echo stripNl >>= fun r => .ret (r.map fun ok => (ok, .wiped)) := by
  cases echo with
  | true => exact readLocals_bind rfl rfl fun _ _ => rfl
  | false =>
      show noechoConsole st >>= _ = (noechoConsole st >>= _) >>= _
      rw [bind_bind]
      refine congrArg (noechoConsole st >>= ·) (funext fun off => ?_)
      by_cases hoff : off = 0
      · rw [if_pos hoff, if_pos hoff]
        rfl
      · rw [if_neg hoff, if_neg hoff, bind_bind]
        refine readLocals_bind rfl rfl fun l hps => ?_
        refine congrArg (Prog.call _) (funext fun u => ?_)
        obtain ⟨ps, ok, result⟩ := l
        obtain rfl : ps = 2 := hps
        show echoConsole st >>= _ >>= _ >>= _ = echoConsole st >>= _ >>= _
        rw [bind_bind, bind_bind, bind_bind]
        refine congrArg (echoConsole st >>= ·) (funext fun on => ?_)
        by_cases hon : on = 0
        · rw [if_pos hon, if_pos hon]
          rfl
        · rw [if_neg hon, if_neg hon]
          rfl

end Locals

/-! ## A session -/

section Session

variable {h : Nat} {st₀ st : Statics} {s₀ s s' : Tty} {rc : CInt} {l : List Turn}
  {tr : List (Event ConsoleCall ConsoleAnswer)}

/-- **Nothing of what is typed is left behind**: not on the screen, not in the mode, not in the
buffer. -/
theorem session_keeps (hopen : Exec (tty h) (openConsole st₀) s₀ tr (rc, st) s) (hrc : rc ≠ 0)
    (hrun : TtyRun h st l s s') :
    SessionKeeps s₀.mode l ∧
    ∀ fuel echo stripNl, readStringLocals fuel st echo stripNl =
      readStringInner fuel st echo stripNl >>= fun r => .ret (r.map fun ok => (ok, .wiped)) := by
  obtain ⟨rfl, hsaved⟩ := openConsole_saves hopen hrc
  have hturns := hrun.turns
  refine ⟨⟨fun x hx => (hturns x hx).quiet, fun l₁ x l₂ hl hback => ?_,
    fun x hx => (hturns x hx).failed⟩, fun fuel => readStringLocals_eq fuel st⟩
  rw [hrun.restored hsaved.symm l₁ x l₂ hl hback, hsaved]

/-- A password is asked for on a console in the mode 7, and typed. -/
def samplePassword : Turn where
  fuel := 0
  uis := ⟨.UIT_PROMPT, ['P'], [], [], 0⟩
  tr := [⟨.fputs ['P'] (some .stderr), ()⟩, ⟨.fflush (some .stderr), ()⟩, ⟨.getStdHandle, .ok 3⟩,
    ⟨.getFileType (.ok 3), FILE_TYPE_CHAR⟩, ⟨.setConsoleMode (.ok 3) 3, (1#32 : CInt)⟩,
    ⟨.fgets 511 (some .stdin), some ['x', '\n']⟩, ⟨.feof (some .stdin), (0#32 : CInt)⟩,
    ⟨.ferror (some .stdin), (0#32 : CInt)⟩, ⟨.setResult ['x'], (0#32 : CInt)⟩,
    ⟨.fputs ['\n'] (some .stderr), ()⟩, ⟨.getStdHandle, .ok 3⟩,
    ⟨.getFileType (.ok 3), FILE_TYPE_CHAR⟩, ⟨.setConsoleMode (.ok 3) 7, (1#32 : CInt)⟩]
  rc := 1
  before := ⟨7, []⟩
  after := ⟨7, [3]⟩

/-- It is to be typed again, and the input ends. -/
def sampleAgain : Turn where
  fuel := 0
  uis := ⟨.UIT_VERIFY, ['V'], [], ['x'], 0⟩
  tr := [⟨.fputs ("Verifying - ".toList ++ ['V']) (some .stderr), ()⟩,
    ⟨.fflush (some .stderr), ()⟩, ⟨.getStdHandle, .ok 3⟩,
    ⟨.getFileType (.ok 3), FILE_TYPE_CHAR⟩, ⟨.setConsoleMode (.ok 3) 3, (1#32 : CInt)⟩,
    ⟨.fgets 511 (some .stdin), (none : Option Text)⟩, ⟨.fputs ['\n'] (some .stderr), ()⟩,
    ⟨.getStdHandle, .ok 3⟩, ⟨.getFileType (.ok 3), FILE_TYPE_CHAR⟩,
    ⟨.setConsoleMode (.ok 3) 7, (1#32 : CInt)⟩]
  rc := 0
  before := ⟨7, [3]⟩
  after := ⟨7, [3, 3]⟩

def passwordStatics : Statics := ⟨7, some .stdin, some .stderr, 1⟩

theorem samplePassword_opened :
    Exec (tty 3) (openConsole ⟨0, none, none, 0⟩) ⟨7, []⟩
      [⟨.wLock, ()⟩, ⟨.getStdHandle, .ok 3⟩, ⟨.getFileType (.ok 3), FILE_TYPE_CHAR⟩,
        ⟨.getConsoleMode (.ok 3), ((1#32 : CInt), (7 : DWORD))⟩]
      (1, passwordStatics) ⟨7, []⟩ :=
  .call rfl (.call ⟨rfl, rfl⟩ (.call ⟨rfl, rfl⟩ (.call ⟨fun _ => rfl, rfl⟩ (.ret _ _))))

theorem samplePassword_run :
    TtyRun 3 passwordStatics [samplePassword, sampleAgain] ⟨7, []⟩ ⟨7, [3, 3]⟩ := by
  have hone : (1#32 : CInt) ≠ 0#32 := by decide
  have hoff : ∀ reads, (tty 3).Answer ⟨7, reads⟩ (.setConsoleMode (.ok 3) 3) (1#32 : CInt)
      ⟨3, reads⟩ := fun _ => .inl ⟨hone, rfl⟩
  have hread : ∀ reads (r : Option Text), (tty 3).Answer ⟨3, reads⟩ (.fgets 511 (some .stdin)) r
      ⟨3, reads ++ [3]⟩ := fun _ _ => rfl
  have hon : ∀ reads, (tty 3).Answer ⟨3, reads⟩ (.setConsoleMode (.ok 3) 7) (1#32 : CInt)
      ⟨7, reads⟩ := fun _ => .inl ⟨hone, rfl⟩
  refine .call (x := samplePassword) ?_ (.call (x := sampleAgain) ?_ (.nil _))
  · exact .call rfl (.call rfl (.call ⟨rfl, rfl⟩ (.call ⟨rfl, rfl⟩ (.call (hoff _)
      (.call (hread _ _) (.call rfl (.call rfl (.call rfl (.call rfl (.call ⟨rfl, rfl⟩
        (.call ⟨rfl, rfl⟩ (.call (hon _) (.ret _ _)))))))))))))
  · exact .call rfl (.call rfl (.call ⟨rfl, rfl⟩ (.call ⟨rfl, rfl⟩ (.call (hoff _)
      (.call (hread _ _) (.call rfl (.call ⟨rfl, rfl⟩ (.call ⟨rfl, rfl⟩
        (.call (hon _) (.ret _ _))))))))))

theorem session_keeps_sample :
    SessionKeeps 7 [samplePassword, sampleAgain] ∧
    ∀ fuel echo stripNl, readStringLocals fuel passwordStatics echo stripNl =
      readStringInner fuel passwordStatics echo stripNl >>=
        fun r => .ret (r.map fun ok => (ok, .wiped)) :=
  session_keeps samplePassword_opened (by decide) samplePassword_run

end Session

end LibrePortable.Win
