import Mathlib.Algebra.BigOperators.Group.List.Basic
import Mathlib.Algebra.Ring.Int.Defs
import LibrePortable.Win.Console

/-!
# Who holds the lock of the console

A session takes `CRYPTO_LOCK_UI` when it opens and gives it back when it closes.
`open_console` takes it first and looks at the console afterwards, and where the
console is not usable it returns 0 with the lock in hand. The caller does not close
a session that did not open, so the lock stays taken.
-/

namespace LibrePortable.Win

open Lib Prog Console

/-! ## Taking and giving back -/

/-- What a call does to the number of times the lock is held. -/
def lockDelta : ConsoleCall → Int
  | .wLock => 1
  | .wUnlock => -1
  | _ => 0

/-- Takes less gives of a trace. -/
def balance (tr : List (Event ConsoleCall ConsoleAnswer)) : Int :=
  (tr.map fun ev => lockDelta ev.1).sum

@[simp] theorem balance_nil : balance [] = 0 := rfl

@[simp] theorem balance_cons (e : ConsoleCall) (r : ConsoleAnswer e)
    (tr : List (Event ConsoleCall ConsoleAnswer)) :
    balance (⟨e, r⟩ :: tr) = lockDelta e + balance tr := by
  simp [balance]

theorem balance_append (tr₁ tr₂ : List (Event ConsoleCall ConsoleAnswer)) :
    balance (tr₁ ++ tr₂) = balance tr₁ + balance tr₂ := by
  simp [balance]

/-- A callback that leaves the lock alone. -/
abbrev Quiet {α : Type} (p : ConsoleProg α) : Prop := p.OnlyCalls fun e => lockDelta e = 0

theorem balance_of_quiet {α : Type} {p : ConsoleProg α}
    {tr : List (Event ConsoleCall ConsoleAnswer)} {a : α} (hp : Quiet p) (h : Runs p tr a) :
    balance tr = 0 := by
  have hz := hp.runs h
  clear h
  induction tr with
  | nil => rfl
  | cons ev tr ih =>
      rw [balance_cons, hz ev List.mem_cons_self, ih fun ev he => hz ev (List.mem_cons_of_mem _ he)]
      rfl

/-- The calls of a callback are quiet one by one. -/
theorem quiet_call {α : Type} {e : ConsoleCall} {k : ConsoleAnswer e → ConsoleProg α}
    (he : lockDelta e = 0) (hk : ∀ r, Quiet (k r)) : Quiet (.call e k) :=
  ⟨he, hk⟩

theorem changeMode_quiet (mode : DWORD) : Quiet (changeMode mode) := by
  refine quiet_call rfl fun (handle : Handle) => .ite ?_ trivial
  refine quiet_call rfl fun (type : DWORD) => .ite ?_ trivial
  exact quiet_call rfl fun _ => trivial

theorem writeString_quiet (st : Statics) (uis : UiString) : Quiet (writeString st uis) := by
  obtain ⟨type, _, _, _, _⟩ := uis
  cases type with
  | UIT_ERROR | UIT_INFO => exact quiet_call rfl fun _ => quiet_call rfl fun _ => trivial
  | UIT_NONE | UIT_PROMPT | UIT_VERIFY | UIT_BOOLEAN => trivial

/-- The calls that read an answer and hand it on. -/
def IsRead : ConsoleCall → Prop
  | .fgets .. | .feof _ | .ferror _ | .setResult _ => True
  | _ => False

theorem readTillNl_reads (stream : Option Stream) (fuel : Nat) :
    (readTillNl stream fuel).OnlyCalls IsRead := by
  induction fuel with
  | zero => trivial
  | succ fuel ih =>
      refine ⟨trivial, fun (buf : Option Text) => ?_⟩
      cases buf with
      | none => trivial
      | some buf => exact .ite trivial ih

theorem readResult_reads (fuel : Nat) (st : Statics) (stripNl : Bool) :
    (readResult fuel st stripNl).OnlyCalls IsRead := by
  have hkeep : ∀ result, (keepResult result).OnlyCalls IsRead :=
    fun result => ⟨trivial, fun _ => trivial⟩
  refine ⟨trivial, fun (result : Option Text) => ?_⟩
  cases result with
  | none => trivial
  | some result =>
      refine ⟨trivial, fun (eof : CInt) => .ite trivial ⟨trivial, fun (error : CInt) => ?_⟩⟩
      refine .ite trivial (.ite (hkeep _) ((readTillNl_reads _ fuel).bind fun rc => ?_))
      split
      · trivial
      · trivial
      · exact hkeep _

theorem readResult_quiet (fuel : Nat) (st : Statics) (stripNl : Bool) :
    Quiet (readResult fuel st stripNl) := by
  refine (readResult_reads fuel st stripNl).mono fun e he => ?_
  cases e with
  | fgets | feof | ferror | setResult => rfl
  | _ => exact he.elim

theorem readStringInner_quiet (fuel : Nat) (st : Statics) (echo stripNl : Bool) :
    Quiet (readStringInner fuel st echo stripNl) := by
  refine .ite (readResult_quiet fuel st stripNl) ?_
  refine (changeMode_quiet _).bind fun rc => .ite (quiet_call rfl fun _ => trivial) ?_
  refine (readResult_quiet fuel st stripNl).bind fun ok => ?_
  cases ok with
  | none => trivial
  | some ok =>
      exact quiet_call rfl fun _ => (changeMode_quiet _).bind fun rc => .ite trivial trivial

theorem readString_quiet (fuel : Nat) (st : Statics) (uis : UiString) :
    Quiet (readString fuel st uis) := by
  obtain ⟨type, _, _, _, _⟩ := uis
  cases type with
  | UIT_BOOLEAN =>
      exact quiet_call rfl fun _ => quiet_call rfl fun _ => quiet_call rfl fun _ =>
        readStringInner_quiet ..
  | UIT_PROMPT =>
      exact quiet_call rfl fun _ => quiet_call rfl fun _ => readStringInner_quiet ..
  | UIT_VERIFY =>
      refine quiet_call rfl fun _ => quiet_call rfl fun _ =>
        (readStringInner_quiet ..).bind fun ok => ?_
      cases ok with
      | none => trivial
      | some ok =>
          refine .ite trivial ?_
          refine quiet_call rfl fun (result : Text) => .ite ?_ trivial
          exact quiet_call rfl fun _ => quiet_call rfl fun _ => trivial
  | UIT_NONE | UIT_INFO | UIT_ERROR => trivial

/-! ## Opening and closing -/

def Handle.Invalid (handle : Handle) : Prop := handle = .null ∨ handle = .INVALID_HANDLE_VALUE

/-- An answer that says the console cannot be used. -/
def Refused : Event ConsoleCall ConsoleAnswer → Prop
  | ⟨.getStdHandle, handle⟩ => Handle.Invalid handle
  | ⟨.getConsoleMode _, answer⟩ => answer.1 = (0 : CInt)
  | _ => False

/-- **`open_console` always takes the lock**, and reports success exactly when nothing
it asked was refused. -/
theorem openConsole_runs {st : Statics} {tr : List (Event ConsoleCall ConsoleAnswer)}
    {rc : CInt × Statics} (h : Runs (openConsole st) tr rc) :
    balance tr = 1 ∧ (rc.1 ≠ 0 ↔ ∀ ev ∈ tr, ¬ Refused ev) := by
  obtain ⟨u, tr₁, rfl, h₁⟩ := runs_call.mp h
  obtain ⟨(handle : Handle), tr₂, rfl, h₂⟩ := runs_call.mp h₁
  rcases Runs.ite_inv h₂ with ⟨hok, h₃⟩ | ⟨hbad, h₃⟩
  · have hok' : ¬ handle.Invalid := not_or.mpr hok
    obtain ⟨(type : DWORD), tr₃, rfl, h₄⟩ := runs_call.mp h₃
    rcases Runs.ite_inv h₄ with ⟨hchar, h₅⟩ | ⟨hchar, h₅⟩
    · -- a console: the answer of `GetConsoleMode` decides
      obtain ⟨(answer : CInt × DWORD), tr₄, rfl, h₆⟩ := runs_call.mp h₅
      obtain ⟨rfl, rfl⟩ := runs_ret.mp h₆
      refine ⟨rfl, ?_⟩
      simp [Refused, hok']
    · obtain ⟨rfl, rfl⟩ := runs_ret.mp h₅
      refine ⟨rfl, ?_⟩
      simp [Refused, hok']
  · have hr : handle.Invalid := by
      by_contra hn
      exact hbad (not_or.mp hn)
    obtain ⟨rfl, rfl⟩ := runs_ret.mp h₃
    refine ⟨rfl, ?_⟩
    simp [Refused, hr]

theorem closeConsole_runs {st : Statics} {tr : List (Event ConsoleCall ConsoleAnswer)} {rc : CInt}
    (h : Runs (closeConsole st) tr rc) : balance tr = -1 := by
  have hq : ∀ own tty, Quiet (fcloseUnless own tty) := fun _ _ =>
    .ite (quiet_call rfl fun _ => trivial) trivial
  obtain ⟨tr₁, tr₂, _, rfl, h₁, h'⟩ := h.bind_inv
  obtain ⟨tr₂, tr₃, _, rfl, h₂, h''⟩ := h'.bind_inv
  obtain ⟨u, tr₃, rfl, h₃⟩ := runs_call.mp h''
  obtain ⟨rfl, rfl⟩ := runs_ret.mp h₃
  rw [balance_append, balance_append, balance_of_quiet (hq _ _) h₁, balance_of_quiet (hq _ _) h₂]
  rfl

/-! ## Sessions -/

/-- A callback the caller may invoke. -/
inductive UiCall where
  | openSession
  | writeString (uis : UiString)
  | readString (uis : UiString)
  | closeSession

/-- The callback behind each entry of `ui_openssl`, with the statics it leaves. -/
def UiCall.prog (fuel : Nat) (st : Statics) : UiCall → ConsoleProg (Option CInt × Statics)
  | .openSession => do
    let (rc, st) ← openConsole st
    return (some rc, st)
  | .writeString uis => do return (some (← Console.writeString st uis), st)
  | .readString uis => do return (← Console.readString fuel st uis, st)
  | .closeSession => do return (some (← closeConsole st), st)

/-- One invocation: what was called, the calls it made, and what it returned. -/
structure UiEvent where
  call : UiCall
  trace : List (Event ConsoleCall ConsoleAnswer)
  rc : CInt

/-- The process between two callbacks. -/
structure UiState where
  statics : Statics
  /-- The caller is in a session: `open_console` returned nonzero. -/
  inside : Bool
  /-- How often `CRYPTO_LOCK_UI` is held. -/
  held : Int

/-- When the caller makes a call: a session is opened once and closed once, and one
that did not open is not closed. -/
def UiCall.Allowed (inside : Bool) : UiCall → Prop
  | .openSession => inside = false
  | .writeString _ | .readString _ | .closeSession => inside = true

/-- Whether a session is open after a callback returned `rc`. -/
def UiCall.inside (rc : CInt) : UiCall → Bool
  | .openSession => rc ≠ 0
  | .writeString _ | .readString _ => true
  | .closeSession => false

/-- Sessions one after another, with every answer of the console and the streams. -/
def uiSessions : Lts UiState UiEvent where
  Init s := s.inside = false ∧ s.held = 0
  Step s e s' := e.call.Allowed s.inside ∧
    (∃ fuel, Runs (e.call.prog fuel s.statics) e.trace (some e.rc, s'.statics)) ∧
    s'.inside = e.call.inside e.rc ∧ s'.held = s.held + balance e.trace

/-- Outside a session the lock is not held, inside one it is held once. -/
def Locked (s : UiState) : Prop := s.held = if s.inside then 1 else 0

/-- An open that finds the console usable: nothing it asks is refused. -/
def UiEvent.Usable (e : UiEvent) : Prop :=
  match e.call with
  | .openSession => ∀ ev ∈ e.trace, ¬ Refused ev
  | _ => True

/-- One callback keeps the lock in step with the session, unless it is an open that
is refused something; and then it does not. -/
theorem step_locked {s s' : UiState} {e : UiEvent} (h : uiSessions.Step s e s') (hl : Locked s) :
    Locked s' ↔ e.Usable := by
  obtain ⟨ha, ⟨fuel, hr⟩, hin, hheld⟩ := h
  obtain ⟨call, tr, rc⟩ := e
  cases call with
  | openSession =>
      obtain ⟨tr₁, tr₂, out, rfl, h₁, h₂⟩ := hr.bind_inv
      obtain ⟨rfl, hret⟩ := runs_ret.mp h₂
      obtain ⟨rfl, -⟩ : rc = out.1 ∧ s'.statics = out.2 := by simpa using hret
      obtain ⟨hb, hrc⟩ := openConsole_runs h₁
      have hout : s.held = 0 := by simpa [Locked, show s.inside = false from ha] using hl
      have hs' : s'.inside = decide (out.1 ≠ 0) := hin
      simp only [List.append_nil, hb, hout] at hheld
      simp only [Locked, hs', hheld, UiEvent.Usable, List.append_nil, ← hrc]
      by_cases h0 : out.1 = 0 <;> simp [h0]
  | writeString uis =>
      obtain ⟨tr₁, tr₂, out, rfl, h₁, h₂⟩ := hr.bind_inv
      obtain ⟨rfl, -⟩ := runs_ret.mp h₂
      have hb := balance_of_quiet (writeString_quiet _ _) h₁
      have hs : s.inside = true := ha
      have hs' : s'.inside = true := hin
      simp only [Locked, hs, if_true] at hl
      simp [Locked, hs', hheld, hl, hb, UiEvent.Usable]
  | readString uis =>
      obtain ⟨tr₁, tr₂, out, rfl, h₁, h₂⟩ := hr.bind_inv
      obtain ⟨rfl, -⟩ := runs_ret.mp h₂
      have hb := balance_of_quiet (readString_quiet _ _ _) h₁
      have hs : s.inside = true := ha
      have hs' : s'.inside = true := hin
      simp only [Locked, hs, if_true] at hl
      simp [Locked, hs', hheld, hl, hb, UiEvent.Usable]
  | closeSession =>
      obtain ⟨tr₁, tr₂, out, rfl, h₁, h₂⟩ := hr.bind_inv
      obtain ⟨rfl, -⟩ := runs_ret.mp h₂
      have hb := closeConsole_runs h₁
      have hs : s.inside = true := ha
      have hs' : s'.inside = false := hin
      simp only [Locked, hs, if_true] at hl
      simp [Locked, hs', hheld, hl, hb, UiEvent.Usable]

/--
**The lock follows the session exactly in the runs where every open finds the console
usable.**

All states of a run have the lock held once inside a session and not at all outside
if and only if no open of the run was given an invalid handle or a failing
`GetConsoleMode`.
-/
theorem console_locked_iff {s₀ s : UiState} {es : List UiEvent} (hi : uiSessions.Init s₀)
    (hp : uiSessions.Path s₀ es s) :
    (∀ es₁ es₂ s₁, es = es₁ ++ es₂ → uiSessions.Path s₀ es₁ s₁ → Locked s₁) ↔
      ∀ e ∈ es, e.Usable := by
  constructor
  · intro hl e he
    obtain ⟨es₁, es₂, rfl⟩ := List.append_of_mem he
    obtain ⟨s₁, hp₁, hp₂⟩ := hp.split
    cases hp₂ with
    | cons hs _ =>
        have hl₁ := hl es₁ (e :: es₂) _ rfl hp₁
        have hl₂ := hl (es₁ ++ [e]) es₂ _ (by simp) (hp₁.append (.cons hs (.nil _)))
        exact (step_locked hs hl₁).mp hl₂
  · intro hu es₁ es₂ s₁ heq hp₁
    subst heq
    have h₀ : Locked s₀ := by simp [Locked, hi.1, hi.2]
    exact hp₁.invariant (P := Locked) (Q := UiEvent.Usable)
      (fun s e s' hl he hs => (step_locked hs hl).mpr he) h₀
      fun e he => hu e (List.mem_append_left _ he)

/-- The statics before the first session. -/
def noStatics : Statics := ⟨0, none, none, 0⟩

/-- The statics a successful open leaves, with the mode the console had. -/
def openStatics (mode : DWORD) : Statics := ⟨mode, some .stdin, some .stderr, 1⟩

/-- An open on a console whose mode can be read. -/
def usableOpen : UiEvent where
  call := .openSession
  trace := [⟨.wLock, ()⟩, ⟨.getStdHandle, Handle.ok 3⟩, ⟨.getFileType (.ok 3), FILE_TYPE_CHAR⟩,
    ⟨.getConsoleMode (.ok 3), ((1 : CInt), (7 : DWORD))⟩]
  rc := 1

/-- A prompt with echo, at which the input ends. -/
def endedPrompt : UiEvent where
  call := .readString ⟨.UIT_PROMPT, ['P'], [], [], 1⟩
  trace := [⟨.fputs ['P'] (some .stderr), ()⟩, ⟨.fflush (some .stderr), ()⟩,
    ⟨.fgets 511 (some .stdin), (none : Option Text)⟩]
  rc := 0

def sessionClose : UiEvent where
  call := .closeSession
  trace := [⟨.wUnlock, ()⟩]
  rc := 1

theorem path_session : uiSessions.Path ⟨noStatics, false, 0⟩ [usableOpen, endedPrompt, sessionClose]
    ⟨openStatics 7, false, 0⟩ := by
  have hopen : Runs (UiCall.openSession.prog 0 noStatics) usableOpen.trace
      (some 1, openStatics 7) := .call _ (.call _ (.call _ (.call _ (.ret _))))
  have hread : Runs (endedPrompt.call.prog 0 (openStatics 7)) endedPrompt.trace
      (some 0, openStatics 7) := .call _ (.call _ (.call _ (.ret _)))
  have hclose : Runs (UiCall.closeSession.prog 0 (openStatics 7)) sessionClose.trace
      (some 1, openStatics 7) := .call _ (.ret _)
  have h₁ : uiSessions.Step ⟨noStatics, false, 0⟩ usableOpen ⟨openStatics 7, true, 1⟩ :=
    ⟨rfl, ⟨0, hopen⟩, rfl, rfl⟩
  have h₂ : uiSessions.Step ⟨openStatics 7, true, 1⟩ endedPrompt ⟨openStatics 7, true, 1⟩ :=
    ⟨rfl, ⟨0, hread⟩, rfl, rfl⟩
  have h₃ : uiSessions.Step ⟨openStatics 7, true, 1⟩ sessionClose ⟨openStatics 7, false, 0⟩ :=
    ⟨rfl, ⟨0, hclose⟩, rfl, rfl⟩
  exact .cons h₁ (.cons h₂ (.cons h₃ (.nil _)))

/-- All the way through a session the lock is in step. -/
theorem console_locked_iff_session :
    uiSessions.Path ⟨noStatics, false, 0⟩ [usableOpen, endedPrompt, sessionClose]
        ⟨openStatics 7, false, 0⟩ ∧
      ∀ es₁ es₂ s₁, [usableOpen, endedPrompt, sessionClose] = es₁ ++ es₂ →
        uiSessions.Path ⟨noStatics, false, 0⟩ es₁ s₁ → Locked s₁ := by
  refine ⟨path_session, (console_locked_iff ⟨rfl, rfl⟩ path_session).mpr ?_⟩
  have husable : usableOpen.Usable := by
    intro ev hev
    simp only [usableOpen, List.mem_cons, List.not_mem_nil, or_false] at hev
    rcases hev with rfl | rfl | rfl | rfl <;> simp [Refused, Handle.Invalid]
  intro e he
  simp only [List.mem_cons, List.not_mem_nil, or_false] at he
  rcases he with rfl | rfl | rfl
  · exact husable
  · trivial
  · trivial

/-- **With no standard input the lock stays taken**: `open_console` returns 0 holding it. -/
theorem console_lock_lost :
    ¬ ∀ s : UiState, uiSessions.Reachable s → Locked s := by
  intro h
  have h₀ : uiSessions.Reachable ⟨noStatics, false, 0⟩ := .init ⟨rfl, rfl⟩
  have h₁ : uiSessions.Reachable ⟨openStatics 0, false, 1⟩ := h₀.tail
    (e := ⟨.openSession, [⟨.wLock, ()⟩, ⟨.getStdHandle, Handle.null⟩], 0⟩)
    ⟨rfl, ⟨0, .call _ (.call _ (.ret _))⟩, rfl, rfl⟩
  exact absurd (h _ h₁) (by simp [Locked])

end LibrePortable.Win
