import LibrePortable.Lib.Threads

/-!
# Starting the network

`BIO_sock_init` of `crypto/compat/b_win.c` starts Winsock and remembers that in a static
variable, which any thread reads and writes without a lock. Two threads may both find it
unset and both start Winsock, which only counts that; but once a call has returned 1, later
ones find the variable set. `BIO_sock_cleanup` does nothing, so the network stays.
-/

namespace LibrePortable.Sock

open Lib Prog Threads

/-- What the functions read, write and call. -/
inductive StackCall where
  /-- `wsa_init_done` -/
  | getDone
  | setDone
  | wsaStartup (version : Nat)
  | wsaGetLastError
  /-- `SYSerror(err)` -/
  | sysError (err : Int)
  /-- `BIOerror(BIO_R_WSASTARTUP)` -/
  | bioError

def StackAnswer : StackCall → Type
  | .getDone => Bool
  | .wsaStartup _ | .wsaGetLastError => Int
  | .setDone | .sysError _ | .bioError => Unit

abbrev StackProg : Type → Type := Prog StackCall StackAnswer

section Functions

def getDone : StackProg Bool := .call .getDone .ret
def setDone : StackProg Unit := .call .setDone .ret
def wsaStartup (version : Nat) : StackProg Int := .call (.wsaStartup version) .ret
def stackError : StackProg Int := .call .wsaGetLastError .ret
def sysError (err : Int) : StackProg Unit := .call (.sysError err) .ret
def bioError : StackProg Unit := .call .bioError .ret

/-- `MAKEWORD(2, 2)` -/
def versionRequested : Nat := 0x202

/-- `BIO_sock_init` -/
def bioSockInit : StackProg (Option Int) := do
  if (← getDone) = false then
    if (← wsaStartup versionRequested) ≠ 0 then
      let err ← stackError
      sysError err
      bioError
      return some (-1)
    else
      setDone
      return some 1
  else return some 1

/-- `BIO_sock_cleanup` -/
def bioSockCleanup : StackProg (Option Int) := return none

end Functions

inductive StackOp where
  | init
  | cleanup

def StackOp.program : StackOp → StackProg (Option Int)
  | .init => bioSockInit
  | .cleanup => bioSockCleanup

/-- The variable, and how often Winsock has been started. -/
structure Stack where
  done : Bool
  loads : Nat

/-- How a call is answered. -/
def Stack.Answers (s : Stack) : (e : StackCall) → StackAnswer e → Stack → Prop
  | .getDone, r, s' => r = s.done ∧ s' = s
  | .setDone, _, s' => s' = { s with done := true }
  | .wsaStartup _, rc, s' =>
      (rc = (0 : Int) ∧ s' = { s with loads := s.loads + 1 }) ∨ (rc ≠ (0 : Int) ∧ s' = s)
  | .wsaGetLastError, _, s' => s' = s
  | .sysError _, _, s' => s' = s
  | .bioError, _, s' => s' = s

/-- Threads that start the network. -/
def networks (Tid : Type) : Threads Tid StackCall StackAnswer StackOp (Option Int) Stack where
  Init s := s.done = false ∧ s.loads = 0
  program := StackOp.program
  Answers s _ := s.Answers

abbrev StackState (Tid : Type) := Threads.State Tid StackCall StackAnswer StackOp (Option Int) Stack
abbrev StackShown (Tid : Type) := Shown Tid StackCall StackAnswer StackOp (Option Int)

/-! ## What a call shows -/

section Shows

variable {Tid : Type}

/-- A call that finds the variable set. -/
def found (t : Tid) : List (StackShown Tid) := [.begin t .init, .act t .getDone true]

/-- A call that starts Winsock, with this answer. -/
def startedWith (t : Tid) (rc : Int) : List (StackShown Tid) :=
  [.begin t .init, .act t .getDone false, .act t (.wsaStartup versionRequested) rc]

/-- What it reports when that has failed. -/
def reported (t : Tid) (err : Int) : List (StackShown Tid) :=
  [.act t .wsaGetLastError err, .act t (.sysError err) (), .act t .bioError ()]

def succeeded (rc : Int) : Bool := rc == 0

/-- Winsock has been started. -/
def startsStack : StackShown Tid → Bool
  | .act _ (.wsaStartup _) rc => succeeded rc
  | _ => false

/-- Somebody has been told that the network is there. -/
def ToldStarted (es : List (StackShown Tid)) : Prop := ∃ u, .done u .init (some 1) ∈ es

variable [DecidableEq Tid]

/-- Why a call returns what it returns. -/
def StackReturned (pre : List (StackShown Tid)) (e : StackShown Tid) : Prop :=
  ∀ t r, e = .done t .init r →
    (r = some 1 ∧ (found t <:+ own t pre ∨ startedWith t 0 ++ [.act t .setDone ()] <:+ own t pre)) ∨
      r = some (-1) ∧ ∃ rc err, rc ≠ 0 ∧ startedWith t rc ++ reported t err <:+ own t pre

/-- A call starts Winsock only if nobody had been told yet when it looked. -/
def StackEarly (pre : List (StackShown Tid)) (e : StackShown Tid) : Prop :=
  ∀ t v rc, e = .act t (.wsaStartup v) rc → ∃ before mid,
    pre = before ++ .act t .getDone false :: mid ∧ ¬ ToldStarted before ∧ ∀ e ∈ mid, e.thread ≠ t

end Shows

/-! ## Where a thread can stand -/

/-- A point of `BIO_sock_init`. -/
inductive StackSpot where
  | look | start | set
  | error (rc : Int) | sys (rc err : Int) | bio (rc err : Int) | minus (rc err : Int)
  | one (found : Bool)

/-- What is still to be done there. -/
def StackSpot.code : StackSpot → StackProg (Option Int)
  | .look => bioSockInit
  | .start => do
    if (← wsaStartup versionRequested) ≠ 0 then
      let err ← stackError
      sysError err
      bioError
      return some (-1)
    else
      setDone
      return some 1
  | .set => do
    setDone
    return some 1
  | .error _ => do
    let err ← stackError
    sysError err
    bioError
    return some (-1)
  | .sys _ err => do
    sysError err
    bioError
    return some (-1)
  | .bio _ _ => do
    bioError
    return some (-1)
  | .minus _ _ => .ret (some (-1))
  | .one _ => .ret (some 1)

section Runs

variable {Tid : Type} [DecidableEq Tid] {es : List (StackShown Tid)} {e : StackShown Tid}
  {s s' : StackState Tid} {t : Tid}

/-- What the thread has shown since it began. -/
def StackSpot.shown (t : Tid) : StackSpot → List (StackShown Tid)
  | .look => [.begin t .init]
  | .start => [.begin t .init, .act t .getDone false]
  | .set => startedWith t 0
  | .error rc => startedWith t rc
  | .sys rc err => startedWith t rc ++ [.act t .wsaGetLastError err]
  | .bio rc err => startedWith t rc ++ [.act t .wsaGetLastError err, .act t (.sysError err) ()]
  | .minus rc err => startedWith t rc ++ reported t err
  | .one true => found t
  | .one false => startedWith t 0 ++ [.act t .setDone ()]

/-- What it knows there. -/
def StackSpot.Knows (es : List (StackShown Tid)) (s : Stack) (t : Tid) : StackSpot → Prop
  | .start => ∃ before mid, es = before ++ .act t .getDone false :: mid ∧ ¬ ToldStarted before ∧
      ∀ e ∈ mid, e.thread ≠ t
  | .set => 0 < s.loads
  | .one _ => s.done = true
  | .error rc | .sys rc _ | .bio rc _ | .minus rc _ => rc ≠ 0
  | .look => True

inductive StackStands (es : List (StackShown Tid)) (s : StackState Tid) (t : Tid) : Prop where
  | out : s.doing t = none → StackStands es s t
  | cleanup : s.doing t = some (.cleanup, bioSockCleanup) → StackStands es s t
  | inside (p : StackSpot) : s.doing t = some (.init, p.code) → p.shown t <:+ own t es →
      p.Knows es s.shared t → StackStands es s t

/-- What holds of the variable and the network. -/
structure StackInv (es : List (StackShown Tid)) (s : Stack) : Prop where
  loads : s.loads = es.countP startsStack
  done : s.done = true → 0 < s.loads
  told : ToldStarted es → s.done = true

/-- The variable is never cleared, and Winsock never stopped. -/
theorem stack_grows (h : (networks Tid).Step s e s') :
    (s.shared.done = true → s'.shared.done = true) ∧ s.shared.loads ≤ s'.shared.loads := by
  cases h with
  | begin | done => exact ⟨id, Nat.le_refl _⟩
  | @act t op c k r m hdo hans =>
      cases c with
      | getDone =>
          obtain ⟨-, rfl⟩ := hans
          exact ⟨id, Nat.le_refl _⟩
      | setDone =>
          obtain rfl : m = _ := hans
          exact ⟨fun _ => rfl, Nat.le_refl _⟩
      | wsaStartup v =>
          rcases hans with ⟨-, rfl⟩ | ⟨-, rfl⟩
          · exact ⟨id, Nat.le_succ _⟩
          · exact ⟨id, Nat.le_refl _⟩
      | wsaGetLastError | sysError | bioError =>
          obtain rfl : m = _ := hans
          exact ⟨id, Nat.le_refl _⟩

/-- **What others do** leaves a thread where it stands. -/
theorem StackStands.others (hst : StackStands es s t) (ht : t ≠ e.thread)
    (h : (networks Tid).Step s e s') : StackStands (es ++ [e]) s' t := by
  have hdoing : s'.doing t = s.doing t := h.doing_ne ht
  obtain ⟨hdone, hloads⟩ := stack_grows h
  cases hst with
  | out hout => exact .out (hdoing.trans hout)
  | cleanup hdo => exact .cleanup (hdoing.trans hdo)
  | inside p hdo hshown hknows =>
      refine .inside p (hdoing.trans hdo) (by rwa [own_ne ht]) ?_
      cases p with
      | start =>
          obtain ⟨before, mid, rfl, hearly, hmid⟩ := hknows
          refine ⟨before, mid ++ [e], by simp, hearly, fun e' he' => ?_⟩
          rcases List.mem_append.mp he' with hin | hin
          · exact hmid e' hin
          · rw [List.mem_singleton.mp hin]
            exact Ne.symm ht
      | set => exact Nat.lt_of_lt_of_le hknows hloads
      | one => exact hdone hknows
      | look | error | sys | bio | minus => exact hknows

/-- Whoever is about to make a call, or to return from `BIO_sock_init`, stands inside it. -/
theorem StackStands.spot {op : StackOp} {prog : StackProg (Option Int)}
    (hst : StackStands es s t) (hdo : s.doing t = some (op, prog))
    (hop : op = .init ∨ ∃ c k, prog = .call c k) :
    ∃ p : StackSpot, op = .init ∧ prog = p.code ∧ p.shown t <:+ own t es ∧
      p.Knows es s.shared t := by
  cases hst with
  | out hout => cases hdo.symm.trans hout
  | cleanup hdo' =>
      cases hdo.symm.trans hdo'
      rcases hop with hop | ⟨c, k, hop⟩ <;> cases hop
  | inside p hdo' hshown hknows =>
      cases hdo.symm.trans hdo'
      exact ⟨p, rfl, rfl, hshown, hknows⟩

/-- **One step of the thread itself.** -/
theorem StackStands.self (hst : StackStands es s e.thread) (hi : StackInv es s.shared)
    (h : (networks Tid).Step s e s') : StackStands (es ++ [e]) s' e.thread := by
  cases h with
  | @begin t op hout =>
      cases op with
      | init =>
          have hown : own t (es ++ [.begin t .init]) = own t es ++ [.begin t .init] :=
            own_self (e := (.begin t .init : StackShown Tid))
          exact .inside .look (State.goto_self ..) ⟨own t es, hown.symm⟩ trivial
      | cleanup => exact .cleanup (State.goto_self ..)
  | @act t op c k r m hdo hans =>
      obtain ⟨p, rfl, hcode, hshown, hknows⟩ := hst.spot hdo (.inr ⟨c, k, rfl⟩)
      have hnext : p.shown t ++ [.act t c r] <:+ own t (es ++ [.act t c r]) := suffix_own hshown
      cases p with
      | look =>
          cases hcode
          obtain ⟨rfl, rfl⟩ := hans
          cases hdone : s.shared.done with
          | true =>
              rw [hdone] at hnext
              exact .inside (.one true) (State.goto_self ..) hnext hdone
          | false =>
              rw [hdone] at hnext
              refine .inside .start (State.goto_self ..) hnext
                ⟨es, [], rfl, fun htold => ?_, nofun⟩
              cases hdone.symm.trans (hi.told htold)
      | start =>
          cases hcode
          rcases hans with ⟨rfl, rfl⟩ | ⟨hrc, rfl⟩
          · exact .inside .set (State.goto_self ..) hnext (Nat.succ_pos _)
          · have hfails : ∀ (rc : Int) (a b : StackProg (Option Int)), rc ≠ 0 →
                (if rc ≠ 0 then a else b) = a := fun _ _ _ h => if_pos h
            refine .inside (.error r) ((State.goto_self ..).trans ?_) hnext hrc
            exact congrArg (fun p => some (StackOp.init, p)) (hfails r _ _ hrc)
      | set =>
          cases hcode
          obtain rfl : m = _ := hans
          exact .inside (.one false) (State.goto_self ..) hnext rfl
      | error rc =>
          cases hcode
          exact .inside (.sys rc r) (State.goto_self ..) hnext hknows
      | sys rc err =>
          cases hcode
          exact .inside (.bio rc err) (State.goto_self ..) hnext hknows
      | bio rc err =>
          cases hcode
          exact .inside (.minus rc err) (State.goto_self ..) hnext hknows
      | minus | one => cases hcode
  | done => exact .out (State.goto_self ..)

/-- Why a thread makes the step it makes. -/
theorem StackStands.justified (hst : StackStands es s e.thread) (h : (networks Tid).Step s e s') :
    StackReturned es e ∧ StackEarly es e := by
  cases h with
  | begin => exact ⟨nofun, nofun⟩
  | @act t op c k r m hdo hans =>
      refine ⟨nofun, fun t' v rc heq => ?_⟩
      cases heq
      obtain ⟨p, rfl, hcode, -, hknows⟩ := hst.spot hdo (.inr ⟨_, k, rfl⟩)
      cases p with
      | start => exact hknows
      | look | set | error | sys | bio | minus | one => cases hcode
  | @done t op a hdo =>
      refine ⟨fun t' r heq => ?_, nofun⟩
      cases heq
      obtain ⟨p, -, hcode, hshown, hknows⟩ := hst.spot hdo (.inl rfl)
      cases p with
      | one looked =>
          cases hcode
          cases looked with
          | true => exact .inl ⟨rfl, .inl hshown⟩
          | false => exact .inl ⟨rfl, .inr hshown⟩
      | minus rc err =>
          cases hcode
          exact .inr ⟨rfl, rc, err, hknows, hshown⟩
      | look | start | set | error | sys | bio => cases hcode

/-- **One step**, for the variable and the network. -/
theorem StackInv.step (hi : StackInv es s.shared) (hst : StackStands es s e.thread)
    (h : (networks Tid).Step s e s') : StackInv (es ++ [e]) s'.shared := by
  obtain ⟨hkept, hgrown⟩ := stack_grows h
  refine ⟨?_, fun hdone => ?_, fun ⟨u, hu⟩ => ?_⟩
  · rw [List.countP_append, ← hi.loads]
    cases h with
    | begin | done => rfl
    | @act t op c k r m hdo hans =>
        cases c with
        | getDone =>
            obtain ⟨-, rfl⟩ := hans
            rfl
        | wsaStartup v =>
            rcases hans with ⟨rfl, rfl⟩ | ⟨hrc, rfl⟩
            · rfl
            · have hfails : ∀ rc : Int, rc ≠ 0 →
                  [(.act t (.wsaStartup v) rc : StackShown Tid)].countP startsStack = 0 := by
                intro rc hrc
                simp [startsStack, succeeded, hrc]
              exact (Nat.add_zero _).symm.trans (congrArg _ (hfails r hrc).symm)
        | setDone | wsaGetLastError | sysError | bioError =>
            obtain rfl : m = _ := hans
            rfl
  · by_cases hold : s.shared.done = true
    · exact Nat.lt_of_lt_of_le (hi.done hold) hgrown
    · -- whoever sets the variable has started Winsock
      cases h with
      | begin | done => exact absurd hdone hold
      | @act t op c k r m hdo hans =>
          obtain ⟨p, rfl, hcode, -, hknows⟩ := hst.spot hdo (.inr ⟨c, k, rfl⟩)
          cases p with
          | set => exact Nat.lt_of_lt_of_le hknows hgrown
          | look =>
              cases hcode
              obtain ⟨-, rfl⟩ := hans
              exact absurd hdone hold
          | start =>
              cases hcode
              rcases hans with ⟨-, rfl⟩ | ⟨-, rfl⟩ <;> exact absurd hdone hold
          | error | sys | bio =>
              cases hcode
              obtain rfl : m = _ := hans
              exact absurd hdone hold
          | minus | one => cases hcode
  · rcases List.mem_append.mp hu with hold | hnew
    · exact hkept (hi.told ⟨u, hold⟩)
    · have hlast : e = .done u .init (some 1) := (List.mem_singleton.mp hnew).symm
      subst hlast
      cases h with
      | done hdo =>
          obtain ⟨p, -, hcode, -, hknows⟩ := hst.spot hdo (.inl rfl)
          cases p with
          | one => exact hknows
          | look | start | set | error | sys | bio | minus => cases hcode

/-! ## Every run -/

theorem stackInv_history (h : (networks Tid).interleaved.History es s) :
    StackInv es s.shared ∧ ∀ t, StackStands es s t := by
  induction h with
  | init hinit =>
      obtain ⟨⟨hdone, hloads⟩, hout⟩ := hinit
      refine ⟨⟨hloads, fun hd => ?_, fun ⟨u, hu⟩ => by cases hu⟩, fun t => .out (hout t)⟩
      cases hdone.symm.trans hd
  | @tail es s s' e _ hs ih =>
      obtain ⟨hi, hst⟩ := ih
      refine ⟨hi.step (hst _) hs, fun t => ?_⟩
      by_cases ht : t = e.thread
      · rw [ht]
        exact (hst _).self hi hs
      · exact (hst t).others ht hs

end Runs

/--
**The network is there for whoever is told so.**

However any threads call `BIO_sock_init` and `BIO_sock_cleanup`: a call that returns 1 has
found the variable set or started Winsock and set it, and one that returns -1 has failed to
start it and has reported that. Once a call has returned 1 the network is there for good, and
no call that looks later starts Winsock again.
-/
theorem bioSockInit_starts {Tid : Type} [DecidableEq Tid] {es : List (StackShown Tid)}
    {s : StackState Tid} (h : (networks Tid).interleaved.History es s) :
    AtEvery StackReturned es ∧ AtEvery StackEarly es ∧
      s.shared.loads = es.countP startsStack ∧ (ToldStarted es → 0 < s.shared.loads) := by
  obtain ⟨hi, -⟩ := stackInv_history h
  have hwhy : AtEvery (fun es e => StackReturned es e ∧ StackEarly es e) es :=
    Lts.History.atEvery (fun _ _ _ _ h hs => ((stackInv_history h).2 _).justified hs) h
  exact ⟨fun pre e post hes => (hwhy pre e post hes).1,
    fun pre e post hes => (hwhy pre e post hes).2, hi.loads, fun htold => hi.done (hi.told htold)⟩

/-- Both threads have found the variable unset, and both have started Winsock. -/
theorem bioSockInit_starts_raced :
    let es : List (StackShown Bool) :=
      [.begin true .init, .begin false .init, .act true .getDone false, .act false .getDone false,
        .act true (.wsaStartup versionRequested) (0 : Int),
        .act false (.wsaStartup versionRequested) (0 : Int), .act true .setDone (),
        .done true .init (some 1)]
    ∃ s, (networks Bool).interleaved.History es s ∧ AtEvery StackReturned es ∧
      AtEvery StackEarly es ∧ s.shared.loads = 2 := by
  intro es
  have h0 : (networks Bool).interleaved.History [] ⟨⟨false, 0⟩, fun _ => none⟩ :=
    .init ⟨⟨rfl, rfl⟩, fun _ => rfl⟩
  have h1 := h0.tail (Step.begin (t := true) .init rfl)
  have h2 := h1.tail (Step.begin (t := false) .init rfl)
  have h3 := h2.tail (Step.act (t := true) (r := false) rfl ⟨rfl, rfl⟩)
  have h4 := h3.tail (Step.act (t := false) (r := false) rfl ⟨rfl, rfl⟩)
  have hstarts : ∀ (s : StackState Bool) t, s.doing t = some (.init, StackSpot.start.code) →
      (networks Bool).Step s (.act t (.wsaStartup versionRequested) (0 : Int))
        (s.goto { s.shared with loads := s.shared.loads + 1 } t
          (some (.init, StackSpot.set.code))) :=
    fun _ _ hdo => Step.act hdo (.inl ⟨rfl, rfl⟩)
  have h5 := h4.tail (hstarts _ true rfl)
  have h6 := h5.tail (hstarts _ false rfl)
  have h7 := h6.tail (Step.act (t := true) (r := ()) rfl rfl)
  have h8 := h7.tail (Step.done (t := true) rfl)
  obtain ⟨hreturned, hearly, hloads, -⟩ := bioSockInit_starts h8
  exact ⟨_, h8, hreturned, hearly, hloads⟩

end LibrePortable.Sock
