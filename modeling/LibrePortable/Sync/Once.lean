import LibrePortable.Lib.Threads

/-!
# Once

On Windows `pthread_once` hands its callback, wrapped into one that always succeeds, to
`InitOnceExecuteOnce`. What that does with a block is a parameter. It is documented to run
the callback of whoever finds the block unused, to let the others wait meanwhile, and to do
nothing once a callback has succeeded. So of all callbacks that any threads bring, one runs,
and nobody goes on before it has returned.
-/

namespace LibrePortable.Sync

open Lib Prog Threads

/-- What `InitOnceExecuteOnce` does when it is called: it runs the callback, or returns. -/
inductive Reply where
  | runs
  | returns (rc : Bool)

/-- What a thread does inside `pthread_once`. Entering a callback and leaving it are two
steps: others move in between. -/
inductive OnceCall (Cb : Type) where
  /-- `InitOnceExecuteOnce` is called. -/
  | initOnceExecuteOnce
  | enter (cb : Cb)
  | leave (cb : Cb)
  /-- The callback that `InitOnceExecuteOnce` runs has returned. -/
  | ran (ok : Bool)

/-- Once the callback has returned, `InitOnceExecuteOnce` returns too. -/
def OnceAnswer {Cb : Type} : OnceCall Cb → Type
  | .initOnceExecuteOnce => Reply
  | .ran _ => Bool
  | _ => Unit

abbrev OnceProg (Cb : Type) : Type → Type := Prog (OnceCall Cb) OnceAnswer

section Functions

variable {Cb : Type}

/-- `cb()` -/
def callback (cb : Cb) : OnceProg Cb Unit := do
  Prog.call (.enter cb) .ret
  Prog.call (.leave cb) .ret

def callbackRan (ok : Bool) : OnceProg Cb Bool := .call (.ran ok) .ret

/-- A call of `InitOnceExecuteOnce`, which may call back. -/
def initOnceExecuteOnce (initFn : OnceProg Cb Bool) : OnceProg Cb Bool :=
  .call .initOnceExecuteOnce fun
    | .returns rc => return rc
    | .runs => do
      let ok ← initFn
      callbackRan ok

/-- `_pthread_once_win32_cb` -/
def pthreadOnceWin32Cb (cb : Cb) : OnceProg Cb Bool := do
  callback cb
  return true

def einval : Int := 22

/-- `pthread_once` -/
def pthreadOnce (cb : Cb) : OnceProg Cb Int := do
  let rc ← initOnceExecuteOnce (pthreadOnceWin32Cb cb)
  if rc = false then return einval else return 0

end Functions

/-! ## The block -/

variable {Tid Cb : Type}

/-- What `InitOnceExecuteOnce` does with an `INIT_ONCE` block. -/
structure InitOnce (Tid : Type) where
  Block : Type
  /-- INIT_ONCE_STATIC_INIT -/
  Static : Block → Prop
  /-- Thread `t` calls it, and finds the block as it is. -/
  Called : Block → (t : Tid) → Reply → Block → Prop
  /-- The callback of thread `t` has returned `ok`, and it returns `rc`. -/
  Ran : Block → (t : Tid) → (ok rc : Bool) → Block → Prop

/-- How the documentation speaks of a block. -/
inductive Stage (Tid : Type) where
  | fresh
  | running (t : Tid)
  | complete

/-- What is documented of `InitOnceExecuteOnce`. Nothing is asked of a callback that fails. -/
structure InitOnce.Documented (O : InitOnce Tid) (stage : O.Block → Stage Tid) : Prop where
  static : ∀ {b}, O.Static b → stage b = .fresh
  /-- A callback is run only if none is running and none has succeeded. -/
  runs : ∀ {b t b'}, O.Called b t .runs b' → stage b = .fresh ∧ stage b' = .running t
  /-- Who does not run a callback has waited for one to succeed. -/
  returns : ∀ {b t rc b'}, O.Called b t (.returns rc) b' →
    stage b = .complete ∧ rc = true ∧ stage b' = .complete
  succeeds : ∀ {b t rc b'}, O.Ran b t true rc b' → rc = true ∧ stage b' = .complete
  /-- Nobody waits but for a callback that is running. -/
  waits : ∀ b, (∀ u, stage b ≠ .running u) → ∀ t, ∃ reply b', O.Called b t reply b'
  ends : ∀ b t ok, stage b = .running t → ∃ rc b', O.Ran b t ok rc b'

/-- How what a thread does is answered. -/
def InitOnce.Answers (O : InitOnce Tid) (b : O.Block) (t : Tid) :
    (e : OnceCall Cb) → OnceAnswer e → O.Block → Prop
  | .initOnceExecuteOnce, reply, b' => O.Called b t reply b'
  | .enter _, _, b' => b' = b
  | .leave _, _, b' => b' = b
  | .ran ok, rc, b' => O.Ran b t ok rc b'

/-- Threads that call `pthread_once` for one block. -/
def once (O : InitOnce Tid) (Cb : Type) : Threads Tid (OnceCall Cb) OnceAnswer Cb Int O.Block where
  Init := O.Static
  program := pthreadOnce
  Answers := O.Answers

abbrev OnceState (O : InitOnce Tid) (Cb : Type) :=
  Threads.State Tid (OnceCall Cb) OnceAnswer Cb Int O.Block
abbrev OnceShown (Tid Cb : Type) := Shown Tid (OnceCall Cb) OnceAnswer Cb Int

/-- The callback that is entered. -/
def OnceShown.enters : OnceShown Tid Cb → Option Cb
  | .act _ (.enter cb) _ => some cb
  | _ => none

/-- The callback that has returned. -/
def OnceShown.leaves : OnceShown Tid Cb → Option Cb
  | .act _ (.leave cb) _ => some cb
  | _ => none

/-- The callbacks entered so far, and those that have returned. -/
def entered (es : List (OnceShown Tid Cb)) : List Cb := es.filterMap OnceShown.enters
def left (es : List (OnceShown Tid Cb)) : List Cb := es.filterMap OnceShown.leaves

/-- A call returns 0, with one callback over and none under way. -/
def Settled (pre : List (OnceShown Tid Cb)) (e : OnceShown Tid Cb) : Prop :=
  ∀ t cb r, e = .done t cb r → r = 0 ∧ ∃ c, entered pre = [c] ∧ left pre = [c]

/-! ## Where a thread can stand -/

/-- A point of `pthread_once`. -/
inductive Spot (Cb : Type) where
  | out | look (cb : Cb) | enter (cb : Cb) | leave (cb : Cb) | finish (cb : Cb) | back (cb : Cb)

/-- What is still to be run there. -/
def Spot.code : Spot Cb → Option (Cb × OnceProg Cb Int)
  | .out => none
  | .look cb => some (cb, pthreadOnce cb)
  | .enter cb => some (cb, do
      let ok ← pthreadOnceWin32Cb cb
      let rc ← callbackRan ok
      if rc = false then return einval else return 0)
  | .leave cb => some (cb, do
      Prog.call (.leave cb) .ret
      let rc ← callbackRan true
      if rc = false then return einval else return 0)
  | .finish cb => some (cb, do
      let rc ← callbackRan true
      if rc = false then return einval else return 0)
  | .back cb => some (cb, .ret 0)

/-- The callbacks entered and left when the thread that has the block stands there. -/
def Spot.ran : Spot Cb → Option (List Cb × List Cb)
  | .enter _ => some ([], [])
  | .leave cb => some ([cb], [])
  | .finish cb => some ([cb], [cb])
  | _ => none

/-- `OnceMove t b p e b' p'`: thread `t` goes from `p` to `p'`, which shows `e`, and the block
from stage `b` to `b'`. -/
inductive OnceMove (t : Tid) : Stage Tid → Spot Cb → OnceShown Tid Cb → Stage Tid → Spot Cb → Prop
    where
  | begin {b} (cb) : OnceMove t b .out (.begin t cb) b (.look cb)
  | take {cb} :
      OnceMove t .fresh (.look cb) (.act t .initOnceExecuteOnce .runs) (.running t) (.enter cb)
  | skip {cb} : OnceMove t .complete (.look cb)
      (.act t .initOnceExecuteOnce (.returns true)) .complete (.back cb)
  | enter {b cb} : OnceMove t b (.enter cb) (.act t (.enter cb) ()) b (.leave cb)
  | leave {b cb} : OnceMove t b (.leave cb) (.act t (.leave cb) ()) b (.finish cb)
  | finish {b cb} : OnceMove t b (.finish cb) (.act t (.ran true) true) .complete (.back cb)
  | done {b cb} : OnceMove t b (.back cb) (.done t cb 0) b .out

section Runs

variable [DecidableEq Tid] {O : InitOnce Tid} {stage : O.Block → Stage Tid}
  {es : List (OnceShown Tid Cb)} {e : OnceShown Tid Cb} {s s' : OnceState O Cb}
  {b b' : Stage Tid} {p p' : Spot Cb} {t : Tid}

/-- **Every step of a thread is a move.** -/
theorem once_move (hO : O.Documented stage) (h : (once O Cb).Step s e s')
    (hp : s.doing e.thread = p.code) :
    ∃ m p', s' = s.goto m e.thread p'.code ∧
      OnceMove e.thread (stage s.shared) p e (stage m) p' := by
  cases h with
  | @begin t cb hout =>
      have hp : s.doing t = p.code := hp
      cases p with
      | out => exact ⟨_, .look cb, rfl, .begin cb⟩
      | look | enter | leave | finish | back => rw [hout] at hp; cases hp
  | @act t cb c k r m hdo hans =>
      have hp : some (cb, .call c k) = p.code := hdo.symm.trans hp
      cases p with
      | look cb' =>
          cases hp
          cases r with
          | runs =>
              obtain ⟨hb, hm⟩ := hO.runs hans
              exact ⟨m, .enter cb, rfl, by rw [hb, hm]; exact .take⟩
          | returns rc =>
              obtain ⟨hb, rfl, hm⟩ := hO.returns hans
              exact ⟨m, .back cb, rfl, by rw [hb, hm]; exact .skip⟩
      | enter cb' =>
          cases hp
          obtain rfl : m = s.shared := hans
          exact ⟨_, .leave cb, rfl, .enter⟩
      | leave cb' =>
          cases hp
          obtain rfl : m = s.shared := hans
          exact ⟨_, .finish cb, rfl, .leave⟩
      | finish cb' =>
          cases hp
          obtain ⟨rfl, hm⟩ := hO.succeeds hans
          exact ⟨m, .back cb, rfl, by rw [hm]; exact .finish⟩
      | out | back => cases hp
  | @done t cb a hdo =>
      have hp : some (cb, .ret a) = p.code := hdo.symm.trans hp
      cases p with
      | back cb' =>
          cases hp
          exact ⟨_, .out, rfl, .done⟩
      | out | look | enter | leave | finish => cases hp

omit [DecidableEq Tid] in
/-- Only 0 is returned. -/
theorem OnceMove.of_done {u : Tid} {cb : Cb} {r : Int} (h : OnceMove t b p (.done u cb r) b' p') :
    p = .back cb ∧ r = 0 := by
  cases h
  exact ⟨rfl, rfl⟩

/-! ## What the block says of the threads -/

omit [DecidableEq Tid] in
@[simp] theorem entered_snoc : entered (es ++ [e]) = entered es ++ e.enters.toList := by
  cases he : e.enters <;> simp [entered, he]

omit [DecidableEq Tid] in
@[simp] theorem left_snoc : left (es ++ [e]) = left es ++ e.leaves.toList := by
  cases he : e.leaves <;> simp [left, he]

/-- `OnceInv E L b spots`: the callbacks `E` have been entered and `L` have returned. -/
structure OnceInv (E L : List Cb) (b : Stage Tid) (spots : Tid → Spot Cb) : Prop where
  fresh : b = .fresh → E = [] ∧ L = []
  running : ∀ u, b = .running u → (spots u).ran = some (E, L)
  complete : b = .complete → ∃ cb, E = [cb] ∧ L = [cb]
  alone : ∀ u, (spots u).ran ≠ none → b = .running u
  back : ∀ u cb, spots u = .back cb → b = .complete

variable {E L : List Cb} {spots : Tid → Spot Cb}

/-- A thread that has not got the block goes somewhere else without it. -/
theorem OnceInv.aside (hi : OnceInv E L b spots) (hold : (spots t).ran = none)
    (hnew : p'.ran = none) (hback : ∀ cb, p' = .back cb → b = .complete) :
    OnceInv E L b (Function.update spots t p') := by
  refine ⟨hi.fresh, ?_, hi.complete, ?_, ?_⟩
  · intro u hu
    have hran := hi.running u hu
    have hut : u ≠ t := by
      rintro rfl
      rw [hold] at hran
      cases hran
    rw [Function.update_of_ne hut]
    exact hran
  · intro u hu
    by_cases hut : u = t
    · subst hut
      rw [Function.update_self] at hu
      exact absurd hnew hu
    · rw [Function.update_of_ne hut] at hu
      exact hi.alone u hu
  · intro u cb hu
    by_cases hut : u = t
    · subst hut
      rw [Function.update_self] at hu
      exact hback cb hu
    · rw [Function.update_of_ne hut] at hu
      exact hi.back u cb hu

omit [DecidableEq Tid] in
/-- Where one thread has the block, the others neither have it nor are on their way out. -/
theorem OnceInv.others (hi : OnceInv E L b spots) (hb : b = .fresh ∨ b = .running t) {u : Tid}
    (hut : u ≠ t) : (spots u).ran = none ∧ ∀ cb, spots u ≠ .back cb := by
  constructor
  · by_contra hran
    have hrun := hi.alone u hran
    rcases hb with hb | hb <;> rw [hb] at hrun <;> cases hrun
    exact hut rfl
  · intro cb hback
    have hrun := hi.back u cb hback
    rcases hb with hb | hb <;> rw [hb] at hrun <;> cases hrun

/-- The thread that gets the block, or has it, goes on with it. -/
theorem OnceInv.advance {E' L' : List Cb} (hi : OnceInv E L b spots)
    (hb : b = .fresh ∨ b = .running t) (hnew : p'.ran = some (E', L')) :
    OnceInv E' L' (.running t) (Function.update spots t p') := by
  refine ⟨nofun, ?_, nofun, ?_, ?_⟩
  · intro u hu
    cases hu
    rw [Function.update_self]
    exact hnew
  · intro u hu
    by_cases hut : u = t
    · rw [hut]
    · rw [Function.update_of_ne hut] at hu
      exact absurd (hi.others hb hut).1 hu
  · intro u cb hu
    by_cases hut : u = t
    · subst hut
      rw [Function.update_self] at hu
      rw [hu] at hnew
      cases hnew
    · rw [Function.update_of_ne hut] at hu
      exact absurd hu ((hi.others hb hut).2 cb)

/-- The thread that has the block gives it back. -/
theorem OnceInv.settle {cb : Cb} (hi : OnceInv [cb] [cb] b spots) (hb : b = .running t) :
    OnceInv [cb] [cb] .complete (Function.update spots t (.back cb)) := by
  refine ⟨nofun, nofun, fun _ => ⟨cb, rfl, rfl⟩, ?_, fun _ _ _ => rfl⟩
  intro u hu
  by_cases hut : u = t
  · subst hut
    rw [Function.update_self] at hu
    exact absurd rfl hu
  · rw [Function.update_of_ne hut] at hu
    exact absurd (hi.others (Or.inr hb) hut).1 hu

/-- **One move**, and what it adds to the callbacks entered and left. -/
theorem onceInv_move (hi : OnceInv E L b spots) (hm : OnceMove t b (spots t) e b' p') :
    OnceInv (E ++ e.enters.toList) (L ++ e.leaves.toList) b' (Function.update spots t p') := by
  generalize hp : spots t = p at hm
  -- the thread that has the block knows what has been entered and left
  have hhas : ∀ {E' L' : List Cb}, p.ran = some (E', L') → b = .running t ∧ E = E' ∧ L = L' := by
    intro E' L' hran
    have hb := hi.alone t (by rw [hp, hran]; exact Option.some_ne_none _)
    have hEL := hi.running t hb
    rw [hp, hran] at hEL
    cases hEL
    exact ⟨hb, rfl, rfl⟩
  cases hm with
  | begin cb =>
      simp only [OnceShown.enters, OnceShown.leaves, Option.toList_none, List.append_nil]
      exact hi.aside (by rw [hp]; rfl) rfl nofun
  | take =>
      obtain ⟨rfl, rfl⟩ := hi.fresh rfl
      exact hi.advance (Or.inl rfl) rfl
  | skip =>
      simp only [OnceShown.enters, OnceShown.leaves, Option.toList_none, List.append_nil]
      exact hi.aside (by rw [hp]; rfl) rfl fun _ _ => rfl
  | enter =>
      obtain ⟨hb, rfl, rfl⟩ := hhas rfl
      subst hb
      exact hi.advance (Or.inr rfl) rfl
  | leave =>
      obtain ⟨hb, rfl, rfl⟩ := hhas rfl
      subst hb
      exact hi.advance (Or.inr rfl) rfl
  | finish =>
      obtain ⟨hb, rfl, rfl⟩ := hhas rfl
      exact hi.settle hb
  | done =>
      simp only [OnceShown.enters, OnceShown.leaves, Option.toList_none, List.append_nil]
      exact hi.aside (by rw [hp]; rfl) rfl nofun

/-! ## Every run -/

/-- The invariant of a history. -/
def OnceSound (stage : O.Block → Stage Tid) (es : List (OnceShown Tid Cb)) (s : OnceState O Cb) :
    Prop :=
  AtEvery Settled es ∧
    ∃ spots : Tid → Spot Cb, (∀ t, s.doing t = (spots t).code) ∧
      OnceInv (entered es) (left es) (stage s.shared) spots

theorem onceSound_init (hO : O.Documented stage) (h : (once O Cb).interleaved.Init s) :
    OnceSound stage [] s := by
  refine ⟨AtEvery.nil, fun _ => .out, h.2, ?_⟩
  rw [hO.static h.1]
  exact ⟨fun _ => ⟨rfl, rfl⟩, nofun, nofun, fun u hu => absurd rfl hu, nofun⟩

theorem onceSound_step (hO : O.Documented stage) (hs : OnceSound stage es s)
    (h : (once O Cb).Step s e s') : OnceSound stage (es ++ [e]) s' := by
  obtain ⟨hsettled, spots, hspots, hi⟩ := hs
  obtain ⟨m, p', rfl, hm⟩ := once_move hO h (hspots e.thread)
  refine ⟨hsettled.snoc ?_, Function.update spots e.thread p', ?_, ?_⟩
  · intro t cb r heq
    subst heq
    -- who returns stood behind a callback that is over
    obtain ⟨hback, rfl⟩ := hm.of_done
    exact ⟨rfl, hi.complete (hi.back _ cb hback)⟩
  · intro u
    by_cases hu : u = e.thread
    · subst hu
      rw [State.goto_self, Function.update_self]
    · rw [State.goto_ne _ _ hu, Function.update_of_ne hu]
      exact hspots u
  · rw [entered_snoc, left_snoc]
    exact onceInv_move hi hm

theorem onceSound_history (hO : O.Documented stage) (h : (once O Cb).interleaved.History es s) :
    OnceSound stage es s :=
  h.invariant (fun _ => onceSound_init hO) fun _ _ _ _ => onceSound_step hO

/-- **Nobody waits for nothing**: while a thread is inside `pthread_once`, some thread that
is can take a step. -/
theorem once_progress (hO : O.Documented stage) (hs : OnceSound stage es s)
    (ht : s.doing t ≠ none) : ∃ e s', (once O Cb).Step s e s' ∧ s.doing e.thread ≠ none := by
  obtain ⟨-, spots, hspots, hi⟩ := hs
  by_cases hrun : ∃ u, stage s.shared = .running u
  · -- whoever has the block can go on
    obtain ⟨u, hb⟩ := hrun
    have hran := hi.running u hb
    have hu := hspots u
    have hne : ∀ p : Spot Cb, p.ran ≠ none → p.code ≠ none := by
      intro p hp
      cases p with
      | out => exact absurd rfl hp
      | look | enter | leave | finish | back => exact Option.some_ne_none _
    have hdoing : s.doing u ≠ none := by
      rw [hu]
      exact hne _ (by rw [hran]; exact Option.some_ne_none _)
    cases hsp : spots u with
    | enter cb | leave cb =>
        rw [hsp] at hu
        exact ⟨_, _, Step.act (r := ()) hu rfl, hdoing⟩
    | finish cb =>
        rw [hsp] at hu
        obtain ⟨rc, m, hans⟩ := hO.ends s.shared u true hb
        have hans : (once O Cb).Answers s.shared u (.ran true) rc m := hans
        exact ⟨_, _, Step.act hu hans, hdoing⟩
    | out | look | back => rw [hsp] at hran; cases hran
  · -- otherwise the thread itself can
    have hran : (spots t).ran = none := by
      by_contra hran
      exact hrun ⟨t, hi.alone t hran⟩
    have htp := hspots t
    cases hsp : spots t with
    | out => exact absurd (by rw [htp, hsp]; rfl) ht
    | enter | leave | finish => rw [hsp] at hran; cases hran
    | back cb =>
        rw [hsp] at htp
        exact ⟨_, _, Step.done htp, ht⟩
    | look cb =>
        rw [hsp] at htp
        obtain ⟨reply, m, hans⟩ := hO.waits s.shared (fun u hu => hrun ⟨u, hu⟩) t
        have hans : (once O Cb).Answers s.shared t .initOnceExecuteOnce reply m := hans
        exact ⟨_, _, Step.act htp hans, ht⟩

end Runs

/--
**One callback runs, and everybody waits for it.**

However many threads call `pthread_once` for one block, with whatever callbacks, and
however their steps interleave: at most one callback is ever entered. Every call that
returns returns 0, and it returns when that one callback has returned.
-/
theorem pthreadOnce_runs_once [DecidableEq Tid] {O : InitOnce Tid} {stage : O.Block → Stage Tid}
    {es : List (OnceShown Tid Cb)} {s : OnceState O Cb} (hO : O.Documented stage)
    (h : (once O Cb).interleaved.History es s) :
    (entered es).length ≤ 1 ∧ left es <+: entered es ∧ AtEvery Settled es ∧
      ((∃ t, s.doing t ≠ none) →
        ∃ e s', (once O Cb).Step s e s' ∧ s.doing e.thread ≠ none) := by
  have hs := onceSound_history hO h
  obtain ⟨hsettled, spots, -, hi⟩ := id hs
  have hcounts : (entered es).length ≤ 1 ∧ left es <+: entered es := by
    cases hb : stage s.shared with
    | fresh =>
        obtain ⟨hE, hL⟩ := hi.fresh hb
        rw [hE, hL]
        exact ⟨Nat.zero_le 1, List.prefix_refl _⟩
    | running u =>
        have hran := hi.running u hb
        cases hsp : spots u with
        | enter cb | leave cb | finish cb =>
            rw [hsp] at hran
            obtain ⟨hE, hL⟩ := Prod.mk.inj (Option.some.inj hran)
            rw [← hE, ← hL]
            simp
        | out | look | back => rw [hsp] at hran; cases hran
    | complete =>
        obtain ⟨cb, hE, hL⟩ := hi.complete hb
        rw [hE, hL]
        exact ⟨Nat.le_refl 1, List.prefix_refl _⟩
  exact ⟨hcounts.1, hcounts.2, hsettled, fun ⟨t, ht⟩ => once_progress hO hs ht⟩

/-- A block that is its stage. -/
def plainOnce (Tid : Type) : InitOnce Tid where
  Block := Stage Tid
  Static b := b = .fresh
  Called b t reply b' :=
    (b = .fresh ∧ reply = .runs ∧ b' = .running t) ∨
      (b = .complete ∧ reply = .returns true ∧ b' = .complete)
  Ran b t ok rc b' := b = .running t ∧ rc = ok ∧ b' = if ok then .complete else .fresh

theorem plainOnce_documented (Tid : Type) : (plainOnce Tid).Documented fun b => b where
  static h := h
  runs h := by
    rcases h with ⟨hb, -, hb'⟩ | ⟨-, hr, -⟩
    · exact ⟨hb, hb'⟩
    · cases hr
  returns h := by
    rcases h with ⟨-, hr, -⟩ | ⟨hb, hr, hb'⟩
    · cases hr
    · exact ⟨hb, Reply.returns.inj hr, hb'⟩
  succeeds h := ⟨h.2.1, h.2.2⟩
  waits b hb t := by
    cases b with
    | fresh => exact ⟨.runs, .running t, .inl ⟨rfl, rfl, rfl⟩⟩
    | running u => exact absurd rfl (hb u)
    | complete => exact ⟨.returns true, .complete, .inr ⟨rfl, rfl, rfl⟩⟩
  ends b t ok hb := ⟨ok, _, hb, rfl, rfl⟩

/-- Two threads bring a callback each. The first has run its own and returned; the second has
not looked yet. -/
def onceRun : List (OnceShown Bool Nat) :=
  [.begin true 1, .begin false 2, .act true .initOnceExecuteOnce .runs, .act true (.enter 1) (),
    .act true (.leave 1) (), .act true (.ran true) true, .done true 1 0]

theorem pthreadOnce_runs_once_taken : ∃ s,
    (once (plainOnce Bool) Nat).interleaved.History onceRun s ∧
    (entered onceRun).length ≤ 1 ∧ left onceRun <+: entered onceRun ∧ AtEvery Settled onceRun ∧
    ∃ e s', (once (plainOnce Bool) Nat).Step s e s' ∧ s.doing e.thread ≠ none := by
  have h : (once (plainOnce Bool) Nat).interleaved.History [] ⟨.fresh, fun _ => none⟩ :=
    .init ⟨rfl, fun _ => rfl⟩
  have h := h.tail (Step.begin (t := true) 1 rfl)
  have h := h.tail (Step.begin (t := false) 2 rfl)
  have h := h.tail (Step.act (t := true) (r := .runs) rfl (.inl ⟨rfl, rfl, rfl⟩))
  have h := h.tail (Step.act (t := true) (r := ()) rfl rfl)
  have h := h.tail (Step.act (t := true) (r := ()) rfl rfl)
  have h := h.tail (Step.act (t := true) (r := true) rfl ⟨rfl, rfl, rfl⟩)
  have h := h.tail (Step.done (t := true) rfl)
  obtain ⟨hone, hleft, hsettled, hgoes⟩ := pthreadOnce_runs_once (plainOnce_documented Bool) h
  exact ⟨_, h, hone, hleft, hsettled, hgoes ⟨false, nofun⟩⟩

end LibrePortable.Sync
