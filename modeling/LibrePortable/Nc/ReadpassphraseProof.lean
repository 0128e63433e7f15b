import LibrePortable.Lib.Hoare
import LibrePortable.Nc.Readpassphrase

/-!
# The terminal is given back

Three facts carry a pass from the label to its end: what the attributes can be, what the
actions are, and that the flag of every signal on record is set. The last one survives the
assignment to the flag of `SIGTTOU` because no `SIGTTOU` is caught in a calm run while an
unset flag waits to be written back; and the loop before it does not give up, because it
reads that same flag.
-/

namespace LibrePortable.Nc

open Lib Prog World

abbrev calm : Surroundings TtyCall TtyAnswer World := surroundings Calm

variable {s s' : World} {A B : Termios → Prop} {D : Signal → Sigaction} {v : Option Bool}
  {α : Type}

/-! ## What holds at a point of a pass -/

/-- At a point where `sigttou` is `v`, the attributes satisfy `A` and the actions are `D`. -/
structure Stage (A : Termios → Prop) (D : Signal → Sigaction) (v : Option Bool) (s : World) :
    Prop where
  attr : A s.attr
  action : s.action = D
  sigttou : s.sigttou = v
  flagged : ∀ sig ∈ s.caught, s.signo sig = true
  /-- An unset flag that waits to be written back is still unset. -/
  unset : v = some false → s.signo .SIGTTOU = false

/-- No signal is caught. -/
def Uncaught (D : Signal → Sigaction) : Prop := ∀ sig, (D sig).saHandler ≠ .handler

theorem deliver_uncaught (hd : Uncaught s.action) (sig : Signal) : s.deliver sig = s :=
  if_neg (hd sig)

/-- The fields that an arrival leaves alone. -/
theorem deliver_keeps (s : World) (sig : Signal) : (s.deliver sig).attr = s.attr
    ∧ (s.deliver sig).action = s.action ∧ (s.deliver sig).sigttou = s.sigttou
    ∧ (s.deliver sig).errno = s.errno := by
  rw [deliver]
  split <;> exact ⟨rfl, rfl, rfl, rfl⟩

/-- A flag that is set stays set, and a new one is on record. -/
theorem deliver_flagged (h : ∀ i ∈ s.caught, s.signo i = true) (sig : Signal) :
    ∀ i ∈ (s.deliver sig).caught, (s.deliver sig).signo i = true := by
  rw [deliver]
  split
  · intro i hi
    by_cases hsig : i = sig
    · subst hsig
      exact Function.update_self ..
    · dsimp only
      rw [Function.update_of_ne hsig]
      exact h i ((List.mem_cons.mp hi).resolve_left hsig)
  · exact h

theorem Stage.deliver (h : Stage A D v s) {during : Bool} {sig : Signal}
    (hcalm : Calm s during sig) : Stage A D v (s.deliver sig) := by
  obtain ⟨hattr, haction, hsigttou, -⟩ := deliver_keeps s sig
  refine ⟨hattr ▸ h.attr, haction.trans h.action, hsigttou.trans h.sigttou,
    deliver_flagged h.flagged sig, fun hv => ?_⟩
  rw [World.deliver]
  split
  · next hcaught =>
      have hne := hcalm hcaught
      rw [h.sigttou, hv] at hne
      exact (Function.update_of_ne (Ne.symm hne) ..).trans (h.unset hv)
  · exact h.unset hv

theorem Stage.setErrno (h : Stage A D v s) (e : Int) : Stage A D v { s with errno := e } :=
  ⟨h.attr, h.action, h.sigttou, h.flagged, h.unset⟩

theorem Stage.cast {D' : Signal → Sigaction} (h : Stage A D v s) (hD : D = D') : Stage A D' v s :=
  hD ▸ h

theorem Stage.mono (h : Stage A D v s) (hA : A s.attr → B s.attr) : Stage B D v s :=
  ⟨hA h.attr, h.action, h.sigttou, h.flagged, h.unset⟩

/-- **Signals arrive** without taking any of it away. -/
theorem stage_stable : calm.Stable (Stage A D v) := by
  intro s _ h hd
  obtain ⟨sig, hcalm, -, rfl⟩ := hd
  exact h.deliver hcalm

/-- Where no signal is caught, nothing is taken away. -/
theorem stable_of_uncaught {P : World → Prop} (hP : ∀ s, P s → Uncaught s.action) :
    calm.Stable P := by
  intro s _ h hd
  obtain ⟨sig, -, -, rfl⟩ := hd
  rw [deliver_uncaught (hP s h)]
  exact h

/-- Nothing is asked of a run that did not end. -/
theorem meets_none {P : World → Prop} {Q : Option α → World → Prop} (h : ∀ s, Q none s) :
    Meets calm P (return none) Q :=
  (Meets.ret (P := fun _ => True) (fun _ _ _ _ => trivial) fun s _ => h s).pre fun _ _ => trivial

/-! ## Calls that only set `errno` -/

/-- The calls that neither look at the flags nor change anything on record. -/
def Idle : TtyCall → Prop
  | .openTty | .setCloexec _ | .write .. | .read _ | .close _ | .getErrno | .setErrno _ => True
  | _ => False

/-- `P` does not depend on `errno`. -/
def Errnoless (P : World → Prop) : Prop := ∀ s e, P s → P { s with errno := e }

theorem meets_idle {P : World → Prop} {p : TtyProg α} (hp : p.OnlyCalls Idle)
    (stable : calm.Stable P) (hP : Errnoless P) : Meets calm P p fun _ => P := by
  refine Meets.of_onlyCalls hp stable fun e he s r s' hs ha => ?_
  cases e with
  | openTty | setCloexec | write | read | close =>
      obtain ⟨e, rfl⟩ := ha
      exact hP s e hs
  | getErrno => exact ha.2 ▸ hs
  | setErrno e => exact ha ▸ hP s e hs
  | _ => exact he.elim

theorem stage_idle {p : TtyProg α} (hp : p.OnlyCalls Idle) :
    Meets calm (Stage A D v) p fun _ => Stage A D v :=
  meets_idle hp stage_stable fun _ e h => h.setErrno e

theorem onlyIf_only {C : TtyCall → Prop} {c : Prop} [Decidable c] {p : TtyProg α}
    (hp : p.OnlyCalls C) : (onlyIf c p).OnlyCalls C :=
  OnlyCalls.ite (hp.bind fun _ => trivial) trivial

theorem write_idle (fd : Int) (text : List UInt8) : (Tty.write fd text).OnlyCalls Idle :=
  ⟨trivial, fun _ => trivial⟩

theorem close_idle (fd : Int) : (Tty.close fd).OnlyCalls Idle := ⟨trivial, fun _ => trivial⟩

theorem setErrno_idle (e : Int) : (Tty.setErrno e).OnlyCalls Idle := ⟨trivial, fun _ => trivial⟩

theorem openTerminal_idle (flags : CInt) : (openTerminal flags).OnlyCalls Idle := by
  have hstandard : (if flags &&& rppRequireTty ≠ 0 then (return none)
      else return some (stdinFileno, stderrFileno) : TtyProg (Option (Int × Int))).OnlyCalls Idle :=
    OnlyCalls.ite trivial trivial
  exact OnlyCalls.ite hstandard
    ⟨trivial, fun (_ : Int) => OnlyCalls.ite hstandard ⟨trivial, fun _ => trivial⟩⟩

theorem readLoop_idle (host : Host) (flags : CInt) (bufsiz : Nat) (input : Int) :
    ∀ (fuel : Nat) (buf : List UInt8), (readLoop host flags bufsiz input fuel buf).OnlyCalls Idle
  | 0, _ => trivial
  | fuel + 1, _ => ⟨trivial, fun (_ : Int × UInt8) => OnlyCalls.ite
      (OnlyCalls.ite (readLoop_idle host flags bufsiz input fuel _)
        (readLoop_idle host flags bufsiz input fuel _)) trivial⟩

theorem prompted_idle (host : Host) (prompt : List UInt8) (bufsiz : Nat) (flags : CInt)
    (input output : Int) (term : Termios) (fuel : Nat) :
    (prompted host prompt bufsiz flags input output term fuel).OnlyCalls Idle := by
  refine (onlyIf_only (write_idle ..)).bind fun _ => (readLoop_idle ..).bind fun r => ?_
  cases r with
  | none => trivial
  | some r =>
      exact ⟨trivial, fun (_ : Int) => ⟨trivial, fun (_ : Int) =>
        (onlyIf_only (write_idle ..)).bind fun _ => trivial⟩⟩

/-! ## The actions -/

/-- What `setAction` makes of the action `cur`. -/
def replaced (signum : Signal) (cur act : Sigaction) : Sigaction :=
  if signum = .SIGINT ∨ signum = .SIGQUIT then act
  else if cur.saHandler = .SIG_IGN ∧ act.saHandler ≠ .SIG_IGN then cur else act

/-- The actions while signals are caught. -/
def installed (D : Signal → Sigaction) (signum : Signal) : Sigaction :=
  replaced signum (D signum) catching

theorem sigaction_meets (signum : Signal) (act : Sigaction) :
    Meets calm (Stage A D v) (Tty.sigaction signum act) fun old s =>
      old = D signum ∧ Stage A (Function.update D signum act) v s := by
  refine Meets.call (M := fun old s => old = D signum ∧ Stage A (Function.update D signum act) v s)
    stage_stable ?_ fun old => Meets.of_fact fun hold =>
      Meets.ret stage_stable fun s hs => ⟨hold, hs⟩
  intro s old s' hs ha
  obtain ⟨rfl, rfl⟩ := ha
  exact ⟨by rw [hs.action], hs.attr, by rw [hs.action], hs.sigttou, hs.flagged, hs.unset⟩

theorem setAction_meets (signum : Signal) (act : Sigaction) :
    Meets calm (Stage A D v) (setAction signum act) fun old s => old = D signum ∧
      Stage A (Function.update D signum (replaced signum (D signum) act)) v s := by
  rw [setAction, replaced]
  by_cases hplain : signum = .SIGINT ∨ signum = .SIGQUIT
  · rw [if_pos hplain, if_pos hplain]
    exact sigaction_meets signum act
  · rw [if_neg hplain, if_neg hplain, sigactionExceptIgn]
    refine Meets.bind (sigaction_meets signum act) fun old => Meets.of_fact ?_
    intro heq
    subst heq
    refine Meets.ite (fun hign => ?_) fun hign => ?_
    · -- an ignored signal is ignored again
      rw [if_pos hign]
      refine Meets.bind (sigaction_meets signum _) fun _ => Meets.of_fact fun _ =>
        Meets.ret stage_stable fun s hs => ⟨rfl, ?_⟩
      rw [Function.update_idem] at hs
      exact hs
    · rw [if_neg hign]
      exact Meets.ret stage_stable fun s hs => ⟨rfl, hs⟩

/-- **`catchSignals`** remembers the actions that it replaces. -/
theorem catchSignals_meets : ∀ {sigs : List Signal}, sigs.Nodup → ∀ (save : Signal → Sigaction)
    (D : Signal → Sigaction), Meets calm (Stage A D v) (catchSignals sigs save) fun save' s =>
      (save' = fun sig => if sig ∈ sigs then D sig else save sig) ∧
        Stage A (fun sig => if sig ∈ sigs then installed D sig else D sig) v s
  | [], _, save, D => Meets.ret stage_stable fun s hs => ⟨by simp, by simpa using hs⟩
  | sig :: sigs, hnodup, save, D => by
      obtain ⟨hnot, hnodup⟩ := List.nodup_cons.mp hnodup
      rw [catchSignals]
      refine Meets.bind (setAction_meets sig catching) fun old => Meets.of_fact ?_
      intro heq
      subst heq
      refine (catchSignals_meets hnodup _ _).mono (fun s hs => hs) ?_
      intro save' s h
      obtain ⟨rfl, hs⟩ := h
      refine ⟨funext fun i => ?_, ?_⟩
      · by_cases hi : i = sig
        · subst hi
          simp [hnot]
        · simp [hi]
      · refine hs.cast (funext fun i => ?_)
        by_cases hi : i = sig
        · subst hi
          simp [hnot, installed]
        · simp [hi, installed]

/-- **`giveBack`** sets them again. -/
theorem giveBack_meets (save : Signal → Sigaction) : ∀ {sigs : List Signal}, sigs.Nodup →
    ∀ D : Signal → Sigaction, Meets calm (Stage A D v) (giveBack save sigs) fun _ =>
      Stage A (fun sig => if sig ∈ sigs then replaced sig (D sig) (save sig) else D sig) v
  | [], _, D => Meets.ret stage_stable fun s hs => by simpa using hs
  | sig :: sigs, hnodup, D => by
      obtain ⟨hnot, hnodup⟩ := List.nodup_cons.mp hnodup
      rw [giveBack]
      refine Meets.bind (setAction_meets sig (save sig)) fun old => Meets.of_fact fun _ => ?_
      refine (giveBack_meets save hnodup _).mono (fun s hs => hs) fun _ s hs =>
        hs.cast (funext fun i => ?_)
      by_cases hi : i = sig
      · subst hi
        simp [hnot]
      · simp [hi]

theorem mem_caughtSignals (sig : Signal) : sig ∈ caughtSignals := by
  cases sig <;> decide

/-- Nothing is left of `catching`. -/
theorem replaced_installed (D : Signal → Sigaction) (sig : Signal) :
    replaced sig (installed D sig) (D sig) = D sig := by
  by_cases hplain : sig = .SIGINT ∨ sig = .SIGQUIT
  · rw [replaced, if_pos hplain]
  · by_cases hign : (D sig).saHandler = .SIG_IGN
    · simp [installed, replaced, hplain, hign]
    · simp [installed, replaced, hplain, hign, catching]

/-- While signals are caught, the only function among the actions is that of this file. -/
theorem installed_function {sig : Signal}
    (h : (installed D sig).saHandler.isFunction = true) :
    (installed D sig).saHandler = .handler := by
  rw [installed, replaced] at h ⊢
  split at h
  · next hplain => rw [if_pos hplain]; rfl
  · next hplain =>
      rw [if_neg hplain]
      split at h
      · next hign =>
          rw [hign.1] at h
          cases h
      · next hign => rw [if_neg hign]; rfl

/-! ## The terminal -/

/-- The attributes after `turnOffEcho`: those before it, unless there is something to restore. -/
abbrev Echoless (a term oterm t : Termios) : Prop := term = oterm → t = a

theorem turnOffEcho_meets (host : Host) (flags : CInt) (input : Int) (a : Termios) :
    Meets calm (Stage (· = a) D none) (turnOffEcho host flags input) fun r s =>
      (r.1 ≠ r.2 → r.2 = a) ∧ Stage (Echoless a r.1 r.2) D none s := by
  have hnone : Meets calm (Stage (· = a) D none) (return (noTerminal, noTerminal)) fun r s =>
      (r.1 ≠ r.2 → r.2 = a) ∧ Stage (Echoless a r.1 r.2) D none s :=
    Meets.ret stage_stable fun s hs => ⟨fun hne => absurd rfl hne, hs.mono fun ha _ => ha⟩
  refine Meets.ite (fun _ => ?_) fun _ => hnone
  refine Meets.call (M := fun r s => (r = none ∨ r = some a) ∧ Stage (· = a) D none s)
    stage_stable ?_ fun r => Meets.of_fact fun hr => ?_
  · intro s r s' hs ha
    rcases ha with ⟨rfl, rfl⟩ | ⟨rfl, e, rfl⟩
    · exact ⟨Or.inr (congrArg some hs.attr), hs⟩
    · exact ⟨Or.inl rfl, hs.setErrno e⟩
  · rcases hr with rfl | rfl
    · exact hnone
    · -- if the call fails, echo is still on, but that does no harm
      refine Meets.call (M := fun _ => Stage (Echoless a (silenced host flags a) a) D none)
        stage_stable ?_ fun _ => Meets.ret stage_stable fun s hs => ⟨fun _ => rfl, hs⟩
      intro s rc s' hs ha
      rcases ha with ⟨-, rfl⟩ | ⟨-, sig, hcalm, -, rfl⟩
      · exact ⟨fun heq => heq, hs.action, hs.sigttou, hs.flagged, hs.unset⟩
      · exact ((hs.deliver hcalm).setErrno _).mono fun ha _ => ha

/-- **The loop does not give up** in a calm run: when it ends, the terminal is restored. -/
theorem restoreLoop_meets (input : Int) (oterm : Termios) (w : Bool) : ∀ fuel : Nat,
    Meets calm (Stage A (installed D) (some w)) (restoreLoop input oterm fuel) fun r s =>
      r = some () → Stage (· = oterm) (installed D) (some w) s
  | 0 => Meets.ret stage_stable fun _ _ h => nomatch h
  | fuel + 1 => by
      -- an interrupted call leaves the flag of `SIGTTOU` unset
      let M : Int → World → Prop := fun rc s => (rc = 0 ∨ rc = -1 ∧ w = false) ∧
        if rc = 0 then Stage (· = oterm) (installed D) (some w) s
        else Stage A (installed D) (some w) s ∧ s.errno = EINTR
      have hstable : ∀ e : Int, calm.Stable fun s =>
          Stage A (installed D) (some w) s ∧ s.errno = e := by
        intro e s _ h hd
        obtain ⟨sig, hcalm, -, rfl⟩ := hd
        exact ⟨h.1.deliver hcalm, (deliver_keeps s sig).2.2.2.trans h.2⟩
      refine Meets.call (M := M) stage_stable ?_ fun (rc : Int) => Meets.of_fact fun hrc => ?_
      · intro s rc s' hs ha
        rcases ha with ⟨rfl, rfl⟩ | ⟨rfl, sig, hcalm, hfun, rfl⟩
        · exact ⟨Or.inl rfl, if_pos rfl ▸ ⟨rfl, hs.action, hs.sigttou, hs.flagged, hs.unset⟩⟩
        · have hcaught : (s.action sig).saHandler = .handler := by
            rw [hs.action] at hfun ⊢
            exact installed_function hfun
          have hw : w = false := by
            have hduring := hcalm hcaught
            rw [hs.sigttou] at hduring
            cases w with
            | true => cases hduring
            | false => rfl
          exact ⟨Or.inr ⟨rfl, hw⟩, (hs.deliver hcalm).setErrno _, rfl⟩
      · rcases hrc with rfl | ⟨rfl, rfl⟩
        · exact Meets.ret stage_stable fun s hs _ => hs
        · refine Meets.call (M := fun e s => e = EINTR ∧ Stage A (installed D) (some false) s)
            (hstable _) ?_ fun (e : Int) => Meets.of_fact fun he => ?_
          · intro s e s' hs ha
            obtain ⟨rfl, rfl⟩ := ha
            exact ⟨hs.2, hs.1⟩
          · subst he
            refine Meets.call (M := fun (set : Bool) s => set = false ∧
              Stage A (installed D) (some false) s) stage_stable ?_
              fun (set : Bool) => Meets.of_fact ?_
            · intro s set s' hs ha
              obtain ⟨rfl, rfl⟩ := ha
              exact ⟨hs.unset rfl, hs⟩
            · intro heq
              subst heq
              exact restoreLoop_meets input oterm false fuel

/-- The flag is written back, and no signal on record loses its own. -/
theorem putSigttou_meets (w : Bool) : Meets calm (Stage A D (some w)) (Tty.putSigttou w) fun _ =>
    Stage A D none := by
  refine Meets.call (M := fun _ => Stage A D none) stage_stable ?_ fun _ =>
    Meets.ret stage_stable fun s hs => hs
  intro s _ s' hs ha
  obtain rfl := ha
  refine ⟨hs.attr, hs.action, rfl, fun sig hsig => ?_, fun h => nomatch h⟩
  have hset := hs.flagged sig hsig
  by_cases hsig' : sig = .SIGTTOU
  · subst hsig'
    dsimp only
    rw [Function.update_self]
    cases w with
    | true => rfl
    | false => exact absurd hset (by rw [hs.unset rfl]; decide)
  · exact (Function.update_of_ne hsig' ..).trans hset

theorem restoreTerminal_meets (input : Int) {a term oterm : Termios}
    (hoterm : term ≠ oterm → oterm = a) (fuel : Nat) :
    Meets calm (Stage (Echoless a term oterm) (installed D) none)
      (restoreTerminal input term oterm fuel) fun r s =>
        r = some () → Stage (· = a) (installed D) none s := by
  refine Meets.ite (fun hne => ?_) fun heq =>
    Meets.ret stage_stable fun s hs _ => hs.mono fun ha => ha (not_not.mp heq)
  obtain rfl := hoterm hne
  refine Meets.call_bind (M := fun w => Stage (Echoless oterm term oterm) (installed D) (some w))
    stage_stable ?_ fun (w : Bool) => Meets.bind (restoreLoop_meets input oterm w fuel) fun r => ?_
  · intro s w s' hs ha
    obtain ⟨rfl, rfl⟩ := ha
    exact ⟨hs.attr, hs.action, rfl, hs.flagged, fun hw => Option.some.inj hw⟩
  · cases r with
    | none => exact meets_none fun _ h => nomatch h
    | some r =>
        refine (Meets.bind (putSigttou_meets w) fun _ => ?_).pre fun s hs => hs rfl
        exact Meets.ret stage_stable fun s hs _ => hs

/-! ## The signals -/

/-- Every signal on record has been sent again, or will be. -/
def Pending (a : Termios) (D : Signal → Sigaction) (sigs : List Signal) (s : World) : Prop :=
  Stage (· = a) D none s ∧ ∀ sig ∈ s.caught, sig ∈ sigs ∨ ⟨sig, a, D⟩ ∈ s.sent

theorem pending_stable {a : Termios} (hD : Uncaught D) (sigs : List Signal) :
    calm.Stable (Pending a D sigs) :=
  stable_of_uncaught fun _ hs => hs.1.action ▸ hD

theorem pending_idle {a : Termios} (hD : Uncaught D) {sigs : List Signal} {p : TtyProg α}
    (hp : p.OnlyCalls Idle) : Meets calm (Pending a D sigs) p fun _ => Pending a D sigs :=
  meets_idle hp (pending_stable hD sigs) fun _ e hs => ⟨hs.1.setErrno e, hs.2⟩

/-- A signal is sent when the terminal and the actions are those at entry. -/
theorem kill_meets {a : Termios} (hD : Uncaught D) (sig : Signal) (sigs : List Signal) :
    Meets calm (Pending a D (sig :: sigs)) (Tty.kill sig) fun _ => Pending a D sigs := by
  refine Meets.call (M := fun _ => Pending a D sigs) (pending_stable hD _) ?_ fun _ =>
    Meets.ret (pending_stable hD _) fun _ hs => hs
  intro s _ s' h ha
  obtain ⟨hs, hsent⟩ := h
  obtain ⟨-, rfl⟩ := ha
  rw [deliver_uncaught (hs.action ▸ hD)]
  refine ⟨⟨hs.attr, hs.action, hs.sigttou, hs.flagged, hs.unset⟩, fun i hi => ?_⟩
  have hnew : (⟨sig, s.attr, s.action⟩ : Sent) = ⟨sig, a, D⟩ := by rw [hs.attr, hs.action]
  rcases hsent i hi with hmem | hold
  · rcases List.mem_cons.mp hmem with rfl | hmem
    · exact Or.inr (hnew ▸ List.mem_cons_self)
    · exact Or.inl hmem
  · exact Or.inr (List.mem_cons_of_mem _ hold)

/-- **`resend`** leaves out no signal that is on record. -/
theorem resend_meets {a : Termios} (hD : Uncaught D) : ∀ (sigs : List Signal) (needRestart : Bool),
    Meets calm (Pending a D sigs) (resend sigs needRestart) fun _ => Pending a D []
  | [], _ => Meets.ret (pending_stable hD []) fun _ hs => hs
  | sig :: sigs, needRestart => by
      refine Meets.call (M := fun (set : Bool) s => Pending a D (sig :: sigs) s ∧
        (set = false → sig ∉ s.caught)) (pending_stable hD _) ?_ fun (set : Bool) => ?_
      · intro s set s' hs ha
        obtain ⟨rfl, rfl⟩ := ha
        exact ⟨hs, fun hset hmem => absurd (hs.1.flagged sig hmem) (by rw [hset]; decide)⟩
      · cases set with
        | false =>
            refine (resend_meets hD sigs _).pre ?_
            intro s hs
            refine ⟨hs.1.1, fun i hi => ?_⟩
            rcases hs.1.2 i hi with hmem | hsent
            · rcases List.mem_cons.mp hmem with rfl | hmem
              · exact absurd hi (hs.2 rfl)
              · exact Or.inl hmem
            · exact Or.inr hsent
        | true =>
            exact (Meets.bind (kill_meets hD sig sigs) fun _ => resend_meets hD sigs _).pre
              fun s hs => hs.1

theorem mem_numbered (sig : Signal) : sig ∈ numbered := by
  cases sig <;> decide

/-! ## A pass, and all of them -/

/-- At the label, and until the first signal can be caught. -/
def AtLabel (a : Termios) (D : Signal → Sigaction) (s : World) : Prop :=
  Stage (· = a) D none s ∧ s.caught = []

theorem atLabel_stable {a : Termios} (hD : Uncaught D) : calm.Stable (AtLabel a D) :=
  stable_of_uncaught fun _ hs => hs.1.action ▸ hD

theorem atLabel_idle {a : Termios} (hD : Uncaught D) {p : TtyProg α} (hp : p.OnlyCalls Idle) :
    Meets calm (AtLabel a D) p fun _ => AtLabel a D :=
  meets_idle hp (atLabel_stable hD) fun _ e hs => ⟨hs.1.setErrno e, hs.2⟩

/-- Nothing is on record, so nothing has to be sent. -/
theorem AtLabel.pending {a : Termios} (hs : AtLabel a D s) : Pending a D [] s := by
  refine ⟨hs.1, fun sig hsig => ?_⟩
  rw [hs.2] at hsig
  exact absurd hsig List.not_mem_nil

theorem clearAll_meets {a : Termios} (hD : Uncaught D) : ∀ sigs : List Signal,
    Meets calm (AtLabel a D) (clearAll sigs) fun _ => AtLabel a D
  | [] => Meets.ret (atLabel_stable hD) fun _ hs => hs
  | i :: rest => by
      refine Meets.call (M := fun _ => AtLabel a D) (atLabel_stable hD) ?_ fun _ =>
        clearAll_meets hD rest
      intro s _ s' hs ha
      obtain rfl := ha
      refine ⟨⟨hs.1.attr, hs.1.action, hs.1.sigttou, fun sig hsig => ?_, fun h => nomatch h⟩, hs.2⟩
      dsimp only at hsig
      rw [hs.2] at hsig
      exact absurd hsig List.not_mem_nil

/-- **The end of a pass**, once the terminal is as it was. -/
theorem finishPass_meets (input nr saveErrno : Int) (buf : List UInt8) {a : Termios}
    (hD : Uncaught D) : Meets calm (Stage (· = a) (installed D) none)
      (finishPass D input nr saveErrno buf) fun _ => Pending a D [] := by
  refine Meets.bind (giveBack_meets D (by decide) _) fun _ => ?_
  simp only [mem_caughtSignals, if_true, replaced_installed]
  refine Meets.bind (stage_idle (onlyIf_only (close_idle _))) fun _ => ?_
  refine (Meets.bind (resend_meets hD numbered false) fun need => ?_).pre fun s hs =>
    ⟨hs, fun sig _ => Or.inl (mem_numbered sig)⟩
  refine Meets.ite (fun _ => Meets.ret (pending_stable hD []) fun s hs => hs) fun _ => ?_
  exact pending_idle hD ((onlyIf_only (setErrno_idle _)).bind fun _ => trivial)

/-- **A pass** that ends leaves the terminal and the actions as they were, and no signal on
record that was not sent again. -/
theorem pass_meets (host : Host) (prompt : List UInt8) (bufsiz : Nat) (flags : CInt) (fuel : Nat)
    {a : Termios} (hD : Uncaught D) : Meets calm (Stage (· = a) D none)
      (pass host prompt bufsiz flags fuel) fun r s => r ≠ none → Pending a D [] s := by
  refine Meets.call_bind (M := fun _ => AtLabel a D) stage_stable ?_ fun _ =>
    Meets.bind (clearAll_meets hD numbered) fun _ =>
      Meets.bind (atLabel_idle hD (openTerminal_idle flags)) fun r => ?_
  · intro s _ s' hs ha
    obtain rfl := ha
    exact ⟨⟨hs.attr, hs.action, hs.sigttou, fun sig hsig => absurd hsig List.not_mem_nil,
      fun h => nomatch h⟩, rfl⟩
  · cases r with
    | none =>
        -- nothing has been caught yet
        refine (atLabel_idle hD ((setErrno_idle ENOTTY).bind fun _ => ?_)).mono (fun s hs => hs)
          fun _ s hs _ => hs.pending
        trivial
    | some r =>
        obtain ⟨input, output⟩ := r
        refine (Meets.bind (turnOffEcho_meets host flags input a) fun r =>
          Meets.of_fact fun hoterm => ?_).pre fun s hs => hs.1
        obtain ⟨term, oterm⟩ := r
        refine Meets.bind (catchSignals_meets (by decide) _ D) fun save => Meets.of_fact ?_
        intro heq
        subst heq
        simp only [mem_caughtSignals, if_true]
        refine Meets.bind (stage_idle (prompted_idle ..)) fun r => ?_
        cases r with
        | none => exact meets_none fun _ h => absurd rfl h
        | some r =>
            obtain ⟨nr, saveErrno, buf⟩ := r
            refine Meets.bind (restoreTerminal_meets input hoterm fuel) fun r => ?_
            cases r with
            | none => exact meets_none fun _ h => absurd rfl h
            | some r =>
                exact (finishPass_meets input nr saveErrno buf hD).mono (fun s hs => hs rfl)
                  fun _ _ hs _ => hs

/-- **Every pass after another.** -/
theorem readpassphrase_meets (host : Host) (prompt : List UInt8) (bufsiz : Nat) (flags : CInt)
    {a : Termios} (hD : Uncaught D) : ∀ fuel : Nat, Meets calm (Pending a D [])
      (readpassphrase host prompt bufsiz flags fuel) fun r s => r ≠ none → Pending a D [] s
  | 0 => meets_none fun _ h => absurd rfl h
  | fuel + 1 => by
      rw [readpassphrase]
      refine Meets.ite (fun _ => ?_) fun _ => ?_
      · refine (pending_idle hD ((setErrno_idle EINVAL).bind fun _ => ?_)).mono (fun s hs => hs)
          fun _ s hs _ => hs
        trivial
      · refine Meets.bind ((pass_meets host prompt bufsiz flags fuel hD).pre fun s hs => hs.1)
          fun r => ?_
        match r with
        | none => exact meets_none fun _ h => absurd rfl h
        | some none =>
            exact (readpassphrase_meets host prompt bufsiz flags hD fuel).pre
              fun s hs => hs (Option.some_ne_none _)
        | some (some r) =>
            refine (Meets.ret (pending_stable hD []) fun s hs _ => hs).pre fun s hs => ?_
            exact hs (Option.some_ne_none _)

/-- **A call gives the terminal back** and loses no signal, in every run in which no signal is
caught where `sigttou` stands in its way. -/
theorem readpassphrase_restores {host : Host} {prompt : List UInt8} {bufsiz : Nat} {flags : CInt}
    {fuel : Nat} {tr : List (Event TtyCall TtyAnswer)} {r : Ret} (hentry : Entry s)
    (hrun : Exec (surroundings Calm) (readpassphrase host prompt bufsiz flags fuel) s tr (some r)
      s') :
    Restored s s' := by
  have hstart : AtLabel s.attr s.action s := by
    refine ⟨⟨rfl, rfl, hentry.sigttou, fun sig hsig => ?_, fun h => nomatch h⟩, hentry.caught⟩
    rw [hentry.caught] at hsig
    exact absurd hsig List.not_mem_nil
  obtain ⟨hstage, hsent⟩ := readpassphrase_meets host prompt bufsiz flags hentry.action fuel
    s tr (some r) s' hstart.pending hrun (Option.some_ne_none _)
  exact ⟨hstage.attr, hstage.action, fun sig hsig =>
    (hsent sig hsig).resolve_left List.not_mem_nil⟩

/-! ## Runs from a script -/

/-- What happens to a call that waits for the terminal. -/
inductive Happens where
  -- `tcsetattr` succeeds
  | set
  -- `read` returns a character
  | char (ch : UInt8)
  -- either fails with `EINTR`
  | signal (sig : Signal)

section Scripts

variable {May : World → Bool → Signal → Prop} [∀ s during sig, Decidable (May s during sig)]

/-- A terminal that follows a script. -/
def reply (May : World → Bool → Signal → Prop) [∀ s during sig, Decidable (May s during sig)]
    (script : List Happens) (s : World) :
    (e : TtyCall) → Option (TtyAnswer e × World × List Happens)
  | .restart => some ((), { s with caught := [], sent := [] }, script)
  | .clearSigno i => some ((), { s with signo := Function.update s.signo i false }, script)
  | .getSigno i => some (s.signo i, s, script)
  | .saveSigttou =>
      some (s.signo .SIGTTOU, { s with sigttou := some (s.signo .SIGTTOU) }, script)
  | .putSigttou v => some ((),
      { s with signo := Function.update s.signo .SIGTTOU v, sigttou := none }, script)
  | .openTty => some ((3 : Int), s, script)
  | .setCloexec _ | .close _ => some ((0 : Int), s, script)
  | .write _ text => some ((text.length : Int), s, script)
  | .tcgetattr _ => some (some s.attr, s, script)
  | .tcsetattr _ term =>
      match script with
      | .set :: script => some ((0 : Int), { s with attr := term }, script)
      | .signal sig :: script =>
          if May s true sig ∧ (s.action sig).saHandler.isFunction = true then
            some ((-1 : Int), { s.deliver sig with errno := EINTR }, script)
          else none
      | _ => none
  | .read _ =>
      match script with
      | .char ch :: script => some (((1 : Int), ch), s, script)
      | .signal sig :: script =>
          if May s false sig ∧ s.survives sig then
            some (((-1 : Int), 0), { s.deliver sig with errno := EINTR }, script)
          else none
      | _ => none
  | .sigaction signum act => some (s.action signum,
      { s with action := Function.update s.action signum act }, script)
  | .kill sig =>
      if s.survives sig then
        some ((), { s.deliver sig with sent := ⟨sig, s.attr, s.action⟩ :: s.sent }, script)
      else none
  | .getErrno => some (s.errno, s, script)
  | .setErrno e => some ((), { s with errno := e }, script)

theorem reply_sound {script script' : List Happens} {e : TtyCall} {r : TtyAnswer e}
    (h : reply May script s e = some (r, s', script')) :
    ∃ s₁, Relation.ReflTransGen (surroundings May).Drift s s₁ ∧
      (surroundings May).Answer s₁ e r s' := by
  cases e with
  | read fd =>
      match script with
      | .char ch :: _ =>
          cases h
          exact ⟨_, .refl, s.errno, rfl⟩
      | .signal sig :: _ =>
          rw [reply] at h
          split at h
          · next hmay =>
              cases h
              exact ⟨s.deliver sig, .single ⟨sig, hmay.1, hmay.2, rfl⟩, EINTR, rfl⟩
          · cases h
      | [] | .set :: _ => cases h
  | tcsetattr fd term =>
      match script with
      | .set :: _ =>
          cases h
          exact ⟨_, .refl, Or.inl ⟨rfl, rfl⟩⟩
      | .signal sig :: _ =>
          rw [reply] at h
          split at h
          · next hmay =>
              cases h
              exact ⟨_, .refl, Or.inr ⟨rfl, sig, hmay.1, hmay.2, rfl⟩⟩
          · cases h
      | [] | .char _ :: _ => cases h
  | kill sig =>
      rw [reply] at h
      split at h
      · next hsurvives =>
          cases h
          exact ⟨_, .refl, hsurvives, rfl⟩
      · cases h
  | restart | clearSigno | putSigttou | setErrno =>
      cases h
      exact ⟨_, .refl, rfl⟩
  | getSigno | saveSigttou | sigaction | getErrno =>
      cases h
      exact ⟨_, .refl, rfl, rfl⟩
  | openTty | setCloexec | close | write =>
      cases h
      exact ⟨_, .refl, s.errno, rfl⟩
  | tcgetattr =>
      cases h
      exact ⟨_, .refl, Or.inl ⟨rfl, rfl⟩⟩

end Scripts

/-- A terminal with echo turned on, and a process that handles `SIGINT`. -/
def shell : World where
  attr := ⟨true, false, 0, 0⟩
  action sig := if sig = .SIGINT then ⟨.other 0, 0⟩ else ⟨.SIG_DFL, 0⟩
  signo _ := false
  errno := 0
  sigttou := none
  caught := []
  sent := []

theorem shell_entry : Entry shell where
  action sig := by cases sig <;> decide
  sigttou := rfl
  caught := rfl

def asciiHost : Host where
  vdisable := none
  isalpha ch := (65 ≤ ch && ch ≤ 90) || (97 ≤ ch && ch ≤ 122)
  tolower ch := if 65 ≤ ch && ch ≤ 90 then ch + 32 else ch
  toupper ch := if 97 ≤ ch && ch ≤ 122 then ch - 32 else ch

/-- `SIGTTOU` arrives while the first pass reads, and `SIGINT` twice in the second one: while it
reads, and while it restores the terminal. -/
theorem readpassphrase_restores_sample : ∃ tr s', Exec (surroundings Calm)
      (readpassphrase asciiHost [] 16 0 4) shell tr (some ⟨true, some []⟩) s' ∧
    s'.caught = [.SIGINT, .SIGINT] ∧ Restored shell s' := by
  have hrun : (follow (reply Calm) (readpassphrase asciiHost [] 16 0 4)
      [.set, .signal .SIGTTOU, .set, .set, .signal .SIGINT, .signal .SIGINT, .set] shell).map
      (fun x => (x.1, x.2.caught)) = some (some ⟨true, some []⟩, [.SIGINT, .SIGINT]) := by
    decide +kernel
  obtain ⟨⟨r, s'⟩, hfollow, heq⟩ := Option.map_eq_some_iff.mp hrun
  obtain ⟨rfl, hcaught⟩ := Prod.mk.inj heq
  obtain ⟨tr, hexec⟩ := follow_exec (fun _ _ _ _ _ _ => reply_sound) hfollow
  exact ⟨tr, s', hexec, hcaught, readpassphrase_restores shell_entry hexec⟩

/-- **Echo stays off**: `SIGTTOU` was caught while the function was reading, and `SIGTSTP`
interrupts the call that restores the terminal. -/
theorem echo_stays_off : ∃ tr s', Exec (surroundings Anytime)
      (readpassphrase asciiHost [] 16 0 4) shell tr (some ⟨false, some []⟩) s' ∧
    Entry shell ∧ shell.attr.echo = true ∧ s'.attr.echo = false ∧ ¬ Restored shell s' := by
  have hrun : (follow (reply Anytime) (readpassphrase asciiHost [] 16 0 4)
      [.set, .signal .SIGTTOU, .signal .SIGTSTP, .set, .char 10] shell).map
      (fun x => (x.1, x.2.attr.echo)) = some (some ⟨false, some []⟩, false) := by
    decide +kernel
  obtain ⟨⟨r, s'⟩, hfollow, heq⟩ := Option.map_eq_some_iff.mp hrun
  obtain ⟨rfl, hecho⟩ := Prod.mk.inj heq
  obtain ⟨tr, hexec⟩ := follow_exec (fun _ _ _ _ _ _ => reply_sound) hfollow
  have hecho : s'.attr.echo = false := hecho
  refine ⟨tr, s', hexec, shell_entry, rfl, hecho, fun hrestored => ?_⟩
  rw [hrestored.attr] at hecho
  cases hecho

end LibrePortable.Nc
