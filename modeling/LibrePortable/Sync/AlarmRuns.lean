import LibrePortable.Sync.Alarm

/-!
# No alarm rings late

While an alarm is set one thread is under way, with the lapse and the handle in the
variables of the file; all the others are over. `speed_alarm_free` ends it, or finds that it
has ended, so that nothing is left that could call the handler.
-/

namespace LibrePortable.Sync

open Lib Prog

variable {F : Type}

/-! ## Where a thread can stand -/

/-- A point of `speed_timer`. -/
inductive TimerSpot (F : Type) where
  | start | lapse | sleep (n : UInt) | handler | ring (f : Option F) | done

/-- What is still to be done there. -/
def TimerSpot.code : TimerSpot F → AlarmProg F UInt
  | .start => speedTimer
  | .lapse => do
    let lapse ← Prog.call .getLapse .ret
    Sync.sleep lapse
    let handler ← Prog.call .getHandler .ret
    Prog.call (.call handler) .ret
    return 0#32
  | .sleep n => do
    Sync.sleep n
    let handler ← Prog.call .getHandler .ret
    Prog.call (.call handler) .ret
    return 0#32
  | .handler => do
    let handler ← Prog.call .getHandler .ret
    Prog.call (.call handler) .ret
    return 0#32
  | .ring f => do
    Prog.call (.call f) .ret
    return 0#32
  | .done => .ret 0#32

/-- What its record says there. -/
def TimerSpot.Tells (t : Timer F) : TimerSpot F → Prop
  | .start | .lapse => t.slept = none ∧ t.called = 0
  | .sleep n => n = t.due ∧ t.slept = none ∧ t.called = 0
  | .handler => t.slept = some t.due ∧ t.called = 0
  | .ring f => f ≠ none ∧ t.slept = some t.due ∧ t.called = 0
  | .done => t.slept = some t.due ∧ t.called = 1

structure Stands (t : Timer F) (p : TimerSpot F) : Prop where
  rest : t.rest = p.code
  tells : p.Tells t

/-- The variables, as one step of a thread leaves them. -/
structure Beside (w w' : AlarmWorld F) : Prop where
  lapse : w'.lapse = w.lapse
  thread : w'.thread = w.thread
  next : w'.next = w.next
  handles : w'.handles = w.handles
  ub : w'.ub = w.ub
  handler : w.handler ≠ none → w'.handler ≠ none

theorem Beside.refl (w : AlarmWorld F) : Beside w w := ⟨rfl, rfl, rfl, rfl, rfl, id⟩

/-- **One step of a thread.** -/
theorem Stands.move {w w₁ : AlarmWorld F} {t : Timer F} {p : TimerSpot F} {e : AlarmCall F}
    {k : AlarmAnswer e → AlarmProg F UInt} {r : AlarmAnswer e} (h : Stands t p)
    (hrest : t.rest = .call e k) (ha : w.Answers e r w₁) (hhandler : w.handler ≠ none)
    (hlapse : w.lapse = t.due) :
    Beside w w₁ ∧ w₁.timers = w.timers ∧ (t.went e (k r)).due = t.due ∧
      ∃ p', Stands (t.went e (k r)) p' ∧ p' ≠ .start := by
  have hcode : p.code = .call e k := h.rest.symm.trans hrest
  have htells := h.tells
  cases p with
  | start =>
      cases hcode
      obtain rfl : w₁ = _ := ha
      exact ⟨⟨rfl, rfl, rfl, rfl, rfl, id⟩, rfl, rfl, .lapse, ⟨rfl, htells⟩, nofun⟩
  | lapse =>
      cases hcode
      obtain ⟨rfl, rfl⟩ := ha
      exact ⟨.refl _, rfl, rfl, .sleep w₁.lapse, ⟨rfl, hlapse, htells⟩, nofun⟩
  | sleep n =>
      cases hcode
      obtain rfl : w₁ = _ := ha
      exact ⟨.refl _, rfl, rfl, .handler, ⟨rfl, congrArg some htells.1, htells.2.2⟩, nofun⟩
  | handler =>
      cases hcode
      obtain ⟨rfl, rfl⟩ := ha
      exact ⟨.refl _, rfl, rfl, .ring w₁.handler, ⟨rfl, hhandler, htells⟩, nofun⟩
  | ring f =>
      cases hcode
      cases f with
      | none => exact absurd rfl htells.1
      | some f =>
          obtain ⟨g, rfl⟩ := ha
          have hbeside : Beside w { w with handler := some g } :=
            ⟨rfl, rfl, rfl, rfl, rfl, fun _ => Option.some_ne_none g⟩
          refine ⟨hbeside, rfl, rfl, .done, ?_, nofun⟩
          exact ⟨rfl, htells.2.1, by rw [Timer.went, htells.2.2]⟩
  | done => cases hcode

/-! ## The threads of a benchmark -/

/-- All threads but `cur` are over; that one has the variables, and `h` is the only handle
that is open. -/
structure Alarms (cur : Option Nat) (h : Option ThreadHandle) (w : AlarmWorld F) : Prop where
  defined : w.ub = false
  fresh : ∀ i, w.next ≤ i → w.timers i = none
  stands : ∀ i t, w.timers i = some t → ∃ p, Stands t p
  ended : ∀ i t, w.timers i = some t → cur ≠ some i → t.Over
  handler : cur ≠ none → w.handler ≠ none
  lapse : ∀ i t, cur = some i → w.timers i = some t → w.lapse = t.due
  started : ∀ i t, cur = some i → w.timers i = some t → w.schlock = true → t.rest ≠ speedTimer
  handles : ∀ k, w.handles k ≠ none → h = some k

section Moves

variable {w w' : AlarmWorld F} {cur : Option Nat} {h : Option ThreadHandle} {i : Nat}

/-- Where a thread is over nothing more happens to it. -/
theorem Timer.Over.still {t : Timer F} {e : AlarmCall F} {k : AlarmAnswer e → AlarmProg F UInt}
    (ho : t.Over) (halive : t.alive = true) (hrest : t.rest = .call e k) : False := by
  rcases ho with hdead | ⟨a, hret⟩
  · rw [hdead] at halive
    cases halive
  · rw [hret] at hrest
    cases hrest

theorem Stands.started {t : Timer F} {p : TimerSpot F} (hp : Stands t p) (hne : p ≠ .start) :
    t.rest ≠ speedTimer := by
  intro hstart
  have hcode : p.code = speedTimer := hp.rest.symm.trans hstart
  cases p with
  | start => exact hne rfl
  | lapse | sleep | handler | ring | done => cases hcode

/-- **The threads go on**: only the one that has the variables can. -/
theorem Alarms.drift (ha : Alarms cur h w) (hstep : w.TimerStep i w') :
    cur = some i ∧ Alarms cur h w' ∧ Beside w w' ∧ (∀ j, j ≠ i → w'.timers j = w.timers j) ∧
      ∃ t t', w.timers i = some t ∧ w'.timers i = some t' ∧ t'.due = t.due ∧ t'.rest ≠ speedTimer ∧
        t.called ≤ t'.called := by
  obtain ⟨t, e, k, r, w₁, ht, halive, hrest, hans, rfl⟩ := hstep
  have hcur : cur = some i := by
    by_contra hne
    exact (ha.ended i t ht hne).still halive hrest
  obtain ⟨p, hp⟩ := ha.stands i t ht
  obtain ⟨hb, htimers, hdue, p', hp', hne⟩ :=
    hp.move hrest hans (ha.handler (by rw [hcur]; exact Option.some_ne_none i))
      (ha.lapse i t hcur ht)
  have hself : (w₁.setTimer i (t.went e (k r))).timers i = some (t.went e (k r)) :=
    Function.update_self ..
  have hother : ∀ j, j ≠ i → (w₁.setTimer i (t.went e (k r))).timers j = w.timers j := by
    intro j hj
    rw [← htimers]
    exact Function.update_of_ne hj ..
  have hstart : (t.went e (k r)).rest ≠ speedTimer := hp'.started hne
  have hcalled : t.called ≤ (t.went e (k r)).called := by
    cases e <;> first | exact Nat.le_succ _ | exact Nat.le_refl _
  refine ⟨hcur, ?_, ⟨hb.lapse, hb.thread, hb.next, hb.handles, hb.ub, hb.handler⟩, hother,
    t, _, ht, hself, hdue, hstart, hcalled⟩
  have hif : ∀ j t', (w₁.setTimer i (t.went e (k r))).timers j = some t' →
      (j = i ∧ t' = t.went e (k r)) ∨ (j ≠ i ∧ w.timers j = some t') := by
    intro j t' hj
    by_cases hji : j = i
    · subst hji
      exact .inl ⟨rfl, (Option.some.inj (hself.symm.trans hj)).symm⟩
    · exact .inr ⟨hji, (hother j hji).symm.trans hj⟩
  refine
    { defined := hb.ub.trans ha.defined, fresh := fun j hj => ?_, stands := fun j t' hj => ?_
      ended := fun j t' hj hcj => ?_, handler := fun hc => hb.handler (ha.handler hc)
      lapse := fun j t' hcj hj => ?_, started := fun j t' hcj hj _ => ?_
      handles := fun k hk => ha.handles k fun hn => hk (by rw [← hn]; exact congrFun hb.handles k) }
  · have hnone : w.timers j = none := ha.fresh j (hb.next ▸ hj)
    have hne : j ≠ i := by
      intro heq
      rw [← heq, hnone] at ht
      cases ht
    exact (hother j hne).trans hnone
  · rcases hif j t' hj with ⟨-, rfl⟩ | ⟨-, hj⟩
    · exact ⟨p', hp'⟩
    · exact ha.stands j t' hj
  · rcases hif j t' hj with ⟨rfl, -⟩ | ⟨-, hj⟩
    · exact absurd hcur hcj
    · exact ha.ended j t' hj hcj
  · rcases hif j t' hj with ⟨-, rfl⟩ | ⟨-, hj⟩
    · exact hb.lapse.trans ((ha.lapse i t hcur ht).trans hdue.symm)
    · exact hb.lapse.trans (ha.lapse j t' hcj hj)
  · rcases hif j t' hj with ⟨-, rfl⟩ | ⟨hji, -⟩
    · exact hstart
    · exact absurd (Option.some.inj (hcj.symm.trans hcur)) hji

/-- Where all are over, nothing moves. -/
theorem Alarms.still (ha : Alarms none h w) : ¬ (alarmWorld F).Drift w w' := by
  rintro ⟨i, hstep⟩
  cases (ha.drift hstep).1

/-- The thread that has the variables is over too. -/
theorem Alarms.rest (ha : Alarms cur h w)
    (hover : ∀ i t, cur = some i → w.timers i = some t → t.Over) : Alarms none h w where
  defined := ha.defined
  fresh := ha.fresh
  stands := ha.stands
  ended i t ht _ := by
    by_cases hc : cur = some i
    · exact hover i t hc ht
    · exact ha.ended i t ht hc
  handler := fun hc => absurd rfl hc
  lapse := nofun
  started := nofun
  handles := ha.handles

end Moves

/-! ## The functions -/

section Specs

variable {w : AlarmWorld F} {seconds : UInt}

/-- No alarm is set. -/
def NoAlarm (w : AlarmWorld F) : Prop := Alarms none none w

/-- Thread `i`, whose handle is `h`, is the alarm. -/
structure AlarmSet (seconds : UInt) (i : Nat) (h : ThreadHandle) (w : AlarmWorld F) : Prop where
  alarms : Alarms (some i) (some h) w
  next : w.next = i + 1
  handle : w.handles h = some i
  due : ∃ t, w.timers i = some t ∧ t.due = seconds * 1000#32

/-- `speed_alarm` has returned. -/
structure AlarmReady (seconds : UInt) (i : Nat) (h : ThreadHandle) (w : AlarmWorld F) : Prop where
  set : AlarmSet seconds i h w
  thread : w.thread = some h
  started : ∀ t, w.timers i = some t → t.rest ≠ speedTimer

/-- The thread is over, and its handle is still open. -/
structure AlarmOver (i : Nat) (h : ThreadHandle) (w : AlarmWorld F) : Prop where
  alarms : Alarms none (some h) w
  handle : w.handles h = some i
  thread : w.thread = some h

theorem stable_of_still {P : AlarmWorld F → Prop} {h : Option ThreadHandle}
    (hP : ∀ w, P w → Alarms none h w) : (alarmWorld F).Stable P :=
  fun w _ hw hd => absurd hd (hP w hw).still

theorem AlarmSet.drift {i : Nat} {h : ThreadHandle} {w' : AlarmWorld F}
    (hs : AlarmSet seconds i h w) (hd : (alarmWorld F).Drift w w') :
    AlarmSet seconds i h w' ∧ w'.thread = w.thread ∧
      ∀ t, w'.timers i = some t → t.rest ≠ speedTimer := by
  obtain ⟨j, hstep⟩ := hd
  obtain ⟨hj, ha, hb, -, t, t', ht, ht', hdue, hstart, -⟩ := hs.alarms.drift hstep
  cases hj
  refine ⟨⟨ha, hb.next.trans hs.next, (congrFun hb.handles h).trans hs.handle, t', ht', ?_⟩,
    hb.thread, fun t₁ ht₁ => ?_⟩
  · obtain ⟨t₀, ht₀, hdue₀⟩ := hs.due
    rw [hdue, ← hdue₀, Option.some.inj (ht.symm.trans ht₀)]
  · rwa [Option.some.inj (ht₁.symm.trans ht')]

theorem AlarmReady.stable {i : Nat} {h : ThreadHandle} :
    (alarmWorld F).Stable (AlarmReady seconds i h) := by
  intro w w' hr hd
  obtain ⟨hs, hthread, hstart⟩ := hr.set.drift hd
  exact ⟨hs, hthread.trans hr.thread, hstart⟩

theorem stable_true : (alarmWorld F).Stable fun _ : AlarmWorld F => True := fun _ _ _ _ => trivial

/-- Nothing comes back from it. -/
theorem giveUp_meets {α : Type} {P : AlarmWorld F → Prop} {Q : α → AlarmWorld F → Prop}
    (format : String) (f : Unit → AlarmProg F α) :
    Meets (alarmWorld F) P (giveUp format >>= f) Q := by
  refine Meets.pre (P := fun _ => True) ?_ fun _ _ => trivial
  refine Meets.call (M := fun _ _ => True) stable_true (fun _ _ _ _ _ => trivial) fun err => ?_
  refine Meets.call (M := fun _ _ => True) stable_true (fun _ _ _ _ _ => trivial) fun _ => ?_
  exact Meets.call (M := fun r _ => r.elim) stable_true (fun _ r => r.elim) fun r => r.elim

/-- A new thread beside those that are over. -/
theorem Alarms.created (h : ThreadHandle) (ha : NoAlarm w) (hhandler : w.handler ≠ none)
    (hlapse : w.lapse = seconds * 1000#32) (hschlock : w.schlock = false) :
    AlarmSet seconds w.next h (w.created h) := by
  have hself : (w.created h).timers w.next = some (.new w.lapse) := Function.update_self ..
  have hif : ∀ i t, (w.created h).timers i = some t →
      (i = w.next ∧ t = .new w.lapse) ∨ (i ≠ w.next ∧ w.timers i = some t) := by
    intro i t ht
    by_cases hi : i = w.next
    · subst hi
      exact .inl ⟨rfl, (Option.some.inj (hself.symm.trans ht)).symm⟩
    · exact .inr ⟨hi, (Function.update_of_ne hi ..).symm.trans ht⟩
  refine ⟨?_, rfl, Function.update_self .., _, hself, hlapse⟩
  refine
    { defined := ha.defined, fresh := fun i hi => ?_, stands := fun i t ht => ?_
      ended := fun i t ht hc => ?_, handler := fun _ => hhandler, lapse := fun i t hc ht => ?_
      started := fun i t _ _ hs => ?_, handles := fun k hk => ?_ }
  · have hi : w.next + 1 ≤ i := hi
    have hne : i ≠ w.next := by omega
    exact (Function.update_of_ne hne ..).trans (ha.fresh i (by omega))
  · rcases hif i t ht with ⟨-, rfl⟩ | ⟨-, ht⟩
    · exact ⟨.start, rfl, rfl, rfl⟩
    · exact ha.stands i t ht
  · rcases hif i t ht with ⟨rfl, -⟩ | ⟨-, ht⟩
    · exact absurd rfl hc
    · exact ha.ended i t ht nofun
  · rcases hif i t ht with ⟨-, rfl⟩ | ⟨hi, -⟩
    · rfl
    · exact absurd (Option.some.inj hc).symm hi
  · rw [show w.schlock = true from hs] at hschlock
    cases hschlock
  · by_contra hne
    have hk : Function.update w.handles h (some w.next) k ≠ none := hk
    rw [Function.update_of_ne fun heq => hne (congrArg some heq.symm)] at hk
    cases ha.handles k hk

theorem awaitSchlock_meets {i : Nat} {h : ThreadHandle} (fuel : Nat) :
    Meets (alarmWorld F) (fun w => AlarmSet seconds i h w ∧ w.thread = some h) (awaitSchlock fuel)
      fun r w => r ≠ none → AlarmReady seconds i h w := by
  have hstable : (alarmWorld F).Stable fun w => AlarmSet seconds i h w ∧ w.thread = some h :=
    fun w w' hw hd => ⟨(hw.1.drift hd).1, (hw.1.drift hd).2.1.trans hw.2⟩
  induction fuel with
  | zero => exact Meets.ret hstable fun _ _ hr => absurd rfl hr
  | succ fuel ih =>
      refine Meets.call_bind (M := fun r w => (AlarmSet seconds i h w ∧ w.thread = some h) ∧
        (r = true → AlarmReady seconds i h w)) hstable ?_ fun started => ?_
      · rintro w r w' hw ⟨rfl, rfl⟩
        refine ⟨hw, fun hs => ⟨hw.1, hw.2, fun t ht => ?_⟩⟩
        exact hw.1.alarms.started i t rfl ht hs
      · cases started with
        | true =>
            refine Meets.pre (P := AlarmReady seconds i h) ?_ fun w hw => hw.2 rfl
            exact Meets.ret AlarmReady.stable fun w hw _ => hw
        | false =>
            refine Meets.pre (P := fun w => AlarmSet seconds i h w ∧ w.thread = some h) ?_
              fun w hw => hw.1
            refine Meets.call_bind hstable ?_ fun _ => ih
            rintro w _ w' hw rfl
            exact hw

/-- **`speed_alarm`** comes back when the thread has started, with the lapse that was asked
for. -/
theorem speedAlarm_meets (fuel : Nat) (seconds : UInt) :
    Meets (alarmWorld F) (fun w => NoAlarm w ∧ w.handler ≠ none) (speedAlarm fuel seconds)
      fun r w => ∀ s, r = some s → s = seconds ∧ ∃ i h, AlarmReady seconds i h w := by
  have hstill : ∀ {P : AlarmWorld F → Prop}, (alarmWorld F).Stable fun w => NoAlarm w ∧ P w :=
    stable_of_still fun w hw => hw.1
  refine Meets.call_bind (M := fun _ w => NoAlarm w ∧ w.handler ≠ none ∧
    w.lapse = seconds * 1000#32) hstill ?_ fun _ => ?_
  · rintro w _ w' ⟨ha, hhandler⟩ rfl
    exact ⟨{ ha with lapse := nofun }, hhandler, rfl⟩
  refine Meets.call_bind (M := fun _ w => NoAlarm w ∧ w.handler ≠ none ∧
    w.lapse = seconds * 1000#32 ∧ w.schlock = false) hstill ?_ fun _ => ?_
  · rintro w _ w' ⟨ha, hhandler, hlapse⟩ rfl
    exact ⟨{ ha with started := nofun }, hhandler, hlapse, rfl⟩
  refine Meets.call_bind (M := fun r w => ∀ h, r = some h → ∃ i, AlarmSet seconds i h w) hstill
    ?_ fun thread => ?_
  · rintro w r w' ⟨ha, hhandler, hlapse, hschlock⟩ (⟨rfl, -⟩ | ⟨h, -, rfl, rfl⟩) h' hr
    · cases hr
    · cases hr
      exact ⟨_, Alarms.created h ha hhandler hlapse hschlock⟩
  cases thread with
  | none =>
      refine Meets.pre (P := fun _ => True) ?_ fun _ _ => trivial
      refine Meets.call_bind (M := fun _ _ => True) stable_true (fun _ _ _ _ _ => trivial)
        fun _ => ?_
      exact giveUp_meets _ _
  | some h =>
      refine Meets.pre (P := fun w => ∃ i, AlarmSet seconds i h w) ?_ fun w hw => hw h rfl
      refine Meets.of_exists fun i => ?_
      refine Meets.call_bind (M := fun _ w => AlarmSet seconds i h w ∧ w.thread = some h)
        (fun w w' hw hd => (hw.drift hd).1) ?_ fun _ => ?_
      · rintro w _ w' hw rfl
        exact ⟨⟨{ hw.alarms with }, hw.next, hw.handle, hw.due⟩, rfl⟩
      refine Meets.bind (awaitSchlock_meets fuel) fun waited => ?_
      cases waited with
      | none =>
          refine Meets.pre (P := fun _ => True) ?_ fun _ _ => trivial
          exact Meets.ret stable_true fun _ _ s hs => by cases hs
      | some _ =>
          refine Meets.pre (P := AlarmReady seconds i h) ?_ fun w hw => hw (Option.some_ne_none _)
          refine Meets.ret AlarmReady.stable fun w hw s hs => ?_
          cases hs
          exact ⟨rfl, i, h, hw⟩

/-- A thread that has called the handler is over. -/
theorem Stands.ended {t : Timer F} {p : TimerSpot F} (hp : Stands t p) (hcalled : t.called ≠ 0) :
    t.Over := by
  have htells := hp.tells
  cases p with
  | done => exact .inr ⟨_, hp.rest⟩
  | start | lapse => exact absurd htells.2 hcalled
  | sleep => exact absurd htells.2.2 hcalled
  | handler => exact absurd htells.2 hcalled
  | ring => exact absurd htells.2.2 hcalled

theorem AlarmReady.rung {i : Nat} {h : ThreadHandle} (hr : AlarmReady seconds i h w)
    (hrung : w.Rung) : AlarmOver i h w := by
  obtain ⟨j, t, hnext, ht, hcalled⟩ := hrung
  obtain rfl : i = j := Nat.succ.inj (hr.set.next.symm.trans hnext)
  refine ⟨hr.set.alarms.rest fun k t' hk ht' => ?_, hr.set.handle, hr.thread⟩
  cases hk
  obtain rfl : t = t' := Option.some.inj (ht.symm.trans ht')
  obtain ⟨p, hp⟩ := hr.set.alarms.stands i t ht
  exact hp.ended hcalled

theorem AlarmReady.terminated {i : Nat} {h : ThreadHandle} {t : Timer F}
    (hr : AlarmReady seconds i h w) (ht : w.timers i = some t) :
    AlarmOver i h (w.setTimer i { t with alive := false }) := by
  have ha := hr.set.alarms
  have hself : (w.setTimer i { t with alive := false }).timers i = some { t with alive := false } :=
    Function.update_self ..
  have hif : ∀ j t', (w.setTimer i { t with alive := false }).timers j = some t' →
      (j = i ∧ t' = { t with alive := false }) ∨ (j ≠ i ∧ w.timers j = some t') := by
    intro j t' hj
    by_cases hji : j = i
    · subst hji
      exact .inl ⟨rfl, (Option.some.inj (hself.symm.trans hj)).symm⟩
    · exact .inr ⟨hji, (Function.update_of_ne hji ..).symm.trans hj⟩
  refine ⟨?_, hr.set.handle, hr.thread⟩
  refine
    { defined := ha.defined, fresh := fun j hj => ?_, stands := fun j t' hj => ?_
      ended := fun j t' hj _ => ?_, handler := fun hc => absurd rfl hc, lapse := nofun
      started := nofun, handles := ha.handles }
  · have hnone := ha.fresh j hj
    have hne : j ≠ i := by
      intro heq
      rw [heq, ht] at hnone
      cases hnone
    exact (Function.update_of_ne hne ..).trans hnone
  · rcases hif j t' hj with ⟨-, rfl⟩ | ⟨-, hj⟩
    · obtain ⟨p, hp⟩ := ha.stands i t ht
      refine ⟨p, hp.rest, ?_⟩
      have htells := hp.tells
      cases p <;> exact htells
    · exact ha.stands j t' hj
  · rcases hif j t' hj with ⟨-, rfl⟩ | ⟨hji, hj⟩
    · exact .inl rfl
    · exact ha.ended j t' hj fun hc => hji (Option.some.inj hc).symm

/-- Closing the handle and clearing the variables. -/
theorem closing_meets {i : Nat} {h : ThreadHandle} :
    Meets (alarmWorld F) (AlarmOver i h) (do
      let h ← getThread
      if (← closeHandle h) = false then giveUp "CloseHandle failed (%lu)"
      setThread none
      setLapse 0#32
      setSchlock false) fun _ w => NoAlarm w ∧ w.thread = none := by
  have hstable : (alarmWorld F).Stable (AlarmOver i h) := stable_of_still fun w hw => hw.alarms
  have hstill : ∀ {P : AlarmWorld F → Prop}, (alarmWorld F).Stable fun w => NoAlarm w ∧ P w :=
    stable_of_still fun w hw => hw.1
  refine Meets.call_bind (M := fun r w => r = some h ∧ AlarmOver i h w) ?_ ?_ fun k => ?_
  · exact hstable
  · rintro w r w' hw ⟨rfl, rfl⟩
    exact ⟨hw.thread, hw⟩
  refine Meets.of_fact fun hk => ?_
  subst hk
  refine Meets.call_bind (M := fun r w => r = true → NoAlarm w ∧ True) hstable ?_ fun closed => ?_
  · intro w r w' hw hans hr
    have hans : (r = false ∧ w' = w) ∨ (r = true ∧ w' = { w with
        handles := Function.update w.handles h none }) := by
      simpa [alarmWorld, AlarmWorld.Answers, hw.handle] using hans
    rcases hans with ⟨rfl, -⟩ | ⟨-, rfl⟩
    · cases hr
    · refine ⟨{ hw.alarms with handles := fun k hk => ?_ }, trivial⟩
      by_cases hkh : k = h
      · subst hkh
        exact absurd (Function.update_self ..) hk
      · have hk : Function.update w.handles h none k ≠ none := hk
        rw [Function.update_of_ne hkh] at hk
        exact absurd (Option.some.inj (hw.alarms.handles k hk)).symm hkh
  cases closed with
  | false => exact giveUp_meets _ _
  | true =>
      refine Meets.pre (P := fun w => NoAlarm w ∧ True) ?_ fun w hw => hw rfl
      refine Meets.call_bind (M := fun _ w => NoAlarm w ∧ w.thread = none) hstill ?_ fun _ => ?_
      · rintro w _ w' ⟨ha, -⟩ rfl
        exact ⟨{ ha with }, rfl⟩
      refine Meets.call_bind (M := fun _ w => NoAlarm w ∧ w.thread = none) hstill ?_ fun _ => ?_
      · rintro w _ w' ⟨ha, hthread⟩ rfl
        exact ⟨{ ha with lapse := nofun }, hthread⟩
      refine Meets.call (M := fun _ w => NoAlarm w ∧ w.thread = none) hstill ?_ fun _ => ?_
      · rintro w _ w' ⟨ha, hthread⟩ rfl
        exact ⟨{ ha with started := nofun }, hthread⟩
      exact Meets.ret hstill fun _ hw => hw

/-- **`speed_alarm_free`** leaves no thread that could call the handler. -/
theorem speedAlarmFree_meets (run : Bool) :
    Meets (alarmWorld F)
      (fun w => (run = false → w.Rung) ∧ ∃ seconds i h, AlarmReady seconds i h w)
      (speedAlarmFree run) fun _ w => NoAlarm w ∧ w.thread = none := by
  cases run with
  | false =>
      refine Meets.pre (P := fun w => ∃ i h, AlarmOver i h w) ?_ ?_
      · exact Meets.of_exists fun i => Meets.of_exists fun h => closing_meets
      · rintro w ⟨hrung, seconds, i, h, hr⟩
        exact ⟨i, h, hr.rung (hrung rfl)⟩
  | true =>
      refine Meets.pre (P := fun w => ∃ seconds i h, AlarmReady seconds i h w) ?_ fun w hw => hw.2
      refine Meets.of_exists fun seconds => Meets.of_exists fun i => Meets.of_exists fun h => ?_
      refine Meets.call_bind (M := fun r w => r = some h ∧ AlarmReady seconds i h w)
        AlarmReady.stable ?_ fun k => ?_
      · rintro w r w' hw ⟨rfl, rfl⟩
        exact ⟨hw.thread, hw⟩
      refine Meets.of_fact fun hk => ?_
      subst hk
      refine Meets.call_bind (M := fun r w => r = true → AlarmOver i h w) AlarmReady.stable ?_
        fun terminated => ?_
      · intro w r w' hw hans hr
        have hans : (r = false ∧ w' = w) ∨ ∃ t, w.timers i = some t ∧ r = true ∧
            w' = w.setTimer i { t with alive := false } := by
          simpa [alarmWorld, AlarmWorld.Answers, hw.set.handle] using hans
        rcases hans with ⟨rfl, -⟩ | ⟨t, ht, -, rfl⟩
        · cases hr
        · exact hw.terminated ht
      cases terminated with
      | false => exact giveUp_meets _ _
      | true => exact Meets.pre closing_meets fun w hw => hw rfl

end Specs

/-! ## What is over stays over -/

section Later

variable {w w' w'' : AlarmWorld F}

/-- Threads are made in the order of their numbers. -/
def Fresh (w : AlarmWorld F) : Prop := ∀ i, w.next ≤ i → w.timers i = none

/-- Threads that were over have called no handler since. -/
structure Later (w w' : AlarmWorld F) : Prop where
  fresh : Fresh w'
  next : w.next ≤ w'.next
  past : ∀ i t, w.timers i = some t → t.Over →
    ∃ t', w'.timers i = some t' ∧ t'.Over ∧ t'.called = t.called

theorem Later.refl (h : Fresh w) : Later w w :=
  ⟨h, Nat.le_refl _, fun _ t ht ho => ⟨t, ht, ho, rfl⟩⟩

theorem Later.trans (h : Later w w') (h' : Later w' w'') : Later w w'' := by
  refine ⟨h'.fresh, Nat.le_trans h.next h'.next, fun i t ht ho => ?_⟩
  obtain ⟨t', ht', ho', hc⟩ := h.past i t ht ho
  obtain ⟨t'', ht'', ho'', hc'⟩ := h'.past i t' ht' ho'
  exact ⟨t'', ht'', ho'', hc'.trans hc⟩

/-- A change of one thread, unless it is over and rings. -/
theorem Later.setTimer {i : Nat} {t t' : Timer F} (h : Fresh w) (ht : w.timers i = some t)
    (ho : t.Over → t'.Over ∧ t'.called = t.called) : Later w (w.setTimer i t') := by
  refine ⟨fun j hj => ?_, Nat.le_refl _, fun j u hu hou => ?_⟩
  · have hnone := h j hj
    have hne : j ≠ i := by
      intro heq
      rw [heq, ht] at hnone
      cases hnone
    exact (Function.update_of_ne hne ..).trans hnone
  · by_cases hji : j = i
    · subst hji
      obtain rfl : t = u := Option.some.inj (ht.symm.trans hu)
      exact ⟨t', Function.update_self .., ho hou⟩
    · exact ⟨u, (Function.update_of_ne hji ..).trans hu, hou, rfl⟩

theorem later_answers {e : AlarmCall F} {r : AlarmAnswer e} (h : Fresh w) (ha : w.Answers e r w') :
    Later w w' := by
  have hsame : w'.timers = w.timers → w'.next = w.next → Later w w' := by
    intro htimers hnext
    refine ⟨fun i hi => ?_, Nat.le_of_eq hnext.symm, fun i t ht ho => ⟨t, ?_, ho, rfl⟩⟩
    · rw [htimers]
      exact h i (hnext ▸ hi)
    · rw [htimers, ht]
  cases e with
  | setHandler | setLapse | setSchlock | setThread | getLastError | sleep | printf =>
      obtain rfl : w' = _ := ha
      exact hsame rfl rfl
  | getHandler | getLapse | getSchlock | getThread =>
      obtain ⟨-, rfl⟩ := ha
      exact hsame rfl rfl
  | createThread =>
      rcases ha with ⟨-, rfl⟩ | ⟨k, -, -, rfl⟩
      · exact hsame rfl rfl
      · have hold : ∀ i, i ≠ w.next → (w.created k).timers i = w.timers i := fun i hi =>
          Function.update_of_ne hi ..
        refine ⟨fun i hi => ?_, Nat.le_succ _, fun i t ht ho => ⟨t, ?_, ho, rfl⟩⟩
        · have hi : w.next + 1 ≤ i := hi
          rw [hold i (by omega)]
          exact h i (by omega)
        · have hne : i ≠ w.next := by
            intro heq
            rw [heq, h w.next (Nat.le_refl _)] at ht
            cases ht
          rw [hold i hne, ht]
  | terminateThread k =>
      simp only [AlarmWorld.Answers] at ha
      split at ha
      · rw [ha]
        exact ⟨h, Nat.le_refl _, fun _ t ht ho => ⟨t, ht, ho, rfl⟩⟩
      · rcases ha with ⟨-, rfl⟩ | ⟨t, ht, -, rfl⟩
        · exact hsame rfl rfl
        · exact Later.setTimer h ht fun _ => ⟨.inl rfl, rfl⟩
  | closeHandle k =>
      simp only [AlarmWorld.Answers] at ha
      split at ha
      · rcases ha with ⟨-, rfl⟩ | ⟨-, rfl⟩ <;> exact hsame rfl rfl
      · rw [ha]
        exact ⟨h, Nat.le_refl _, fun _ t ht ho => ⟨t, ht, ho, rfl⟩⟩
  | call func =>
      cases func with
      | none =>
          obtain rfl : w' = _ := ha
          exact hsame rfl rfl
      | some func =>
          obtain ⟨g, rfl⟩ := ha
          exact hsame rfl rfl
  | exitProcess => exact r.elim

theorem later_drift (h : Fresh w) (hd : (alarmWorld F).Drift w w') : Later w w' := by
  obtain ⟨i, t, e, k, r, w₁, ht, halive, hrest, hans, rfl⟩ := hd
  have hl := later_answers h hans
  have hi : i < w₁.next := by
    by_contra hle
    have hnone := h i (Nat.le_trans hl.next (Nat.le_of_not_lt hle))
    rw [ht] at hnone
    cases hnone
  refine ⟨fun j hj => ?_, hl.next, fun j u hu hou => ?_⟩
  · have hj : w₁.next ≤ j := hj
    exact (Function.update_of_ne (by omega) ..).trans (hl.fresh j hj)
  · by_cases hji : j = i
    · -- the thread that moves was not over
      subst hji
      obtain rfl : t = u := Option.some.inj (ht.symm.trans hu)
      exact (hou.still halive hrest).elim
    · obtain ⟨u', hu', hou', hc⟩ := hl.past j u hu hou
      exact ⟨u', (Function.update_of_ne hji ..).trans hu', hou', hc⟩

theorem later_exec {α : Type} {p : AlarmProg F α} {tr : List (Event (AlarmCall F) AlarmAnswer)}
    {a : α} (h : Fresh w) (hexec : Exec (alarmWorld F) p w tr a w') : Later w w' := by
  induction hexec with
  | ret => exact .refl h
  | call hans _ ih => exact (later_answers h hans).trans (ih (later_answers h hans).fresh)
  | drift hd _ ih => exact (later_drift h hd).trans (ih (later_drift h hd).fresh)

theorem later_step {s s' : AlarmState F} {op : AlarmOp F} (h : Fresh s.world)
    (hs : AlarmStep s op s') : Later s.world s'.world := by
  cases hs with
  | signal hexec | alarm _ hexec | free _ hexec => exact later_exec h hexec
  | wait hd => exact later_drift h hd

theorem later_path {s s' : AlarmState F} {ops : List (AlarmOp F)} (h : Fresh s.world)
    (hp : (alarms F).Path s ops s') : Later s.world s'.world := by
  induction hp with
  | nil => exact .refl h
  | cons hs _ ih => exact (later_step h hs).trans (ih (later_step h hs).fresh)

end Later

/-! ## Every run -/

/-- The invariant of a benchmark. -/
def AlarmState.Sound (s : AlarmState F) : Prop :=
  match s.alarm with
  | none => NoAlarm s.world
  | some seconds => ∃ i h, AlarmReady seconds i h s.world

theorem AlarmState.Sound.alarms {s : AlarmState F} (hs : s.Sound) :
    ∃ cur h, Alarms cur h s.world := by
  obtain ⟨w, _ | seconds⟩ := s
  · exact ⟨none, none, hs⟩
  · obtain ⟨i, h, hr⟩ := hs
    exact ⟨some i, some h, hr.set.alarms⟩

theorem AlarmReady.handled {w : AlarmWorld F} {seconds : UInt} {i : Nat} {h : ThreadHandle} {f : F}
    (hr : AlarmReady seconds i h w) : AlarmReady seconds i h { w with handler := some f } :=
  ⟨⟨{ hr.set.alarms with handler := fun _ => Option.some_ne_none f }, hr.set.next, hr.set.handle,
    hr.set.due⟩, hr.thread, hr.started⟩

theorem sound_alarm {s s' : AlarmState F} {op : AlarmOp F} (hs : s.Sound)
    (hstep : AlarmStep s op s') : s'.Sound := by
  cases hstep with
  | @signal w w' a func tr hexec =>
      cases a with
      | none =>
          refine Meets.call (P := NoAlarm) (M := fun _ => NoAlarm) (Q := fun _ => NoAlarm)
            (stable_of_still fun _ h => h) ?_ (fun _ => ?_) w tr () w' hs hexec
          · rintro w _ w' ha rfl
            exact { ha with handler := fun hc => absurd rfl hc }
          · exact Meets.ret (stable_of_still fun _ h => h) fun _ h => h
      | some seconds =>
          obtain ⟨i, h, hr⟩ := hs
          refine ⟨i, h, Meets.call (M := fun _ => AlarmReady seconds i h)
            (Q := fun _ => AlarmReady seconds i h) AlarmReady.stable ?_ (fun _ => ?_)
            w tr () w' hr hexec⟩
          · rintro w _ w' hr rfl
            exact hr.handled
          · exact Meets.ret AlarmReady.stable fun _ h => h
  | @alarm w w' seconds r fuel tr hhandler hexec =>
      obtain ⟨rfl, i, h, hr⟩ := speedAlarm_meets fuel seconds w tr _ w' ⟨hs, hhandler⟩ hexec r rfl
      exact ⟨i, h, hr⟩
  | @free w w' seconds run tr hrung hexec =>
      obtain ⟨i, h, hr⟩ := hs
      exact (speedAlarmFree_meets run w tr () w' ⟨hrung, seconds, i, h, hr⟩ hexec).1
  | @wait w w' a hd =>
      cases a with
      | none => exact absurd hd (show NoAlarm w from hs).still
      | some seconds =>
          obtain ⟨i, h, hr⟩ := hs
          exact ⟨i, h, AlarmReady.stable w w' hr hd⟩

theorem alarms_sound {s : AlarmState F} (h : (alarms F).Reachable s) : s.Sound := by
  refine Lts.Reachable.invariant (M := alarms F) (I := AlarmState.Sound) (fun s hi => ?_)
    (fun _ _ _ _ hs hstep => sound_alarm hs hstep) h
  obtain ⟨halarm, -, htimers, hhandles, -, hub⟩ := hi
  have hnone : ∀ {i t}, s.world.timers i ≠ some t := by
    intro i t ht
    rw [htimers i] at ht
    cases ht
  unfold AlarmState.Sound
  rw [halarm]
  exact
    { defined := hub, fresh := fun i _ => htimers i, stands := fun i t ht => absurd ht hnone
      ended := fun i t ht _ => absurd ht hnone, handler := fun hc => absurd rfl hc, lapse := nofun
      started := nofun, handles := fun k hk => absurd (hhandles k) hk }

/-- A thread calls the handler once at most, and when it has slept its lapse. -/
theorem Stands.rings_once {t : Timer F} {p : TimerSpot F} (hp : Stands t p) :
    t.called ≤ 1 ∧ (t.called = 1 → t.slept = some t.due) := by
  have htells := hp.tells
  have hzero : t.called = 0 → t.called ≤ 1 ∧ (t.called = 1 → t.slept = some t.due) := by omega
  cases p with
  | start | lapse => exact hzero htells.2
  | sleep => exact hzero htells.2.2
  | handler => exact hzero htells.2
  | ring => exact hzero htells.2.2
  | done => exact ⟨Nat.le_of_eq htells.2, fun _ => htells.1⟩

/-- **Alarms ring in time, or not at all.** However the threads move, an alarm is one thread,
which sleeps what was asked for before it calls the handler, once. When `speed_alarm_free`
has returned all threads are over for good and no handle is left open. -/
theorem alarms_ring_in_time {s : AlarmState F} (h : (alarms F).Reachable s) :
    s.world.ub = false ∧
      (∀ i t, s.world.timers i = some t →
        t.called ≤ 1 ∧ (t.called = 1 → t.slept = some t.due)) ∧
      (s.alarm = none →
        (∀ i t, s.world.timers i = some t → t.Over) ∧ ∀ k, s.world.handles k = none) ∧
      (∀ seconds, s.alarm = some seconds → ∃ i t k,
        s.world.timers i = some t ∧ t.due = seconds * 1000#32 ∧ t.rest ≠ speedTimer ∧
          s.world.thread = some k ∧ s.world.handles k = some i ∧
          (∀ k', k' ≠ k → s.world.handles k' = none) ∧
          ∀ j u, j ≠ i → s.world.timers j = some u → u.Over) ∧
      ∀ ops s', (alarms F).Path s ops s' → ∀ i t, s.world.timers i = some t → t.Over →
        ∃ t', s'.world.timers i = some t' ∧ t'.Over ∧ t'.called = t.called := by
  have hs := alarms_sound h
  obtain ⟨cur, k, ha⟩ := hs.alarms
  refine ⟨ha.defined, fun i t ht => ?_, fun hnone => ?_, fun seconds hset => ?_,
    fun ops s' hpath => (later_path ha.fresh hpath).past⟩
  · obtain ⟨p, hp⟩ := ha.stands i t ht
    exact hp.rings_once
  · unfold AlarmState.Sound at hs
    rw [hnone] at hs
    have hs : NoAlarm s.world := hs
    refine ⟨fun i t ht => hs.ended i t ht nofun, fun k => ?_⟩
    by_contra hk
    cases hs.handles k hk
  · unfold AlarmState.Sound at hs
    rw [hset] at hs
    obtain ⟨i, k, hr⟩ := hs
    obtain ⟨t, ht, hdue⟩ := hr.set.due
    refine ⟨i, t, k, ht, hdue, hr.started t ht, hr.thread, hr.set.handle, fun k' hne => ?_,
      fun j u hne hu => hr.set.alarms.ended j u hu ?_⟩
    · by_contra hk'
      exact hne (Option.some.inj (hr.set.alarms.handles k' hk')).symm
    · exact fun heq => hne (Option.some.inj heq).symm

/-- Nothing has been done yet. -/
def noAlarms : AlarmState Unit :=
  ⟨⟨none, 0#32, false, none, fun _ => none, 0, fun _ => none, false⟩, none⟩

/-- After `signal` there is a handler. -/
def signalled : AlarmWorld Unit := { noAlarms.world with handler := some () }

/-- A thread has been made to sleep 3 seconds. -/
def threeSeconds : AlarmWorld Unit :=
  { ({ signalled with lapse := 3000#32 } : AlarmWorld Unit).created 5 with thread := some 5 }

/-- It has said that it has started. -/
def speaking : Timer Unit :=
  { (Timer.new 3000#32 : Timer Unit) with rest := TimerSpot.lapse.code }

def ticking : AlarmState Unit :=
  ⟨({ threeSeconds with schlock := true } : AlarmWorld Unit).setTimer 0 speaking, some 3#32⟩

theorem alarms_ring_in_time_ticking : (alarms Unit).Reachable ticking ∧ ∃ i t k,
    ticking.world.timers i = some t ∧ t.due = 3#32 * 1000#32 ∧ t.rest ≠ speedTimer ∧
      ticking.world.thread = some k ∧ ticking.world.handles k = some i ∧
      (∀ k', k' ≠ k → ticking.world.handles k' = none) ∧
      ∀ j u, j ≠ i → ticking.world.timers j = some u → u.Over := by
  have h0 : (alarms Unit).Reachable noAlarms :=
    .init ⟨rfl, rfl, fun _ => rfl, fun _ => rfl, rfl, rfl⟩
  have hset : Exec (alarmWorld Unit) (speedSignal ()) noAlarms.world [⟨.setHandler (), ()⟩] ()
      signalled := .call rfl (.ret _ _)
  have h1 : (alarms Unit).Reachable ⟨signalled, none⟩ := h0.tail (AlarmStep.signal hset)
  have hmade : AlarmWorld.Answers { signalled with lapse := 3000#32 } .createThread (some 5)
      (({ signalled with lapse := 3000#32 } : AlarmWorld Unit).created 5) :=
    .inr ⟨5, rfl, rfl, rfl⟩
  have hsays : threeSeconds.TimerStep 0 ticking.world :=
    ⟨Timer.new 3000#32, .setSchlock true, _, (), { threeSeconds with schlock := true }, rfl, rfl,
      rfl, rfl, rfl⟩
  have hexec : Exec (alarmWorld Unit) (speedAlarm 1 3#32) signalled
      [⟨.setLapse 3000#32, ()⟩, ⟨.setSchlock false, ()⟩, ⟨.createThread, some 5⟩,
        ⟨.setThread (some 5), ()⟩, ⟨.getSchlock, true⟩] (some 3#32) ticking.world :=
    .call rfl (.call rfl (.call hmade (.call rfl
      (.drift ⟨0, hsays⟩ (.call ⟨rfl, rfl⟩ (.ret _ _))))))
  have hreach : (alarms Unit).Reachable ticking :=
    h1.tail (AlarmStep.alarm (Option.some_ne_none ()) hexec)
  exact ⟨hreach, (alarms_ring_in_time hreach).2.2.2.1 3#32 rfl⟩

end LibrePortable.Sync
