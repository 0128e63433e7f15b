import LibrePortable.Lib.Threads

/-!
# Temporary files

The `mkstemp` of `tests/compat/mkstemp.c` asks `_mktemp` for a name that nobody has, and then
makes the file only if that is still so. If somebody was faster it puts the placeholder back
and asks again. Any number of threads do this in one file system, while other programs make
and remove files there.
-/

namespace LibrePortable.Stdio

open Lib Prog Threads

/-- A string without its NUL. -/
abbrev Name := List Char

/-- What `mkstemp` calls, and what other programs do to the files. -/
inductive TempCall where
  /-- `_mktemp(template)` -/
  | mktemp (template : Name)
  /-- `open(path, O_RDWR | O_CREAT | O_EXCL, 0600)` -/
  | openExcl (path : Name)
  | put (path : Name)
  | remove (path : Name)

/-- `_mktemp` returns NULL or has filled the placeholder, `open` returns a descriptor or has
set errno. -/
def TempAnswer : TempCall → Type
  | .mktemp _ => Option Name
  | .openExcl _ => Except Nat Nat
  | .put _ | .remove _ => Unit

abbrev TempProg : Type → Type := Prog TempCall TempAnswer

/-- How a call can end. -/
inductive Temp where
  /-- A descriptor, and what is in the buffer of the template. -/
  | fd (n : Nat) (template : Name)
  /-- -1 -/
  | failed
  /-- `strcpy` has written outside the string. -/
  | undefined
  /-- It would have gone on for another round. -/
  | unfinished
  /-- What other programs return. -/
  | nothing

section Functions

def mktemp (template : Name) : TempProg (Option Name) := .call (.mktemp template) .ret
def openExcl (path : Name) : TempProg (Except Nat Nat) := .call (.openExcl path) .ret

def eexist : Nat := 17

def placeholder : Name := ['X', 'X', 'X', 'X', 'X', 'X']

/-- `strcpy(template+strlen(template)-6, "XXXXXX")` -/
def putBack (template : Name) : Option Name :=
  if template.length < 6 then none
  else some (template.take (template.length - 6) ++ placeholder)

/-- `mkstemp`, for so many rounds. -/
def mkstemp : (fuel : Nat) → (template : Name) → TempProg Temp
  | 0, _ => return .unfinished
  | fuel + 1, template => do
    match ← mktemp template with
    | none => return .failed
    | some template =>
      match ← openExcl template with
      | .ok fd => return .fd fd template
      | .error errno =>
        if errno = eexist then
          match putBack template with
          | none => return .undefined
          | some template => mkstemp fuel template
        else return .failed

end Functions

/-! ## The file system -/

/-- What a thread can do: call `mkstemp`, or what another program does. -/
inductive TempOp where
  | mkstemp (fuel : Nat) (template : Name)
  | put (path : Name)
  | remove (path : Name)

def TempOp.program : TempOp → TempProg Temp
  | .mkstemp fuel template => Stdio.mkstemp fuel template
  | .put path => .call (.put path) fun _ => .ret .nothing
  | .remove path => .call (.remove path) fun _ => .ret .nothing

/-- `six` fills the placeholder of `template`, which makes it `name`. -/
def Fills (template name : Name) : Prop :=
  ∃ base six, template = base ++ placeholder ∧ six.length = 6 ∧ name = base ++ six

/-- Which files there are, and how a call is answered. `_mktemp` finds a name that nobody has
yet, or fails. -/
def answersTemp (files : Name → Bool) : (e : TempCall) → TempAnswer e → (Name → Bool) → Prop
  | .mktemp template, r, files' =>
      files' = files ∧ ∀ name, r = some name → Fills template name ∧ files name = false
  | .openExcl path, .ok _, files' => files path = false ∧ files' = Function.update files path true
  | .openExcl path, .error errno, files' =>
      files' = files ∧ (errno = eexist → files path = true)
  | .put path, _, files' => files' = Function.update files path true
  | .remove path, _, files' => files' = Function.update files path false

/-- Threads and programs in one file system. -/
def temps (Tid : Type) : Threads Tid TempCall TempAnswer TempOp Temp (Name → Bool) where
  Init _ := True
  program := TempOp.program
  Answers files _ := answersTemp files

abbrev TempState (Tid : Type) := Threads.State Tid TempCall TempAnswer TempOp Temp (Name → Bool)
abbrev TempShown (Tid : Type) := Shown Tid TempCall TempAnswer TempOp Temp

section Runs

variable {Tid : Type} [DecidableEq Tid] {es : List (TempShown Tid)} {e : TempShown Tid}
  {s s' : TempState Tid} {t : Tid} {op : TempOp} {k : Nat}

/-- A file is made, or there was one. -/
def creates : TempShown Tid → Bool
  | .act _ (.put _) _ => true
  | .act _ (.openExcl _) (Except.ok _) => true
  | _ => false

/-- How often others than `t` have made files. -/
def rivals (t : Tid) (es : List (TempShown Tid)) : Nat :=
  es.countP fun e => e.thread ≠ t && creates e

/-- `t` has been inside `op` since it began it, and others have made `k` files since. -/
def Inside (es : List (TempShown Tid)) (t : Tid) (op : TempOp) (k : Nat) : Prop :=
  ∃ pre mid, es = pre ++ .begin t op :: mid ∧ (∀ e ∈ mid, e.thread = t → ∃ c r, e = .act t c r) ∧
    k ≤ rivals t mid

/-- The last thing `t` has done inside `op` was `c`, which `r` answered. -/
def Last (es : List (TempShown Tid)) (t : Tid) (op : TempOp) (c : TempCall) (r : TempAnswer c) :
    Prop :=
  ∃ pre mid, es = pre ++ .act t c r :: mid ∧ Inside pre t op 0 ∧ ∀ e ∈ mid, e.thread ≠ t

/-- An answer that says no for good. -/
inductive Refused : (c : TempCall) → TempAnswer c → Prop where
  | name {template : Name} : Refused (.mktemp template) none
  | file {path : Name} {errno : Nat} : errno ≠ eexist →
      Refused (.openExcl path) (Except.error errno)

/-- What must have come before `t` returns from `op`. -/
def Returns (es : List (TempShown Tid)) (t : Tid) (op : TempOp) : Temp → Prop
  | .fd n name => ∃ fuel template, op = .mkstemp fuel template ∧ Fills template name ∧
      Last es t op (.openExcl name) (.ok n)
  | .failed => ∃ c r, Refused c r ∧ Last es t op c r
  | .undefined => False
  | .unfinished => ∃ fuel template, op = .mkstemp fuel template ∧ Inside es t op fuel
  | .nothing => ∀ fuel template, op ≠ .mkstemp fuel template

def Returned (pre : List (TempShown Tid)) (e : TempShown Tid) : Prop :=
  ∀ t op out, e = .done t op out → Returns pre t op out

/-! ### What a thread knows of the past -/

theorem rivals_snoc : rivals t (es ++ [e]) = rivals t es + rivals t [e] := List.countP_append ..

theorem Inside.mono {k' : Nat} (h : Inside es t op k) (hk : k' ≤ k) : Inside es t op k' := by
  obtain ⟨pre, mid, hes, hmid, hle⟩ := h
  exact ⟨pre, mid, hes, hmid, Nat.le_trans hk hle⟩

theorem Inside.snoc (h : Inside es t op k) (he : e.thread = t → ∃ c r, e = .act t c r) :
    Inside (es ++ [e]) t op (k + rivals t [e]) := by
  obtain ⟨pre, mid, rfl, hmid, hle⟩ := h
  refine ⟨pre, mid ++ [e], by rw [List.append_assoc, List.cons_append], fun e' he' => ?_, ?_⟩
  · rcases List.mem_append.mp he' with hin | hin
    · exact hmid e' hin
    · rw [List.mem_singleton.mp hin]
      exact he
  · rw [rivals_snoc]
    omega

/-- Its own calls keep it inside. -/
theorem Inside.act (h : Inside es t op k) (c : TempCall) (r : TempAnswer c) :
    Inside (es ++ [.act t c r]) t op k :=
  (h.snoc fun _ => ⟨c, r, rfl⟩).mono (Nat.le_add_right ..)

/-- So does what others do. -/
theorem Inside.other (h : Inside es t op k) (he : t ≠ e.thread) : Inside (es ++ [e]) t op k :=
  (h.snoc fun heq => absurd heq.symm he).mono (Nat.le_add_right ..)

/-- A file another one makes counts. -/
theorem Inside.rival (h : Inside es t op k) (he : t ≠ e.thread) (hc : creates e = true) :
    Inside (es ++ [e]) t op (k + 1) := by
  have hone : rivals t [e] = 1 := by simp [rivals, Ne.symm he, hc]
  have hin := h.snoc (e := e) fun heq => absurd heq.symm he
  rwa [hone] at hin

theorem Last.other {c : TempCall} {r : TempAnswer c} (h : Last es t op c r) (he : t ≠ e.thread) :
    Last (es ++ [e]) t op c r := by
  obtain ⟨pre, mid, rfl, hin, hmid⟩ := h
  refine ⟨pre, mid ++ [e], by rw [List.append_assoc, List.cons_append], hin, fun e' he' => ?_⟩
  rcases List.mem_append.mp he' with hin | hin
  · exact hmid e' hin
  · rw [List.mem_singleton.mp hin]
    exact Ne.symm he

theorem Returns.other {out : Temp} (h : Returns es t op out) (he : t ≠ e.thread) :
    Returns (es ++ [e]) t op out := by
  cases out with
  | fd n name =>
      obtain ⟨fuel, template, hop, hfills, hlast⟩ := h
      exact ⟨fuel, template, hop, hfills, hlast.other he⟩
  | failed =>
      obtain ⟨c, r, hr, hlast⟩ := h
      exact ⟨c, r, hr, hlast.other he⟩
  | undefined => exact h
  | unfinished =>
      obtain ⟨fuel, template, hop, hin⟩ := h
      exact ⟨fuel, template, hop, hin.other he⟩
  | nothing => exact h

/-! ### Where a thread can stand -/

/-- `mkstemp` once it has a name. -/
def tryOpen (fuel : Nat) (name : Name) : TempProg Temp := do
  match ← openExcl name with
  | .ok fd => return .fd fd name
  | .error errno =>
    if errno = eexist then
      match putBack name with
      | none => return .undefined
      | some template => mkstemp fuel template
    else return .failed

inductive TempStands (es : List (TempShown Tid)) (s : TempState Tid) (t : Tid) : Prop where
  | out : s.doing t = none → TempStands es s t
  | aside {op : TempOp} : (∀ fuel template, op ≠ .mkstemp fuel template) →
      s.doing t = some (op, op.program) → TempStands es s t
  | trying {fuel left : Nat} {template : Name} :
      s.doing t = some (.mkstemp fuel template, mkstemp left template) → left ≤ fuel →
      Inside es t (.mkstemp fuel template) (fuel - left) → TempStands es s t
  | opening {fuel left : Nat} {template name : Name} :
      s.doing t = some (.mkstemp fuel template, tryOpen left name) → left < fuel →
      Fills template name → Inside es t (.mkstemp fuel template) (fuel - (left + 1)) →
      (s.shared name = true → Inside es t (.mkstemp fuel template) (fuel - left)) →
      TempStands es s t
  | back {op : TempOp} {out : Temp} : s.doing t = some (op, .ret out) → Returns es t op out →
      TempStands es s t

/-- The placeholder comes back. -/
theorem putBack_fills {template name : Name} (h : Fills template name) :
    putBack name = some template := by
  obtain ⟨base, six, rfl, hsix, rfl⟩ := h
  have hlen : (base ++ six).length = base.length + 6 := by rw [List.length_append, hsix]
  rw [putBack, if_neg (by omega), hlen, Nat.add_sub_cancel, List.take_left]

/-- A name is taken only because it was, or because a file has been made. -/
theorem taken_step (h : (temps Tid).Step s e s') {name : Name} (hn : s'.shared name = true) :
    s.shared name = true ∨ creates e = true := by
  cases h with
  | begin | done => exact .inl hn
  | @act t op c k r files hdo hans =>
      cases c with
      | mktemp template =>
          obtain ⟨rfl, -⟩ := hans
          exact .inl hn
      | openExcl path =>
          cases r with
          | ok fd => exact .inr rfl
          | error errno =>
              obtain ⟨rfl, -⟩ := hans
              exact .inl hn
      | put path => exact .inr rfl
      | remove path =>
          obtain rfl : files = _ := hans
          have hn : Function.update s.shared path false name = true := hn
          by_cases hname : name = path
          · rw [hname, Function.update_self] at hn
            cases hn
          · rw [Function.update_of_ne hname] at hn
            exact .inl hn

/-- **What others do** leaves a thread where it stands. -/
theorem TempStands.others (hst : TempStands es s t) (ht : t ≠ e.thread)
    (h : (temps Tid).Step s e s') : TempStands (es ++ [e]) s' t := by
  have hdoing : s'.doing t = s.doing t := h.doing_ne ht
  cases hst with
  | out hout => exact .out (hdoing.trans hout)
  | aside hop hdo => exact .aside hop (hdoing.trans hdo)
  | trying hdo hle hin => exact .trying (hdoing.trans hdo) hle (hin.other ht)
  | @opening fuel left template name hdo hlt hfills hin htaken =>
      refine .opening (hdoing.trans hdo) hlt hfills (hin.other ht) fun hn => ?_
      rcases taken_step h hn with hold | hmade
      · exact (htaken hold).other ht
      · exact (hin.rival ht hmade).mono (by omega)
  | back hdo hret => exact .back (hdoing.trans hdo) (hret.other ht)

/-- **One step of the thread itself.** -/
theorem TempStands.self (hst : TempStands es s e.thread) (h : (temps Tid).Step s e s') :
    TempStands (es ++ [e]) s' e.thread ∧ Returned es e := by
  cases h with
  | @begin t op hout =>
      refine ⟨?_, nofun⟩
      have hin : Inside (es ++ [.begin t op]) t op 0 := ⟨es, [], rfl, nofun, Nat.zero_le _⟩
      cases op with
      | mkstemp fuel template =>
          exact .trying (State.goto_self ..) (Nat.le_refl _) (hin.mono (by omega))
      | put path | remove path => exact .aside (by simp) (State.goto_self ..)
  | @act t op c k r files hdo hans =>
      refine ⟨?_, nofun⟩
      cases hst with
      | out hout => cases hdo.symm.trans hout
      | @aside op' hop hdo' =>
          cases op' with
          | mkstemp fuel template => exact absurd rfl (hop fuel template)
          | put path | remove path =>
              cases hdo'.symm.trans hdo
              exact .back (State.goto_self ..) hop
      | @trying fuel left template hdo' hle hin =>
          cases left with
          | zero => cases hdo'.symm.trans hdo
          | succ left =>
              cases hdo'.symm.trans hdo
              obtain ⟨rfl, hname⟩ := hans
              cases r with
              | none =>
                  exact .back (State.goto_self ..)
                    ⟨_, _, .name, es, [], rfl, hin.mono (Nat.zero_le _), nofun⟩
              | some name =>
                  obtain ⟨hfills, hfree⟩ := hname name rfl
                  refine .opening (State.goto_self ..) (by omega) hfills (hin.act _ _) fun hn => ?_
                  cases hfree.symm.trans hn
      | @opening fuel left template name hdo' hlt hfills hin htaken =>
          cases hdo'.symm.trans hdo
          have hlast : ∀ r, Last (es ++ [.act t (.openExcl name) r]) t (.mkstemp fuel template)
              (.openExcl name) r := fun r =>
            ⟨es, [], rfl, hin.mono (Nat.zero_le _), nofun⟩
          cases r with
          | ok fd => exact .back (State.goto_self ..) ⟨fuel, template, rfl, hfills, hlast _⟩
          | error errno =>
              obtain ⟨rfl, hexists⟩ := hans
              by_cases herr : errno = eexist
              · -- somebody was faster
                refine .trying ((State.goto_self ..).trans ?_) (Nat.le_of_lt hlt)
                  ((htaken (hexists herr)).act _ _)
                simp [Prog.bind, herr, putBack_fills hfills]
              · have hret : Returns (es ++ [.act t (.openExcl name) (Except.error errno)]) t
                    (.mkstemp fuel template) .failed := ⟨_, _, .file herr, hlast _⟩
                refine .back ((State.goto_self ..).trans ?_) hret
                simp [Prog.bind, herr]
                rfl
      | back hdo' => cases hdo'.symm.trans hdo
  | @done t op out hdo =>
      refine ⟨.out (State.goto_self ..), fun t' op' out' heq => ?_⟩
      cases heq
      cases hst with
      | out hout => cases hdo.symm.trans hout
      | @aside op' hop hdo' =>
          cases op' with
          | mkstemp fuel template => exact absurd rfl (hop fuel template)
          | put path | remove path => cases hdo'.symm.trans hdo
      | @trying fuel left template hdo' hle hin =>
          cases left with
          | zero =>
              cases hdo'.symm.trans hdo
              exact ⟨fuel, template, rfl, hin⟩
          | succ left => cases hdo'.symm.trans hdo
      | opening hdo' => cases hdo'.symm.trans hdo
      | back hdo' hret =>
          cases hdo'.symm.trans hdo
          exact hret

/-! ### Every run -/

theorem tempStands_history (h : (temps Tid).interleaved.History es s) (t : Tid) :
    TempStands es s t :=
  each_thread (fun _ hinit t => .out (hinit.2 t)) (fun _ _ _ _ hst hstep => (hst.self hstep).1)
    (fun _ _ _ _ _ hst ht hstep => hst.others ht hstep) h t

/-- A file stays until it is removed. -/
theorem remains_step (h : (temps Tid).Step s e s') {name : Name} (hn : s.shared name = true)
    (he : ∀ v, e ≠ .act v (.remove name) ()) : s'.shared name = true := by
  have hput : ∀ path, Function.update s.shared path true name = true := by
    intro path
    by_cases hname : name = path
    · rw [hname, Function.update_self]
    · rw [Function.update_of_ne hname, hn]
  cases h with
  | begin | done => exact hn
  | @act t op c k r files hdo hans =>
      cases c with
      | mktemp template =>
          obtain ⟨rfl, -⟩ := hans
          exact hn
      | openExcl path =>
          cases r with
          | ok fd =>
              obtain ⟨-, rfl⟩ := hans
              exact hput path
          | error errno =>
              obtain ⟨rfl, -⟩ := hans
              exact hn
      | put path =>
          obtain rfl : files = _ := hans
          exact hput path
      | remove path =>
          obtain rfl : files = _ := hans
          have hne : name ≠ path := by
            rintro rfl
            exact he t rfl
          exact (Function.update_of_ne hne ..).trans hn

/-- A file that has been made is there, if nobody has removed it since. -/
theorem remains_history (h : (temps Tid).interleaved.History es s) {u : Tid} {name : Name}
    {n : Nat} : ∀ pre mid, es = pre ++ .act u (.openExcl name) (Except.ok n) :: mid →
      (∀ v, .act v (.remove name) () ∉ mid) → s.shared name = true := by
  induction h with
  | init =>
      intro pre mid hes
      cases pre <;> cases hes
  | @tail es s s' e _ hstep ih =>
      intro pre mid hes hmid
      rcases List.eq_nil_or_concat mid with rfl | ⟨mid, e', rfl⟩
      · obtain ⟨rfl, hlast⟩ := List.append_inj' hes rfl
        cases hlast
        cases hstep with
        | act _ hans =>
            obtain ⟨-, rfl⟩ := hans
            exact Function.update_self ..
      · rw [List.concat_eq_append] at hes hmid
        rw [← List.cons_append, ← List.append_assoc] at hes
        obtain ⟨hpre, hlast⟩ := List.append_inj' hes rfl
        cases hlast
        refine remains_step hstep (ih pre mid hpre fun v hv => hmid v (by simp [hv])) ?_
        rintro v rfl
        exact hmid v (by simp)

/-- A file is made under a name that had been made before only if that one has been removed. -/
def Anew (pre : List (TempShown Tid)) (e : TempShown Tid) : Prop :=
  ∀ t name n, e = .act t (.openExcl name) (Except.ok n) → ∀ before mid u n',
    pre = before ++ .act u (.openExcl name) (Except.ok n') :: mid →
      ∃ v, .act v (.remove name) () ∈ mid

theorem anew_step (h : (temps Tid).interleaved.History es s) (hstep : (temps Tid).Step s e s') :
    Anew es e := by
  rintro t name n rfl before mid u n' hes
  by_contra hnone
  have hthere := remains_history h before mid hes fun v hv => hnone ⟨v, hv⟩
  cases hstep with
  | act _ hans => cases hans.1.symm.trans hthere

end Runs

/--
**Every caller of `mkstemp` has a file of its own.**

However the threads and the other programs move: a call that returns a descriptor has itself
made the file, after it began, under a name that fills its template, and nobody else gets that
name until the file is removed. A call that returns -1 was refused a name, or the file for
another reason than that it exists. Nothing is ever written outside the template, and a call
goes into another round only if somebody has made a file during the one before.
-/
theorem mkstemp_makes_its_own {Tid : Type} [DecidableEq Tid] {es : List (TempShown Tid)}
    {s : TempState Tid} (h : (temps Tid).interleaved.History es s) :
    AtEvery Returned es ∧ AtEvery Anew es := by
  have hstands : ∀ {es s}, (temps Tid).interleaved.History es s → ∀ t, TempStands es s t :=
    fun h => tempStands_history h
  exact ⟨Lts.History.atEvery (fun _ _ _ _ h hs => ((hstands h _).self hs).2) h,
    Lts.History.atEvery (fun _ _ _ _ => anew_step) h⟩

def firstName : Name := ['a', '0', '1', '2', '3', '4']

/-- Two threads have been given one name, and one of them was faster. -/
theorem mkstemp_makes_its_own_raced :
    let op : TempOp := .mkstemp 5 placeholder
    let es : List (TempShown Bool) :=
      [.begin true op, .begin false op, .act true (.mktemp placeholder) (some firstName),
        .act false (.mktemp placeholder) (some firstName),
        .act true (.openExcl firstName) (Except.ok 3),
        .act false (.openExcl firstName) (Except.error eexist), .done true op (.fd 3 firstName)]
    (∃ s, (temps Bool).interleaved.History es s) ∧ AtEvery Returned es ∧ AtEvery Anew es := by
  intro op es
  have hname : ∀ name, some firstName = some name →
      Fills placeholder name ∧ (fun _ : Name => false) name = false := by
    rintro name ⟨⟩
    exact ⟨⟨[], firstName, rfl, rfl, rfl⟩, rfl⟩
  have h0 : (temps Bool).interleaved.History [] ⟨fun _ => false, fun _ => none⟩ :=
    .init ⟨trivial, fun _ => rfl⟩
  have h1 := h0.tail (Step.begin (t := true) op rfl)
  have h2 := h1.tail (Step.begin (t := false) op rfl)
  have h3 := h2.tail (Step.act (t := true) (r := some firstName) rfl ⟨rfl, hname⟩)
  have h4 := h3.tail (Step.act (t := false) (r := some firstName) rfl ⟨rfl, hname⟩)
  have hmakes : ∀ s : TempState Bool, s.doing true = some (op, tryOpen 4 firstName) →
      s.shared firstName = false → (temps Bool).Step s
        (.act true (.openExcl firstName) (Except.ok 3))
        (s.goto (Function.update s.shared firstName true) true
          (some (op, .ret (.fd 3 firstName)))) :=
    fun _ hdo hfree => Step.act hdo ⟨hfree, rfl⟩
  have hlate : ∀ s : TempState Bool, s.doing false = some (op, tryOpen 4 firstName) →
      s.shared firstName = true → (temps Bool).Step s
        (.act false (.openExcl firstName) (Except.error eexist))
        (s.goto s.shared false (some (op, mkstemp 4 placeholder))) :=
    fun _ hdo hthere => Step.act hdo ⟨rfl, fun _ => hthere⟩
  have h5 := h4.tail (hmakes _ rfl rfl)
  have h6 := h5.tail (hlate _ rfl rfl)
  have h7 := h6.tail (Step.done (t := true) rfl)
  exact ⟨⟨_, h7⟩, mkstemp_makes_its_own h7⟩

end LibrePortable.Stdio
