import LibrePortable.Win.PollBits

/-!
# Handles that are ready

`WaitForMultipleObjects` names one handle, the first that has signaled. The loop stops for
a handle only if one is named, and the result pass calls no other handle readable. So an
entry that could be written all along may be waited past, and of several readable
handles one is reported.
-/

namespace LibrePortable.Win.Poll

open LibrePortable.Win

variable {H : Header} {env : Env} {su : Setup} {pfds : List Pollfd} {T : Int}
  {signaled : Nat → Handle → Bool} {took : Nat → Int}

/-! ## Being ready -/

/-- What `WaitForMultipleObjects` says of the handles, `signaled k` being those that have
signaled in pass `k`: it names one of them, and none that comes before it. -/
structure LowestReported (env : Env) (pfds : List Pollfd) (signaled : Nat → Handle → Bool) :
    Prop where
  reported : ∀ k h, (handlesOf env pfds)[env.wait k]? = some h → signaled k h = true
  lowest : ∀ k n h, env.wait k ≠ waitFailed → n < env.wait k →
    (handlesOf env pfds)[n]? = some h → signaled k h = false

/-- Entry `i` is `p`, and it is no socket. -/
structure HandleAt (env : Env) (pfds : List Pollfd) (i : Nat) (p : Pollfd) : Prop where
  get : pfds[i]? = some p
  handle : handleEntry env i p = true

/-- A handle that is to be written. Files are taken to be writable always. -/
def WriteReady (H : Header) (p : Pollfd) : Prop := Wants (H.pollout ||| H.pollwrnorm) p

/-- The handle of entry `i` is a console at standard input. -/
def Console (env : Env) (i : Nat) (p : Pollfd) : Prop :=
  env.osfHandle p.fd = env.stdInput ∧ env.peekConsole i ≠ none

/-- A handle that is to be read, has signaled in pass `k`, and is no console. -/
def ReadReady (H : Header) (env : Env) (signaled : Nat → Handle → Bool) (k i : Nat) (p : Pollfd) :
    Prop :=
  Wants (H.pollin ||| H.pollrdnorm) p ∧ signaled k (env.osfHandle p.fd) = true ∧ ¬ Console env i p

/-- In pass `k` some handle is ready. -/
def SomeReady (H : Header) (env : Env) (pfds : List Pollfd) (signaled : Nat → Handle → Bool)
    (k : Nat) : Prop :=
  ∃ i p, HandleAt env pfds i p ∧ (WriteReady H p ∨ ReadReady H env signaled k i p)

/-- Every handle that was ready in pass `k` has been reported. -/
structure ReportsReady (H : Header) (env : Env) (pfds : List Pollfd)
    (signaled : Nat → Handle → Bool) (k : Nat) (out : Outcome) : Prop where
  rc : out.rc ≠ -1
  write : ∀ i p, HandleAt env pfds i p → WriteReady H p →
    ∃ p', out.pfds[i]? = some p' ∧ Has p'.revents H.pollout
  read : ∀ i p, HandleAt env pfds i p → ReadReady H env signaled k i p →
    ∃ p', out.pfds[i]? = some p' ∧ Has p'.revents H.pollin

/-- The time that the `select` of pass `k` is given, in microseconds. -/
def given (env : Env) (su : Setup) (T : Int) (k : Nat) : Int :=
  if Signals env su k then 0 else slice T (before env su T k) * 1000

/-- How long `select` takes, `took k` being the microseconds that pass `k` spends in it: never
longer than the time it is given, and all of that if it finds nothing. -/
structure SelectTakes (H : Header) (env : Env) (pfds : List Pollfd) (T : Int) (took : Nat → Int) :
    Prop where
  bounded : ∀ su, setUp H env 0 pfds .empty = some su → ∀ k, Reached env su T k →
    0 ≤ took k ∧ took k ≤ max 0 (given env su T k)
  vain : ∀ su, setUp H env 0 pfds .empty = some su → ∀ k, Reached env su T k → Idle env su k →
    took k = max 0 (given env su T k)

/-- From pass `k` on `poll` does not wait, and it reports every handle that was ready then. -/
def PromptAt (H : Header) (env : Env) (su : Setup) (pfds : List Pollfd) (T : Int)
    (signaled : Nat → Handle → Bool) (took : Nat → Int) (k : Nat) : Prop :=
  (∀ j, k ≤ j → Reached env su T j → took j = 0)
    ∧ ∀ fuel out, poll H env (some pfds) T fuel = some out →
      ReportsReady H env pfds signaled k out

/-- No readiness of a handle is delayed or lost. -/
def NeverLost (H : Header) (env : Env) (pfds : List Pollfd) (T : Int)
    (signaled : Nat → Handle → Bool) (took : Nat → Int) : Prop :=
  ∀ su, setUp H env 0 pfds .empty = some su → ∀ k, Reached env su T k →
    SomeReady H env pfds signaled k → PromptAt H env su pfds T signaled took k

/-! ## When that is so -/

/-- What saves the handles that are ready in pass `k`: the pass does not fail, and the look
at the handles names one and no other is ready to be read, or, if it names none, `select`
finds a socket at once or `poll` was not to wait in the first place. -/
def Saved (H : Header) (env : Env) (su : Setup) (pfds : List Pollfd) (T : Int)
    (signaled : Nat → Handle → Bool) (took : Nat → Int) (k : Nat) : Prop :=
  Sound env su k
    ∧ ((Signals env su k ∧ ∀ i p, HandleAt env pfds i p → ReadReady H env signaled k i p →
          setUpNumber env pfds i = env.wait k)
      ∨ (¬ Signals env su k
          ∧ ((FindsSocket env su k ∧ took k = 0) ∨ (T ≤ 0 ∧ T ≠ -1))))

section Proof

variable {k : Nat}

theorem handleAt_number (hsu : setUp H env 0 pfds .empty = some su) {i : Nat} {p : Pollfd}
    (h : HandleAt env pfds i p) : setUpNumber env pfds i < su.handles.length := by
  have hget := handlesOf_getElem? h.get h.handle
  rw [setUp_handles hsu]
  exact (List.getElem?_eq_some_iff.mp hget).1

/-- If none is named, none has signaled. -/
theorem not_readReady (hlow : LowestReported env pfds signaled)
    (hsu : setUp H env 0 pfds .empty = some su) (hw : ¬ WaitFails env su k)
    (hs : ¬ Signals env su k) {i : Nat} {p : Pollfd} (hp : HandleAt env pfds i p) :
    ¬ ReadReady H env signaled k i p := by
  intro h
  have hnum := handleAt_number hsu hp
  have hlen : su.handles.length ≤ env.wait k := Nat.le_of_not_lt hs
  have hnf : env.wait k ≠ waitFailed := fun hc => hw ⟨by omega, hc⟩
  have := hlow.lowest k _ _ hnf (Nat.lt_of_lt_of_le hnum hlen) (handlesOf_getElem? hp.get hp.handle)
  rw [h.2.1] at this
  cases this

/-- **What `poll` reports about a handle** after a last pass that did not fail. -/
theorem handle_reports (hsu : setUp H env 0 pfds .empty = some su) (hsame : SameAnswers env pfds)
    (hsound : Sound env su k) {i : Nat} {p : Pollfd} (hp : HandleAt env pfds i p) :
    ∃ p', (outcomeAfter H env su pfds T k).pfds[i]? = some p'
      ∧ (Has p'.revents H.pollout ↔ WriteReady H p)
      ∧ (Has p'.revents H.pollin ↔ setUpNumber env pfds i = lastWait env su k
          ∧ Wants (H.pollin ||| H.pollrdnorm) p
          ∧ ¬ (env.osfHandle p.fd = env.stdInput ∧ Swallows (env.peekConsole i))) := by
  have hdone := entryRevents_done (k := k) hsu hsame hp.get
  refine ⟨_, by rw [outcomeAfter_getElem? hsound, hp.get]; rfl, ?_, ?_⟩
  · rw [hdone.wait hp.handle, has_of_wait.1]
    rfl
  · rw [hdone.wait hp.handle, has_of_wait.2, Option.some.injEq]
    rfl

/-- A pass that is last, does not wait, and after which nothing is lost. -/
theorem prompt_of_last (hsu : setUp H env 0 pfds .empty = some su) (hsame : SameAnswers env pfds)
    (hlast : Last env su T k) (htook : took k = 0) (hsound : Sound env su k)
    (hread : ∀ i p, HandleAt env pfds i p → ReadReady H env signaled k i p →
      setUpNumber env pfds i = lastWait env su k) :
    PromptAt H env su pfds T signaled took k := by
  have hstop : ∀ j, Reached env su T j → j ≤ k := fun j hj =>
    Nat.le_of_not_lt fun hlt => hlast.2 (hj k hlt)
  constructor
  · intro j hkj hj
    obtain rfl : j = k := Nat.le_antisymm (hstop j hj) hkj
    exact htook
  · intro fuel out hout
    by_cases hne : pfds = []
    · subst hne
      obtain rfl := Option.some.inj hout
      exact ⟨by decide, fun i p hp => absurd hp.get (by simp),
        fun i p hp => absurd hp.get (by simp)⟩
    rcases (poll_eq_some_iff hne).mp hout with ⟨hnone, -⟩ | ⟨su', hsu', j, -, hj, rfl⟩
    · rw [hsu] at hnone; cases hnone
    obtain rfl := Option.some.inj (hsu.symm.trans hsu')
    obtain rfl := hj.unique hlast
    refine ⟨outcomeAfter_rc.mpr hsound, fun i p hp hw => ?_, fun i p hp hr => ?_⟩
    · obtain ⟨p', hp', hout, -⟩ := handle_reports (T := T) hsu hsame hsound hp
      exact ⟨p', hp', hout.mpr hw⟩
    · obtain ⟨p', hp', -, hin⟩ := handle_reports (T := T) hsu hsame hsound hp
      refine ⟨p', hp', hin.mpr ⟨hread i p hp hr, hr.1, fun hc => hr.2.2 ⟨hc.1, ?_⟩⟩⟩
      -- a console that takes a record off its queue has answered
      intro hnone
      rw [hnone] at hc
      exact hc.2

/-- Pass `k` is no longer on time if there never was any. -/
theorem not_goesOn_of_nonpos (hT : T ≤ 0 ∧ T ≠ -1) (hk : Reached env su T k) :
    ¬ GoesOn env su T k := by
  intro hgo
  have hot := (hk.succ hgo).onTime
  rcases hgo.2 with hc | hc
  · exact hT.2 hc
  · rw [hot.timespent] at hc
    omega

theorem prompt_of_saved (hsu : setUp H env 0 pfds .empty = some su) (hsame : SameAnswers env pfds)
    (hlow : LowestReported env pfds signaled) (htakes : SelectTakes H env pfds T took)
    (hk : Reached env su T k) (h : Saved H env su pfds T signaled took k) :
    PromptAt H env su pfds T signaled took k := by
  obtain ⟨hpos, hle⟩ := htakes.bounded su hsu k hk
  obtain ⟨hsound, ⟨hs, honly⟩ | ⟨hs, hrest⟩⟩ := h
  · -- the handle that is named is the only one ready to be read
    have hlen : su.handles.length ≠ 0 := by unfold Signals at hs; omega
    have hwait : lastWait env su k = env.wait k := if_pos hlen
    have hgiven : given env su T k = 0 := if_pos hs
    exact prompt_of_last hsu hsame ⟨hk, fun hgo => hgo.1.2.2 (Or.inl hs)⟩ (by omega) hsound
      (by rw [hwait]; exact honly)
  · -- none is named, so none is ready to be read
    have hnone : ∀ i p, HandleAt env pfds i p → ReadReady H env signaled k i p →
        setUpNumber env pfds i = lastWait env su k :=
      fun i p hp hr => absurd hr (not_readReady hlow hsu hsound.1 hs hp)
    rcases hrest with ⟨hf, hzero⟩ | hT
    · exact prompt_of_last hsu hsame ⟨hk, fun hgo => hgo.1.2.2 (Or.inr hf)⟩ hzero hsound hnone
    · have hgiven : given env su T k = slice T (before env su T k) * 1000 := if_neg hs
      have hsl := slice_onTime hk.onTime
      rw [if_neg hT.2] at hsl
      exact prompt_of_last hsu hsame ⟨hk, not_goesOn_of_nonpos hT hk⟩ (by omega) hsound hnone

theorem saved_of_prompt (hsu : setUp H env 0 pfds .empty = some su) (hsame : SameAnswers env pfds)
    (htakes : SelectTakes H env pfds T took) (hk : Reached env su T k)
    (hready : SomeReady H env pfds signaled k)
    (h : PromptAt H env su pfds T signaled took k) : Saved H env su pfds T signaled took k := by
  have hne : pfds ≠ [] := by
    intro heq
    subst heq
    obtain ⟨i, p, hp, -⟩ := hready
    exact absurd hp.get (by simp)
  -- if pass `k` is the last, `poll` returns with what that pass leaves
  have hreturns : Last env su T k →
      ReportsReady H env pfds signaled k (outcomeAfter H env su pfds T k) := fun hlast =>
    h.2 (k + 1) _ ((poll_eq_some_iff hne).mpr
      (Or.inr ⟨su, hsu, k, Nat.lt_succ_self k, hlast, rfl⟩))
  -- a pass that fails is the last, and reports nothing
  have hsound : Sound env su k := by
    by_contra hfails
    have hlast : Last env su T k := ⟨hk, fun hgo => hfails ⟨hgo.1.1, hgo.1.2.1⟩⟩
    exact (hreturns hlast).rc (outcomeAfter_error hfails).1
  refine ⟨hsound, ?_⟩
  by_cases hs : Signals env su k
  · refine Or.inl ⟨hs, fun i p hp hr => ?_⟩
    have hpos : su.handles.length ≠ 0 := by unfold Signals at hs; omega
    have hwait : lastWait env su k = env.wait k := if_pos hpos
    obtain ⟨p', hp', hin⟩ := (hreturns ⟨hk, fun hgo => hgo.1.2.2 (Or.inl hs)⟩).read i p hp hr
    obtain ⟨q, hq, -, hq'⟩ := handle_reports (T := T) hsu hsame hsound hp
    obtain rfl := Option.some.inj (hp'.symm.trans hq)
    rw [← hwait]
    exact (hq'.mp hin).1
  · refine Or.inr ⟨hs, ?_⟩
    have hzero := h.1 k (Nat.le_refl k) hk
    by_cases hf : FindsSocket env su k
    · exact Or.inl ⟨hf, hzero⟩
    -- otherwise the pass is idle, and takes all the time it is given
    have hi : Idle env su k := ⟨hsound.1, hsound.2, fun hwk => hwk.elim hs hf⟩
    have hgiven : given env su T k = slice T (before env su T k) * 1000 := if_neg hs
    have hvain := htakes.vain su hsu k hk hi
    have hsl := slice_onTime hk.onTime
    right
    rcases hk.onTime.inTime with hk0 | hk0 | hk0 <;> split_ifs at hsl <;> omega

end Proof

/--
**When no readiness of a handle is delayed or lost.**

A pass in which a handle is ready must not fail. The look at the handles must name one and
there must be no other to be read; or, where it names none, a socket must have been ready
too, or there must have been nothing to wait for.
-/
theorem neverLost_iff (hsame : SameAnswers env pfds) (hlow : LowestReported env pfds signaled)
    (htakes : SelectTakes H env pfds T took) :
    NeverLost H env pfds T signaled took ↔
      ∀ su, setUp H env 0 pfds .empty = some su → ∀ k, Reached env su T k →
        SomeReady H env pfds signaled k → Saved H env su pfds T signaled took k :=
  ⟨fun h su hsu k hk hready => saved_of_prompt hsu hsame htakes hk hready (h su hsu k hk hready),
    fun h su hsu k hk hready =>
      prompt_of_saved hsu hsame hlow htakes hk (h su hsu k hk hready)⟩

/-- Two files that are to be read, both signaled. -/
def twoFiles : List Pollfd := [⟨3, 0x001, 0⟩, ⟨4, 0x001, 0⟩]

/-- A system in which everything is a file and has signaled. -/
def Env.allSignaled : Env :=
  { Env.still (fun _ => false) 0 with
    select := fun _ => ⟨socketError, .zero, .zero, .zero, .WSAEINVAL⟩ }

theorem lowestReported_allSignaled :
    LowestReported .allSignaled twoFiles (fun _ _ => true) :=
  ⟨fun _ _ _ => rfl, fun _ _ _ _ h => absurd h (Nat.not_lt_zero _)⟩

/-- The first handle is named at once, so `select` is never given any time. -/
theorem selectTakes_allSignaled :
    SelectTakes .compat .allSignaled twoFiles (-1) (fun _ => 0) := by
  have hs : ∀ su, setUp .compat .allSignaled 0 twoFiles .empty = some su → ∀ k,
      Signals .allSignaled su k := by
    intro su hsu k
    obtain rfl := Option.some.inj hsu
    exact (by decide : 0 < 2)
  refine ⟨fun su _ k _ => ⟨Int.le_refl 0, Int.le_max_left ..⟩, fun su hsu k _ hi => ?_⟩
  exact absurd (Or.inl (hs su hsu k)) hi.2.2

theorem neverLost_iff_twoFiles :
    NeverLost .compat .allSignaled twoFiles (-1) (fun _ _ => true) (fun _ => 0) ↔
      ∀ su, setUp .compat .allSignaled 0 twoFiles .empty = some su → ∀ k,
        Reached .allSignaled su (-1) k →
        SomeReady .compat .allSignaled twoFiles (fun _ _ => true) k →
          Saved .compat .allSignaled su twoFiles (-1) (fun _ _ => true) (fun _ => 0) k :=
  neverLost_iff (fun _ _ _ => rfl) lowestReported_allSignaled selectTakes_allSignaled

/-- **One of two readable files is lost**: `poll` returns at once and reports the first. -/
theorem poll_twoFiles : LowestReported .allSignaled twoFiles (fun _ _ => true)
    ∧ SelectTakes .compat .allSignaled twoFiles (-1) (fun _ => 0)
    ∧ (∃ out, poll .compat .allSignaled (some twoFiles) (-1) 1 = some out
      ∧ out.pfds = [⟨3, 0x001, 0x001⟩, ⟨4, 0x001, 0⟩])
    ∧ ¬ NeverLost .compat .allSignaled twoFiles (-1) (fun _ _ => true) (fun _ => 0) := by
  have hpoll : ∃ out, poll .compat .allSignaled (some twoFiles) (-1) 1 = some out
      ∧ out.pfds = [⟨3, 0x001, 0x001⟩, ⟨4, 0x001, 0⟩] := ⟨_, rfl, rfl⟩
  obtain ⟨out, hout, hpfds⟩ := hpoll
  refine ⟨lowestReported_allSignaled, selectTakes_allSignaled, ⟨out, hout, hpfds⟩, fun h => ?_⟩
  have hsecond : HandleAt .allSignaled twoFiles 1 ⟨4, 0x001, 0⟩ := ⟨rfl, rfl⟩
  have hready : ReadReady .compat .allSignaled (fun _ _ => true) 0 1 ⟨4, 0x001, 0⟩ :=
    ⟨by decide, rfl, fun hc => hc.2 rfl⟩
  obtain ⟨-, hret⟩ := h _ rfl 0 (reached_zero _ _ _) ⟨1, _, hsecond, Or.inr hready⟩
  obtain ⟨p', hp', hin⟩ := (hret 1 out hout).read 1 _ hsecond hready
  rw [hpfds] at hp'
  obtain rfl := Option.some.inj hp'
  exact absurd hin (by decide)

end LibrePortable.Win.Poll
