import Mathlib.Data.BitVec
import LibrePortable.Lib.Threads
import LibrePortable.Win.Calls

/-!
# Counters that threads share

`CRYPTO_add_lock` on Windows is one interlocked addition, and it returns what the counter
became. So nothing that any thread adds is lost, and of the releases of a counted
reference only the last is told that nothing is left.
-/

namespace LibrePortable.Sync

open Lib Prog Threads Win

/-- `InterlockedExchangeAdd` on the counter, the one atomic step. -/
structure AddCall where
  amount : CInt

abbrev AddProg : Type → Type := Prog AddCall fun _ => CInt

def interlockedExchangeAdd (amount : CInt) : AddProg CInt := .call ⟨amount⟩ .ret

/-- `CRYPTO_add_lock`. The interlocked addition wraps; `ret + amount` is undefined in C where it
overflows, and wraps too here. -/
def cryptoAddLock (amount : CInt) : AddProg CInt := do
  let ret ← interlockedExchangeAdd amount
  return ret + amount

/-- Threads that add to one counter, which begins as `start`. -/
def counter (Tid : Type) (start : CInt) : Threads Tid AddCall (fun _ => CInt) CInt CInt CInt where
  Init n := n = start
  program := cryptoAddLock
  Answers n _ e ret n' := ret = n ∧ n' = n + e.amount

abbrev AddShown (Tid : Type) := Shown Tid AddCall (fun _ => CInt) CInt CInt
abbrev AddState (Tid : Type) := Threads.State Tid AddCall (fun _ => CInt) CInt CInt CInt

section Runs

variable {Tid : Type} [DecidableEq Tid] {start : CInt} {es : List (AddShown Tid)}
  {s s' : AddState Tid}

/-- What the calls made so far add. -/
def amounts (es : List (AddShown Tid)) : List CInt :=
  es.filterMap fun
    | .act _ e _ => some e.amount
    | _ => none

/-- The counter, once `es` has been shown. -/
def after (start : CInt) (es : List (AddShown Tid)) : CInt := start + (amounts es).sum

/-- An addition is told what the counter was. -/
def Told (start : CInt) (pre : List (AddShown Tid)) (e : AddShown Tid) : Prop :=
  ∀ t c ret, e = .act t c ret → ret = after start pre

/-- A call returns what its own addition made of the counter. -/
def Became (start : CInt) (pre : List (AddShown Tid)) (e : AddShown Tid) : Prop :=
  ∀ t amount r, e = .done t amount r → ∃ before mid ret,
    pre = before ++ .act t ⟨amount⟩ ret :: mid ∧ Begun before t amount ∧
      (∀ e ∈ mid, e.thread ≠ t) ∧ r = after start before + amount

omit [DecidableEq Tid] in
@[simp] theorem amounts_append (es es' : List (AddShown Tid)) :
    amounts (es ++ es') = amounts es ++ amounts es' := List.filterMap_append

omit [DecidableEq Tid] in
@[simp] theorem amounts_act (t : Tid) (c : AddCall) (ret : CInt) (es : List (AddShown Tid)) :
    amounts (.act t c ret :: es) = c.amount :: amounts es := rfl

theorem counter_step (hs : s.shared = after start es) {e : AddShown Tid}
    (h : (counter Tid start).Step s e s') :
    s'.shared = after start (es ++ [e]) ∧ Told start es e := by
  have hafter : after start (es ++ [e]) = after start es + (amounts [e]).sum := by
    unfold after
    rw [amounts_append, List.sum_append, BitVec.add_assoc]
  rw [hafter, ← hs]
  cases h with
  | begin op hout => exact ⟨(BitVec.add_zero _).symm, nofun⟩
  | @act t op c k ret m hdo hans =>
      obtain ⟨rfl, rfl⟩ := hans
      refine ⟨?_, fun _ _ _ heq => by cases heq; exact hs⟩
      show s.shared + c.amount = s.shared + (c.amount + 0#32)
      rw [BitVec.add_zero]
  | done hdo => exact ⟨(BitVec.add_zero _).symm, nofun⟩

theorem counter_history (h : (counter Tid start).interleaved.History es s) :
    s.shared = after start es ∧ AtEvery (Told start) es := by
  induction h with
  | init hinit =>
      refine ⟨?_, AtEvery.nil⟩
      rw [show _ = start from hinit.1]
      exact (BitVec.add_zero _).symm
  | tail _ hstep ih =>
      obtain ⟨hs, htold⟩ := counter_step ih.1 hstep
      exact ⟨hs, ih.2.snoc htold⟩

theorem became_history (h : (counter Tid start).interleaved.History es s) :
    AtEvery (Became start) es := by
  intro pre e post hes t amount r he
  obtain ⟨ret, rfl, before, mid, rfl, hbegun, hmid⟩ :=
    atOnce_history (c := AddCall.mk) (f := fun amount ret => ret + amount)
      (fun _ => rfl) h pre e post hes t amount r he
  have htold := (counter_history h).2 before (.act t ⟨amount⟩ ret) (mid ++ e :: post)
  have hret : ret = after start before := htold (by simp [hes]) t _ ret rfl
  exact ⟨before, mid, ret, rfl, hbegun, hmid, by rw [hret]⟩

end Runs

/-! ## Counted references -/

section Releases

variable {Tid : Type} [DecidableEq Tid] {start : CInt}
  {es pre pre' post post' : List (AddShown Tid)} {s : AddState Tid} {t : Tid} {c : AddCall}
  {ret : CInt}

/-- Every call takes one off, and there are no more of them than there is to take. -/
structure Releases (start : CInt) (es : List (AddShown Tid)) : Prop where
  positive : 0 ≤ start.toInt
  one : ∀ a ∈ amounts es, a = -1#32
  enough : ((amounts es).length : Int) ≤ start.toInt

/-- The threads that have been told that nothing is left. -/
def toldZero (es : List (AddShown Tid)) : List Tid :=
  es.filterMap fun
    | .done t _ r => if r = 0#32 then some t else none
    | _ => none

omit [DecidableEq Tid] in
theorem Releases.of_append (h : Releases start (pre ++ post)) : Releases start pre := by
  refine ⟨h.positive, fun a ha => h.one a (by simp [ha]), ?_⟩
  have henough := h.enough
  rw [amounts_append, List.length_append] at henough
  omega

theorem sum_of_ones {l : List CInt} (h : ∀ a ∈ l, a = -1#32) :
    l.sum = -BitVec.ofNat 32 l.length := by
  induction l with
  | nil => rfl
  | cons a l ih =>
      rw [List.sum_cons, ih fun b hb => h b (List.mem_cons_of_mem _ hb), h a List.mem_cons_self,
        List.length_cons]
      bv_omega

omit [DecidableEq Tid] in
/-- What is left. -/
theorem after_releases (h : Releases start es) :
    (after start es).toInt = start.toInt - (amounts es).length := by
  obtain ⟨hpos, hone, henough⟩ := h
  have hlt := start.isLt
  have hnat : (start + -BitVec.ofNat 32 (amounts es).length).toNat =
      start.toNat - (amounts es).length := by
    rw [BitVec.toInt_eq_toNat_cond] at hpos henough
    split at hpos <;> bv_omega
  rw [after, sum_of_ones hone, BitVec.toInt_eq_toNat_cond, hnat]
  rw [BitVec.toInt_eq_toNat_cond] at hpos henough ⊢
  split at hpos <;> split <;> omega

omit [DecidableEq Tid] in
/-- A release is told 0 just if it takes the last one. -/
theorem release_zero (h : Releases start (pre ++ .act t c ret :: post)) :
    after start pre + c.amount = 0#32 ↔ (amounts pre).length + 1 = start.toInt := by
  rw [← List.singleton_append, ← List.append_assoc] at h
  have hleft := after_releases h.of_append
  have hsnoc : after start (pre ++ [.act t c ret]) = after start pre + c.amount := by
    unfold after
    rw [amounts_append, List.sum_append, BitVec.add_assoc]
    show start + (_ + (c.amount + 0#32)) = _
    rw [BitVec.add_zero]
  rw [hsnoc, amounts_append, List.length_append] at hleft
  rw [← BitVec.toInt_inj, hleft, BitVec.toInt_zero]
  show start.toInt - ((_ + 1 : Nat) : Int) = 0 ↔ _
  omega

omit [DecidableEq Tid] in
/-- Without an addition in between, the next one is the first. -/
theorem act_next {as : List (AddShown Tid)} {t' : Tid} {c' : AddCall} {ret' : CInt}
    (h : .act t c ret :: post = as ++ .act t' c' ret' :: post') (hn : amounts as = []) :
    as = [] ∧ t = t' ∧ post = post' := by
  cases as with
  | nil =>
      rw [List.nil_append] at h
      cases h
      exact ⟨rfl, rfl, rfl⟩
  | cons a as =>
      obtain ⟨rfl, -⟩ := List.cons.inj h
      cases hn

omit [DecidableEq Tid] in
/-- Two additions with as many before them are one. -/
theorem act_unique {t t' : Tid} {c c' : AddCall} {ret ret' : CInt}
    (h : pre ++ .act t c ret :: post = pre' ++ .act t' c' ret' :: post')
    (hn : (amounts pre).length = (amounts pre').length) :
    pre = pre' ∧ t = t' ∧ post = post' := by
  have hnone : ∀ {xs as : List (AddShown Tid)},
      (amounts (xs ++ as)).length = (amounts xs).length → amounts as = [] := by
    intro xs as hlen
    rw [amounts_append, List.length_append, Nat.add_eq_left] at hlen
    exact List.length_eq_zero_iff.mp hlen
  rcases List.append_eq_append_iff.mp h with ⟨as, rfl, hpost⟩ | ⟨as, rfl, hpost⟩
  · obtain ⟨rfl, ht, hpost⟩ := act_next hpost (hnone hn.symm)
    exact ⟨(List.append_nil pre).symm, ht, hpost⟩
  · obtain ⟨rfl, ht, hpost⟩ := act_next hpost (hnone hn)
    exact ⟨List.append_nil pre', ht.symm, hpost.symm⟩

omit [DecidableEq Tid] in
theorem mem_toldZero {u : Tid} : u ∈ toldZero es ↔ ∃ amount, .done u amount 0#32 ∈ es := by
  unfold toldZero
  rw [List.mem_filterMap]
  constructor
  · rintro ⟨e, he, hu⟩
    cases e with
    | begin | act => cases hu
    | done t amount r =>
        by_cases hr : r = 0#32
        · subst hr
          cases hu
          exact ⟨amount, he⟩
        · simp only [hr, if_false] at hu
          cases hu
  · rintro ⟨amount, he⟩
    exact ⟨_, he, rfl⟩

omit [DecidableEq Tid] in
/-- Whoever is told 0 is the first. -/
theorem toldZero_first {u : Tid} {amount : CInt} (hat : AtEvery (Became start) es)
    (hlast : Became start es (.done t amount 0#32)) (h : Releases start es) :
    u ∉ toldZero es := by
  intro hu
  obtain ⟨b, hb⟩ := mem_toldZero.mp hu
  obtain ⟨A, B, hes⟩ := List.append_of_mem hb
  obtain ⟨before, mid, ret, hbefore, -, hmid, hzero⟩ := hlast t amount 0#32 rfl
  obtain ⟨before', mid', ret', hA, -, -, hzero'⟩ := hat A _ B hes u b 0#32 rfl
  have hes' : es = before' ++ .act u ⟨b⟩ ret' :: (mid' ++ .done u b 0#32 :: B) := by
    rw [hes, hA, List.append_assoc, List.cons_append]
  have hn := (release_zero (hbefore ▸ h)).mp hzero.symm
  have hn' := (release_zero (hes' ▸ h)).mp hzero'.symm
  -- both took the last one, so they are the same call, which does not return twice
  obtain ⟨-, rfl, hpost⟩ := act_unique (hbefore.symm.trans hes') (by omega)
  exact hmid (.done t b 0#32) (by rw [hpost]; simp) rfl

theorem toldZero_le (h : (counter Tid start).interleaved.History es s) (hr : Releases start es) :
    (toldZero es).length ≤ 1 := by
  induction h with
  | init => exact Nat.zero_le 1
  | @tail es s s' e hist hstep ih =>
      have hat := became_history hist
      have hlast := became_history (hist.tail hstep) es e [] rfl
      have hsplit : toldZero (es ++ [e]) = toldZero es ++ toldZero [e] := List.filterMap_append
      rw [hsplit, List.length_append]
      cases hz : toldZero [e] with
      | nil => exact ih hr.of_append
      | cons u us =>
          obtain ⟨amount, hu⟩ := mem_toldZero.mp (show u ∈ toldZero [e] by rw [hz]; simp)
          obtain rfl := List.mem_singleton.mp hu
          have hnone : toldZero es = [] :=
            List.eq_nil_iff_forall_not_mem.mpr fun v => toldZero_first hat hlast hr.of_append
          rw [hnone, ← hz]
          exact Nat.le_refl 1

omit [DecidableEq Tid] in
/-- The last addition. -/
theorem exists_last (h : amounts es ≠ []) :
    ∃ pre t c ret post, es = pre ++ .act t c ret :: post ∧ amounts post = [] := by
  induction es with
  | nil => exact absurd rfl h
  | cons e es ih =>
      by_cases hes : amounts es = []
      · cases e with
        | begin t op => exact absurd hes h
        | done t op a => exact absurd hes h
        | act t c ret => exact ⟨[], t, c, ret, es, rfl, hes⟩
      · obtain ⟨pre, t, c, ret, post, hsplit, hpost⟩ := ih hes
        exact ⟨e :: pre, t, c, ret, post, by rw [hsplit]; rfl, hpost⟩

/-- Once everybody has returned, somebody has been told. -/
theorem toldZero_ne_nil (h : (counter Tid start).interleaved.History es s) (hr : Releases start es)
    (hout : ∀ t, s.doing t = none) (hall : (amounts es).length = start.toInt)
    (hpos : 0 < start.toInt) : toldZero es ≠ [] := by
  have hne : amounts es ≠ [] := by
    intro hnil
    rw [hnil] at hall
    exact absurd hall (by simp; omega)
  obtain ⟨pre, t, c, ret, post, rfl, hpost⟩ := exists_last hne
  have hret := (counter_history h).2 pre _ post rfl t c ret rfl
  have hzero : after start pre + c.amount = 0#32 := by
    refine (release_zero hr).mpr ?_
    rw [amounts_append, amounts_act, hpost] at hall
    simpa using hall
  obtain ⟨op, ret', hact, hdo | hmem⟩ :=
    answered_history (c := AddCall.mk) (f := fun amount ret => ret + amount)
      (fun _ => rfl) h pre post rfl
  · rw [hout t] at hdo
    cases hdo
  · cases hact
    have hmem : Shown.done t op (ret + op) ∈ post := hmem
    rw [hret, show after start pre + op = 0#32 from hzero] at hmem
    exact List.ne_nil_of_mem
      (mem_toldZero.mpr ⟨op, List.mem_append_right pre (List.mem_cons_of_mem _ hmem)⟩)

end Releases

/--
**Nothing that any thread adds is lost.**

However the calls of any threads interleave, the counter is what it began as and
everything added so far. Each call returns what its own addition, made between its
beginning and its return, made of the counter.
-/
theorem cryptoAddLock_adds {Tid : Type} [DecidableEq Tid] {start : CInt} {es : List (AddShown Tid)}
    {s : AddState Tid} (h : (counter Tid start).interleaved.History es s) :
    s.shared = start + (amounts es).sum ∧ AtEvery (Became start) es :=
  ⟨(counter_history h).1, became_history h⟩

/-- Two references, which two threads give back at once: whoever begins first returns last. -/
def released : List (AddShown Bool) :=
  [.begin true (-1#32), .begin false (-1#32), .act true ⟨-1#32⟩ 2#32, .act false ⟨-1#32⟩ 1#32,
    .done false (-1#32) 0#32, .done true (-1#32) 1#32]

theorem released_history : ∃ s, (counter Bool 2#32).interleaved.History released s ∧
    ∀ t, s.doing t = none := by
  have h : (counter Bool 2#32).interleaved.History [] ⟨2#32, fun _ => none⟩ :=
    .init ⟨rfl, fun _ => rfl⟩
  have h := h.tail (Step.begin (t := true) (-1#32) rfl)
  have h := h.tail (Step.begin (t := false) (-1#32) rfl)
  have h := h.tail (Step.act (T := counter Bool 2#32) (t := true) (r := 2#32) rfl ⟨rfl, rfl⟩)
  have h := h.tail (Step.act (T := counter Bool 2#32) (t := false) (r := 1#32) rfl ⟨rfl, rfl⟩)
  have h := h.tail (Step.done (t := false) rfl)
  have h := h.tail (Step.done (t := true) rfl)
  refine ⟨_, h, fun t => ?_⟩
  cases t <;> rfl

theorem cryptoAddLock_adds_released : ∃ s, (counter Bool 2#32).interleaved.History released s ∧
    s.shared = 2#32 + (amounts released).sum ∧ AtEvery (Became 2#32) released := by
  obtain ⟨s, h, -⟩ := released_history
  exact ⟨s, h, cryptoAddLock_adds h⟩

/--
**Only the last release is told that nothing is left.**

Where every call gives back one of as many references as the counter began with, however
the threads interleave, at most one call ever returns 0; and once all have been given back
and everybody has returned, one has.
-/
theorem cryptoAddLock_last {Tid : Type} [DecidableEq Tid] {start : CInt} {es : List (AddShown Tid)}
    {s : AddState Tid} (h : (counter Tid start).interleaved.History es s)
    (hr : Releases start es) :
    (toldZero es).length ≤ 1 ∧
      ((∀ t, s.doing t = none) → (amounts es).length = start.toInt → 0 < start.toInt →
        (toldZero es).length = 1) := by
  have hle := toldZero_le h hr
  refine ⟨hle, fun hout hall hpos => ?_⟩
  have hpos := List.length_pos_iff.mpr (toldZero_ne_nil h hr hout hall hpos)
  omega

theorem cryptoAddLock_last_released : (toldZero released).length = 1 := by
  obtain ⟨s, h, hout⟩ := released_history
  have hone : ∀ a ∈ amounts released, a = -1#32 := fun a ha =>
    (List.eq_of_mem_replicate (n := 2) ha)
  have hr : Releases 2#32 released := ⟨Int.zero_le_ofNat 2, hone, Int.le_refl 2⟩
  exact (cryptoAddLock_last h hr).2 hout rfl (by decide)

end LibrePortable.Sync
