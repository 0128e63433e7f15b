import LibrePortable.Lib.SafeWalk
import LibrePortable.Sys.XorQueueRuns

/-!
# Loops that may free the element they are at

The `_FOREACH_SAFE` macros of `include/compat/sys/queue.h` fetch the next element before
the body runs. A loop that takes some elements out, and lets go of their memory, meets
every element all the same; the others stay in their order, and no other list changes.
-/

namespace LibrePortable.Sys

open Lib

variable {H E : Type} {p u : Nat}

/-! ## The loops -/

/-- `SLIST_FOREACH_SAFE`, `LIST_FOREACH_SAFE`, `SIMPLEQ_FOREACH_SAFE` and
`TAILQ_FOREACH_SAFE` -/
def foreachSafe (body : Mem H E → E → Option (Mem H E)) (fuel : Nat) (m : Mem H E) (head : H) :
    Option (Mem H E × List E) :=
  walkSafe some (fun m var => some (tailqNext m var)) body fuel m (tailqFirst m head)

/-- `TAILQ_FOREACH_REVERSE_SAFE` -/
def tailqForeachReverseSafe (body : Mem H E → E → Option (Mem H E)) (fuel : Nat) (m : Mem H E)
    (head : H) : Option (Mem H E × List E) := do
  let last ← tailqLast m head
  walkSafe some tailqPrev body fuel m last

/-- Follow a pointer. -/
def Layout.see (L : Layout H E p) (var : BitVec p) : Option (Option E) :=
  if var = 0 then some none else (L.elemAt var).map some

/-- `XSIMPLEQ_FOREACH_SAFE` -/
def xsimpleqForeachSafe (L : Layout H E p) (body : XorMem H E p u → E → Option (XorMem H E p u))
    (fuel : Nat) (m : XorMem H E p u) (head : H) : Option (XorMem H E p u × List E) :=
  walkSafe L.see (fun m var => some (m.xor head (m.link (.next var)))) body fuel m
    (xsimpleqFirst m head)

variable [DecidableEq H] [DecidableEq E]

/-- An entry that is overwritten. -/
def Mem.overwrite (m : Mem H E) (e : E) (junk : Option E × Option (Slot H E)) : Mem H E :=
  (m.setLink (.next e) junk.1).setBack (.next e) junk.2

/-- `if (!keep(var)) { remove(var); free(var); }`, where anything is in the entry later. -/
def weed {M : Type} (keep : E → Bool) (remove : M → E → Option M) (overwrite : M → E → M) (m : M)
    (e : E) : Option M :=
  if keep e then
    some m
  else do
    let m ← remove m e
    pure (overwrite m e)

/-! ## What memory represents -/

/-- The contents with another sequence in one list. -/
def Contents.put (A : Contents H E) (q : H) (es : List E) : Contents H E :=
  Function.update A q (some es)

/-- A tail queue with the same sequences has the same pointers, and the same words in `R`. -/
def Represents (R : Slot H E → Prop) (m : Mem H E) (A : Contents H E) : Prop :=
  ∃ t, Good t A ∧ Agrees R m t

section Represents

variable {R : Slot H E → Prop} {m : Mem H E} {A : Contents H E} {q : H} {es xs ys : List E} {e : E}

omit [DecidableEq E] in
theorem put_self : A.put q es q = some es := Function.update_self ..

omit [DecidableEq E] in
theorem put_eq (h : A q = some es) : A.put q es = A := by
  rw [Contents.put, ← h, Function.update_eq_self]

omit [DecidableEq H] [DecidableEq E] in
theorem Represents.of_good (h : Good m A) : Represents R m A := ⟨m, h, rfl, fun _ _ => rfl⟩

omit [DecidableEq H] [DecidableEq E] in
/-- A tail queue has all the words. -/
theorem Represents.good (h : Represents (fun _ => True) m A) : Good m A := by
  obtain ⟨⟨link, back⟩, hg, ha⟩ := h
  obtain ⟨link', back'⟩ := m
  obtain rfl : link' = link := ha.link
  obtain rfl : back' = back := funext fun l => ha.back l trivial
  exact hg

omit [DecidableEq H] [DecidableEq E] in
theorem Represents.shows (h : Represents R m A) (hq : A q = some es) : ListShows R m q es := by
  obtain ⟨t, hg, ha⟩ := h
  exact ha.shows (hg.linked q es hq)

omit [DecidableEq E] in
/-- What has been taken out is nowhere. -/
theorem Good.notMember_put (h : Good m (A.put q (xs ++ e :: ys))) :
    ¬ Member (A.put q (xs ++ ys)) e := by
  rintro ⟨q', es, hq', hm⟩
  by_cases hne : q' = q
  · subst hne
    rw [put_self] at hq'
    cases hq'
    have hd := h.nodup _ _ put_self
    rw [List.nodup_middle] at hd
    exact (List.nodup_cons.mp hd).1 hm
  · have hother : A.put q (xs ++ e :: ys) q' = some es := by
      rw [Contents.put, Function.update_of_ne hne]
      rwa [Contents.put, Function.update_of_ne hne] at hq'
    exact h.apart q' q es _ hother put_self hne e hm (by simp)

omit [DecidableEq H] [DecidableEq E] in
/-- No list has a word in the entry of what is in none. -/
theorem ne_of_own (he : ¬ Member A e) (hq : A q = some es) {l : Slot H E} (hl : Own q es l) :
    l ≠ .next e := by
  rintro rfl
  rcases hl with hl | ⟨e', hm, hl⟩
  · cases hl
  · cases hl
    exact he ⟨q, es, hq, hm⟩

theorem Good.overwrite (h : Good m A) (he : ¬ Member A e) (junk : Option E × Option (Slot H E)) :
    Good (m.overwrite e junk) A := by
  refine ⟨fun q es hq => (h.linked q es hq).congr fun l hl => ?_, h.nodup, h.apart⟩
  have hne := ne_of_own he hq hl
  simp [Mem.overwrite, hne]

/-- The entry of what is in no list may hold anything. -/
theorem Represents.overwrite (h : Represents R m A) (he : ¬ Member A e)
    (junk : Option E × Option (Slot H E)) : Represents R (m.overwrite e junk) A := by
  obtain ⟨t, hg, ha⟩ := h
  exact ⟨t.overwrite e junk, hg.overwrite he junk, (ha.setLink _ _).setBack _ _⟩

omit [DecidableEq E] in
theorem Represents.notMember_put (h : Represents R m (A.put q (xs ++ e :: ys))) :
    ¬ Member (A.put q (xs ++ ys)) e := by
  obtain ⟨t, hg, -⟩ := h
  exact hg.notMember_put

end Represents

/-! ## One round -/

section Rounds

variable {R : Slot H E → Prop} {m : Mem H E} {A : Contents H E} {q : H} {es xs ys : List E} {e : E}
  {keep : E → Bool} {junk : E → Option E × Option (Slot H E)}
  {remove : Mem H E → E → Option (Mem H E)}

/-- A macro that takes out the element the loop is at, in a list of at most `k` elements. -/
def TakesOut (R : Slot H E → Prop) (A : Contents H E) (q : H) (k : Nat) (keep : E → Bool)
    (remove : Mem H E → E → Option (Mem H E)) : Prop :=
  ∀ m xs e ys, keep e = false → (∀ x ∈ xs, keep x = true) → xs.length < k →
    Represents R m (A.put q (xs ++ e :: ys)) →
    ∃ m', remove m e = some m' ∧ Represents R m' (A.put q (xs ++ ys))

/-- What a loop over `q` finds in memory. -/
def InList (R : Slot H E → Prop) (A : Contents H E) (q : H) (k : Nat) (es : List E) (m : Mem H E) :
    Prop :=
  Represents R m (A.put q es) ∧ es.length ≤ k

theorem TakesOut.round {k : Nat} (h : TakesOut R A q k keep remove) (hk : keep e = false)
    (hx : ∀ x ∈ xs, keep x = true) (hm : InList R A q k (xs ++ e :: ys) m) :
    ∃ m', weed keep remove (fun m e => m.overwrite e (junk e)) m e = some m' ∧
      InList R A q k (xs ++ ys) m' := by
  obtain ⟨hr, hlen⟩ := hm
  rw [List.length_append, List.length_cons] at hlen
  obtain ⟨m', hm', hr'⟩ := h m xs e ys hk hx (by omega) hr
  refine ⟨m'.overwrite e (junk e), ?_, hr'.overwrite hr.notMember_put _, ?_⟩
  · simp [weed, hk, hm']
  · rw [List.length_append]
    omega

theorem TakesOut.weeds {k : Nat} (h : TakesOut R A q k keep remove) :
    Weeds (InList R A q k) keep (fun m var => some (tailqNext m var))
      (weed keep remove fun m e => m.overwrite e (junk e)) id where
  next m xs e ys hm := by
    obtain ⟨⟨t, hg, ha⟩, -⟩ := hm
    have hnext : tailqNext t e = ys.head? := (hg.linked _ _ put_self).tailqNext_eq
    rw [tailqNext, ha.link_eq, ← tailqNext, hnext]
    rfl
  keeps m e hk := if_pos hk
  drops m xs e ys hk hx hm := h.round hk hx hm

/-- **The loop over a list.** -/
theorem TakesOut.foreach {k : Nat} (h : TakesOut R A q k keep remove) (hr : Represents R m A)
    (hq : A q = some es) (hk : es.length ≤ k) (junk : E → Option E × Option (Slot H E)) {fuel : Nat}
    (hf : es.length < fuel) :
    ∃ m', foreachSafe (weed keep remove fun m e => m.overwrite e (junk e)) fuel m q =
      some (m', es) ∧ Represents R m' (A.put q (es.filter keep)) := by
  have hfirst : tailqFirst m q = id es.head? := by
    obtain ⟨t, hg, ha⟩ := hr
    exact (ha.link_eq _).trans (hg.linked q es hq [] es rfl).1
  have hin : InList R A q k es m := ⟨by rwa [put_eq hq], hk⟩
  obtain ⟨m', hm', hend, -⟩ := h.weeds.walk (fun _ => rfl) hin hf
  refine ⟨m', ?_, hend⟩
  rw [foreachSafe, hfirst]
  exact hm'

end Rounds

/-! ## The macros that take an element out -/

section Removals

variable {R : Slot H E → Prop} {m : Mem H E} {A : Contents H E} {q : H} {es xs ys : List E} {e : E}
  {k : Nat}

omit [DecidableEq E] in
theorem put_at {f : List E → List E} : (A.put q es).at q f = A.put q (f es) := by
  rw [Contents.at_eq put_self]
  exact Function.update_idem ..

theorem erase_middle (h : e ∉ xs) : (xs ++ e :: ys).erase e = xs ++ ys := by
  rw [List.erase_append_right _ h, List.erase_cons_head]

omit [DecidableEq H] [DecidableEq E] in
theorem Represents.notMem (h : Represents R m A) (hq : A q = some (xs ++ e :: ys)) : e ∉ xs := by
  obtain ⟨t, hg, -⟩ := h
  exact fun hm => (List.nodup_append.mp (hg.nodup _ _ hq)).2.2 e hm e List.mem_cons_self rfl

/-- A macro that follows one of the tail queues. -/
theorem Represents.follow {t m' : Mem H E} {A' : Contents H E} {touches : H → Prop} {o : Op H E}
    (hg : Good t A) (hf : Follows R t A A' touches m' o) : Represents R m' A' := by
  obtain ⟨t', hrun, hg', -⟩ := o.correct hg hf.legal
  rw [hf.apply] at hg'
  exact ⟨t', hg', hf.agrees t' hrun⟩

theorem tailqRemove_takesOut (keep : E → Bool) :
    TakesOut (fun _ => True) A q k keep fun m e => tailqRemove m q e := by
  intro m xs e ys _ _ _ hr
  have he := hr.notMem put_self
  obtain ⟨m', hrun, hg', -⟩ := (Op.remove q e).correct hr.good ⟨_, put_self, by simp⟩
  refine ⟨m', hrun, .of_good ?_⟩
  rwa [Op.apply, put_at, erase_middle he] at hg'

theorem slistRemove_takesOut (keep : E → Bool) :
    TakesOut (fun _ => False) A q k keep fun m e => slistRemove k m q e := by
  intro m xs e ys _ _ hk hr
  have he := hr.notMem put_self
  obtain ⟨t, hg, ha⟩ := hr
  obtain ⟨m', o, n, hrun, hf⟩ := (SlistOp.remove q e).follows hg ha ⟨_, put_self, by simp⟩
  refine ⟨m', ?_, ?_⟩
  · have hany := hrun (max n k + 1) (by omega)
    show slistRemove k m q e = some m'
    rw [slistRemove_eq (hg.linked _ _ put_self) ha.link he hk]
    rwa [SlistOp.run, slistRemove_eq (hg.linked _ _ put_self) ha.link he (by omega)] at hany
  · have hend := Represents.follow hg hf
    rwa [SlistOp.apply, put_at, erase_middle he] at hend

theorem listRemove_takesOut (keep : E → Bool) :
    TakesOut InEntry A q k keep fun m e => listRemove m e := by
  intro m xs e ys _ _ _ hr
  have he := hr.notMem put_self
  obtain ⟨t, hg, ha⟩ := hr
  have hmem : e ∈ xs ++ e :: ys := by simp
  obtain ⟨m', o, hrun, hf⟩ := (ListOp.remove e).follows hg ha ⟨q, _, put_self, hmem⟩
  refine ⟨m', hrun, ?_⟩
  have hend := Represents.follow hg hf
  rwa [ListOp.apply, hg.all_eq put_self hmem fun xs hx => List.erase_of_not_mem hx, put_at,
    erase_middle he] at hend

/-- There is no macro that takes any element out of a simple queue: only a loop that keeps
none can use `SIMPLEQ_REMOVE_HEAD`. -/
theorem simpleqRemoveHead_takesOut :
    TakesOut InHead A q k (fun _ => false) fun m _ => simpleqRemoveHead m q := by
  intro m xs e ys _ hx _ hr
  obtain rfl : xs = [] := List.eq_nil_iff_forall_not_mem.mpr fun x hm => by cases hx x hm
  obtain ⟨t, hg, ha⟩ := hr
  obtain ⟨m', o, hrun, hf⟩ := (SimpleqOp.removeHead q).follows hg ha ⟨e, ys, put_self⟩
  refine ⟨m', hrun, ?_⟩
  have hend := Represents.follow hg hf
  rwa [SimpleqOp.apply, put_at] at hend

end Removals

/-! ## Backwards -/

section Backwards

variable {m : Mem H E} {A : Contents H E} {q : H} {es : List E} (keep : E → Bool)
  (junk : E → Option E × Option (Slot H E))

/-- What a loop that goes backwards finds, in the order it meets it. -/
def InQueueBackwards (A : Contents H E) (q : H) (es : List E) (m : Mem H E) : Prop :=
  Good m (A.put q es.reverse)

theorem tailqRemove_weeds_backwards :
    Weeds (InQueueBackwards A q) keep tailqPrev
      (weed keep (fun m e => tailqRemove m q e) fun m e => m.overwrite e (junk e)) id where
  next m xs e ys hm := by
    have hm : Good m (A.put q (xs ++ e :: ys).reverse) := hm
    rw [List.reverse_append, List.reverse_cons, List.append_assoc, List.singleton_append] at hm
    rw [(hm.linked _ _ put_self).tailqPrev_eq, List.getLast?_reverse]
    rfl
  keeps m e hk := if_pos hk
  drops m xs e ys hk _ hm := by
    have hm : Good m (A.put q (xs ++ e :: ys).reverse) := hm
    rw [List.reverse_append, List.reverse_cons, List.append_assoc, List.singleton_append] at hm
    have he := (Represents.of_good (R := fun _ => True) hm).notMem put_self
    obtain ⟨m', hrun, hg, -⟩ := (Op.remove q e).correct hm ⟨_, put_self, by simp⟩
    rw [Op.apply, put_at, erase_middle he] at hg
    have hrun : tailqRemove m q e = some m' := hrun
    refine ⟨m'.overwrite e (junk e), by simp [weed, hk, hrun], ?_⟩
    have hgone := hg.overwrite hm.notMember_put (junk e)
    show Good _ (A.put q (xs ++ ys).reverse)
    rwa [List.reverse_append]

theorem tailqForeachReverseSafe_eq (hg : Good m A) (hq : A q = some es) {fuel : Nat}
    (hf : es.length < fuel) :
    ∃ m', tailqForeachReverseSafe
        (weed keep (fun m e => tailqRemove m q e) fun m e => m.overwrite e (junk e)) fuel m q =
      some (m', es.reverse) ∧ Good m' (A.put q (es.filter keep)) := by
  have hin : InQueueBackwards A q es.reverse m := by
    show Good m (A.put q es.reverse.reverse)
    rwa [List.reverse_reverse, put_eq hq]
  have hlen : es.reverse.length < fuel := by rwa [List.length_reverse]
  obtain ⟨m', hm', hend⟩ := (tailqRemove_weeds_backwards keep junk).walk (fun _ => rfl) hin hlen
  have hend : Good m' (A.put q (es.reverse.filter keep).reverse) := hend
  rw [List.filter_reverse, List.reverse_reverse] at hend
  refine ⟨m', ?_, hend⟩
  rw [tailqForeachReverseSafe, (hg.linked q es hq).tailqLast_eq, ← List.head?_reverse]
  exact hm'

end Backwards

/-! ## XOR simple queues -/

section XorQueues

variable {L : Layout H E p} {x : XorMem H E p u} {A : Contents H E} {q : H} {es : List E}
  (junk : E → BitVec p)

/-- What a loop over an XOR queue finds. -/
def InXorQueue (L : Layout H E p) (A : Contents H E) (q : H) (es : List E) (x : XorMem H E p u) :
    Prop :=
  ∃ m t, Disguised L m t (x, A.put q es)

omit [DecidableEq H] [DecidableEq E] in
theorem see_ptr (x : Option E) : L.see (L.ptr x) = some x := by
  cases x with
  | none => exact if_pos rfl
  | some e =>
      show L.see (L.elem e) = _
      rw [Layout.see, if_neg (L.elem_ne_zero e), L.elemAt_elem]
      rfl

/-- The word of what is in no queue may be anything. -/
theorem Disguised.overwrite {m t : Mem H E} {e : E} (h : Disguised L m t (x, A))
    (he : ¬ Member A e) (w : BitVec p) : Disguised L m t (x.setLink (.next e) w, A) := by
  refine ⟨h.good, h.agrees, fun q es hq => ?_⟩
  have hold := h.encoded q es hq
  refine ⟨fun l hl => ?_, hold.last⟩
  exact (Function.update_of_ne (ne_of_own he hq hl) ..).trans (hold.link l hl)

theorem xsimpleqRemoveHead_weeds (hL : L.Fits u) :
    Weeds (InXorQueue L A q) (fun _ => false)
      (fun (m : XorMem H E p u) var => some (m.xor q (m.link (.next var))))
      (weed (fun _ => false) (fun m _ => xsimpleqRemoveHead L m q)
        fun m e => m.setLink (.next e) (junk e)) L.ptr where
  next x xs e ys hx := by
    obtain ⟨m, t, hd⟩ := hx
    have hown : Own q (xs ++ e :: ys) (.next e) := .inr ⟨e, by simp, rfl⟩
    have hlink : m.link (.next e) = ys.head? :=
      (hd.agrees.link_eq _).trans (hd.good.linked _ _ put_self).tailqNext_eq
    rw [(hd.encoded q _ put_self).decode hL hown, hlink]
  keeps m e hk := by cases hk
  drops x xs e ys _ hx hm := by
    obtain rfl : xs = [] := List.eq_nil_iff_forall_not_mem.mpr fun x hm => by cases hx x hm
    obtain ⟨m, t, hd⟩ := hm
    obtain ⟨x', m', t', hrun, hd', -⟩ := hd.step hL (.removeHead q) ⟨e, ys, put_self⟩
    have hrun : xsimpleqRemoveHead L x q = some x' := hrun
    have happ : XsimpleqOp.plain (.removeHead q : XsimpleqOp H E u) = .removeHead q := rfl
    rw [happ, SimpleqOp.apply, put_at] at hd'
    exact ⟨_, by simp [weed, hrun], m', t', hd'.overwrite hd.good.notMember_put (junk e)⟩

end XorQueues

/-! ## The guarantees -/

/-- **A loop over a tail queue may free the element it is at**, in either direction: it
meets every element, the queue keeps those that the body keeps, in their order, and no
other queue changes. -/
theorem tailq_foreach_safe {m : Mem H E} {A : Contents H E} (h : (tailQueues H E).Reachable (m, A))
    {q : H} {es : List E} (hq : A q = some es) (keep : E → Bool)
    (junk : E → Option E × Option (Slot H E)) {fuel : Nat} (hf : es.length < fuel) :
    (∃ m', foreachSafe
        (weed keep (fun m e => tailqRemove m q e) fun m e => m.overwrite e (junk e)) fuel m q =
        some (m', es) ∧
      ∀ q' es', A.put q (es.filter keep) q' = some es' → Shows m' q' es') ∧
    ∃ m', tailqForeachReverseSafe
        (weed keep (fun m e => tailqRemove m q e) fun m e => m.overwrite e (junk e)) fuel m q =
        some (m', es.reverse) ∧
      ∀ q' es', A.put q (es.filter keep) q' = some es' → Shows m' q' es' := by
  have hg := good_reachable h
  constructor
  · obtain ⟨m', hm', hend⟩ := (tailqRemove_takesOut keep).foreach (.of_good hg) hq (Nat.le_refl _)
      junk hf
    exact ⟨m', hm', fun q' es' hq' => (hend.good.linked q' es' hq').shows⟩
  · obtain ⟨m', hm', hend⟩ := tailqForeachReverseSafe_eq keep junk hg hq hf
    exact ⟨m', hm', fun q' es' hq' => (hend.linked q' es' hq').shows⟩

/-- Two elements, of which the first is taken out on the way. -/
theorem tailq_foreach_safe_two : ∃ m m' m'' : Mem Bool Nat,
    foreachSafe (weed (· == 9) (fun m e => tailqRemove m true e)
      fun m e => m.overwrite e (some 7, none)) 3 m true = some (m', [7, 9]) ∧ Shows m' true [9] ∧
    tailqForeachReverseSafe (weed (· == 9) (fun m e => tailqRemove m true e)
      fun m e => m.overwrite e (some 7, none)) 3 m true = some (m'', [9, 7]) ∧
    Shows m'' true [9] := by
  have h₀ : (tailQueues Bool Nat).Reachable
      ((⟨fun _ => none, fun _ => none⟩ : Mem Bool Nat), fun _ => none) := .init fun _ => rfl
  have h₁ := reachable_op h₀ (.init true) trivial rfl
  have h₂ := reachable_op h₁ (.insertHead true 9)
    ⟨⟨[], rfl⟩, notMember_of_getD (by decide)⟩ rfl
  have h₃ := reachable_op h₂ (.insertHead true 7)
    ⟨⟨[9], rfl⟩, notMember_of_getD (by decide)⟩ rfl
  have hlen : [7, 9].length < 3 := by decide
  obtain ⟨⟨m', hm', hs'⟩, m'', hm'', hs''⟩ :=
    tailq_foreach_safe h₃ (q := true) rfl (· == 9) (fun _ => (some 7, none)) hlen
  exact ⟨_, m', m'', hm', hs' true [9] rfl, hm'', hs'' true [9] rfl⟩

/-- **A loop over any of the other lists may free the element it is at**: over an `SLIST`,
where taking an element out looks for it from the start, over a `LIST`, and over a
`SIMPLEQ`, from which one element after the other can be taken. -/
theorem lists_foreach_safe {m : Mem H E} {A : Contents H E} {q : H} {es : List E}
    (hq : A q = some es) (junk : E → Option E × Option (Slot H E)) {fuel : Nat}
    (hf : es.length < fuel) :
    ((singlyLinkedLists H E).Reachable (m, A) → ∀ keep k, es.length ≤ k →
      ∃ m', foreachSafe (weed keep (fun m e => slistRemove k m q e)
          fun m e => m.overwrite e (junk e)) fuel m q = some (m', es) ∧
        ∀ q' es', A.put q (es.filter keep) q' = some es' → ListShows (fun _ => False) m' q' es') ∧
    ((lists H E).Reachable (m, A) → ∀ keep,
      ∃ m', foreachSafe (weed keep (fun m e => listRemove m e)
          fun m e => m.overwrite e (junk e)) fuel m q = some (m', es) ∧
        ∀ q' es', A.put q (es.filter keep) q' = some es' → ListShows InEntry m' q' es') ∧
    ((simpleQueues H E).Reachable (m, A) →
      ∃ m', foreachSafe (weed (fun _ => false) (fun m _ => simpleqRemoveHead m q)
          fun m e => m.overwrite e (junk e)) fuel m q = some (m', es) ∧
        ∀ q' es', A.put q [] q' = some es' → ListShows InHead m' q' es') := by
  refine ⟨fun h keep k hk => ?_, fun h keep => ?_, fun h => ?_⟩
  · obtain ⟨m', hm', hend⟩ := (slistRemove_takesOut keep).foreach (slists_simulate.reachable h) hq
      hk junk hf
    exact ⟨m', hm', fun q' es' hq' => hend.shows hq'⟩
  · obtain ⟨m', hm', hend⟩ := (listRemove_takesOut keep).foreach (lists_simulate.reachable h) hq
      (Nat.le_refl _) junk hf
    exact ⟨m', hm', fun q' es' hq' => hend.shows hq'⟩
  · obtain ⟨m', hm', hend⟩ := simpleqRemoveHead_takesOut.foreach (simpleqs_simulate.reachable h) hq
      (Nat.le_refl _) junk hf
    rw [List.filter_false] at hend
    exact ⟨m', hm', fun q' es' hq' => hend.shows hq'⟩

/-- Three elements. Where any may be taken out it is the second, which an `SLIST` finds behind
the first. -/
theorem lists_foreach_safe_three :
    (∃ m m' : Mem Bool Nat, foreachSafe (weed (· != 9) (fun m e => slistRemove 3 m true e)
      fun m e => m.overwrite e (some 7, none)) 4 m true = some (m', [7, 9, 4]) ∧
      ListShows (fun _ => False) m' true [7, 4]) ∧
    (∃ m m' : Mem Bool Nat, foreachSafe (weed (· != 9) (fun m e => listRemove m e)
      fun m e => m.overwrite e (some 7, none)) 4 m true = some (m', [7, 9, 4]) ∧
      ListShows InEntry m' true [7, 4]) ∧
    ∃ m m' : Mem Bool Nat, foreachSafe (weed (fun _ => false) (fun m _ => simpleqRemoveHead m true)
      fun m e => m.overwrite e (some 7, none)) 4 m true = some (m', [7, 9, 4]) ∧
      ListShows InHead m' true [] := by
  have hlen : [7, 9, 4].length < 4 := by decide
  have hs : (singlyLinkedLists Bool Nat).Reachable
      ((⟨fun _ => none, fun _ => none⟩ : Mem Bool Nat), fun _ => none) := .init fun _ => rfl
  have hs := listsOf_step hs (.init true) trivial ⟨0, rfl⟩
  have hs := listsOf_step hs (.insertHead true 4)
    ⟨⟨[], rfl⟩, notMember_of_getD (by decide)⟩ ⟨0, rfl⟩
  have hs := listsOf_step hs (.insertHead true 9)
    ⟨⟨[4], rfl⟩, notMember_of_getD (by decide)⟩ ⟨0, rfl⟩
  have hs := listsOf_step hs (.insertHead true 7)
    ⟨⟨[9, 4], rfl⟩, notMember_of_getD (by decide)⟩ ⟨0, rfl⟩
  have hl : (lists Bool Nat).Reachable
      ((⟨fun _ => none, fun _ => none⟩ : Mem Bool Nat), fun _ => none) := .init fun _ => rfl
  have hl := listsOf_step hl (.init true) trivial rfl
  have hl := listsOf_step hl (.insertHead true 4) ⟨⟨[], rfl⟩, notMember_of_getD (by decide)⟩ rfl
  have hl := listsOf_step hl (.insertHead true 9) ⟨⟨[4], rfl⟩, notMember_of_getD (by decide)⟩ rfl
  have hl := listsOf_step hl (.insertHead true 7)
    ⟨⟨[9, 4], rfl⟩, notMember_of_getD (by decide)⟩ rfl
  have hq : (simpleQueues Bool Nat).Reachable
      ((⟨fun _ => none, fun _ => none⟩ : Mem Bool Nat), fun _ => none) := .init fun _ => rfl
  have hq := listsOf_step hq (.init true) trivial rfl
  have hq := listsOf_step hq (.insertTail true 7) ⟨⟨[], rfl⟩, notMember_of_getD (by decide)⟩ rfl
  have hq := listsOf_step hq (.insertTail true 9) ⟨⟨[7], rfl⟩, notMember_of_getD (by decide)⟩ rfl
  have hq := listsOf_step hq (.insertTail true 4)
    ⟨⟨[7, 9], rfl⟩, notMember_of_getD (by decide)⟩ rfl
  obtain ⟨m₁, h₁, hs₁⟩ := (lists_foreach_safe (q := true) rfl (fun _ => (some 7, none)) hlen).1 hs
    (· != 9) 3 (Nat.le_refl 3)
  obtain ⟨m₂, h₂, hs₂⟩ := (lists_foreach_safe (q := true) rfl (fun _ => (some 7, none)) hlen).2.1 hl
    (· != 9)
  obtain ⟨m₃, h₃, hs₃⟩ := (lists_foreach_safe (q := true) rfl (fun _ => (some 7, none)) hlen).2.2 hq
  exact ⟨⟨_, m₁, h₁, hs₁ true [7, 4] rfl⟩, ⟨_, m₂, h₂, hs₂ true [7, 4] rfl⟩, _, m₃, h₃,
    hs₃ true [] rfl⟩

/-- **A loop over an XOR queue may take out and free one element after the other**: it
meets all of them, the queue is empty then, and no other queue changes. -/
theorem xsimpleq_foreach_safe {L : Layout H E p} (hL : L.Fits u) {x : XorMem H E p u}
    {A : Contents H E} (h : (xorQueues u L).Reachable (x, A)) {q : H} {es : List E}
    (hq : A q = some es) (junk : E → BitVec p) {fuel : Nat} (hf : es.length < fuel) :
    ∃ x', xsimpleqForeachSafe L (weed (fun _ => false) (fun m _ => xsimpleqRemoveHead L m q)
        fun m e => m.setLink (.next e) (junk e)) fuel x q = some (x', es) ∧
      ∀ q' es', A.put q [] q' = some es' → XorShows L x' q' es' := by
  obtain ⟨m, t, hd⟩ := disguised_reachable hL h
  have hin : InXorQueue L A q es x := ⟨m, t, by rwa [put_eq hq]⟩
  obtain ⟨x', hx', m', t', hd'⟩ :=
    (xsimpleqRemoveHead_weeds junk hL).walk see_ptr hin hf
  rw [List.filter_false] at hd'
  refine ⟨x', ?_, fun q' es' hq' => hd'.shows hL hq'⟩
  rw [xsimpleqForeachSafe, (hd.shows hL hq).first]
  exact hx'

/-- Two elements under a cookie of 32 bits. -/
theorem xsimpleq_foreach_safe_two : ∃ x x' : XorMem Bool Bool 64 32,
    xsimpleqForeachSafe low (weed (fun _ => false) (fun m _ => xsimpleqRemoveHead low m true)
      fun m e => m.setLink (.next e) 0xdeadbeef) 3 x true = some (x', [false, true]) ∧
    XorShows low x' true [] := by
  have h₀ : (xorQueues 32 low).Reachable ((⟨fun _ => 0, fun _ => 0, fun _ => 0⟩ :
      XorMem Bool Bool 64 32), fun _ => none) := .init fun _ => rfl
  have h₁ := xorQueues_step h₀ (.init true 0xa5a5a5a5) trivial rfl
  have h₂ := xorQueues_step h₁ (.insertHead true true)
    ⟨⟨[], rfl⟩, notMember_of_getD (by decide)⟩ rfl
  have h₃ := xorQueues_step h₂ (.insertHead true false)
    ⟨⟨[true], rfl⟩, notMember_of_getD (by decide)⟩ rfl
  have hlen : [false, true].length < 3 := by decide
  obtain ⟨x', hx', hs'⟩ :=
    xsimpleq_foreach_safe low_fits h₃ (q := true) rfl (fun _ => 0xdeadbeef) hlen
  exact ⟨_, x', hx', hs' true [] rfl⟩

end LibrePortable.Sys
