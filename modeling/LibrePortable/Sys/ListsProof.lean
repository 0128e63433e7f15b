import LibrePortable.Lib.Fuel
import LibrePortable.Sys.Lists
import LibrePortable.Sys.TailQueueRuns

/-!
# The other lists are tail queues with words left out

Beside the memory of a list stands that of a tail queue with the same sequences. Every
macro does what a macro of the tail queues does, except that it does not write the words
its lists do not have; so the two memories agree in the words they have in common, and
what is known of the one holds of the other.

The macros differ in how they find their place. Where a `SIMPLEQ` or an `SLIST` goes
there through the element before, a tail queue takes the address that is written in the
element itself, and it is the same.
-/

namespace LibrePortable.Sys

variable {H E : Type} [DecidableEq H] [DecidableEq E]

/-- Two memories agree in all pointers, and in the words behind those in `R`. -/
structure Agrees (R : Slot H E → Prop) (m m' : Mem H E) : Prop where
  link : m.link = m'.link
  back : ∀ l, R l → m.back l = m'.back l

namespace Agrees

variable {R : Slot H E → Prop} {m m' : Mem H E}

theorem setLink (h : Agrees R m m') (p : Slot H E) (v : Option E) :
    Agrees R (m.setLink p v) (m'.setLink p v) where
  link := by rw [Mem.setLink, Mem.setLink, h.link]
  back := h.back

theorem setBack (h : Agrees R m m') (p : Slot H E) (v : Option (Slot H E)) :
    Agrees R (m.setBack p v) (m'.setBack p v) where
  link := h.link
  back l hl := by
    rw [Mem.setBack_back, Mem.setBack_back, h.back l hl]

/-- A word that is left out. -/
theorem skip (h : Agrees R m m') {p : Slot H E} (hp : ¬ R p) (v : Option (Slot H E)) :
    Agrees R m (m'.setBack p v) where
  link := h.link
  back l hl := by
    have hne : l ≠ p := fun heq => hp (heq ▸ hl)
    rw [Mem.setBack_back, if_neg hne, h.back l hl]

theorem setPrev (h : Agrees R m m') {head : H} (hp : ¬ R (.first head)) (x : Option E)
    (v : Option (Slot H E)) : Agrees R (setPrev m x v) (setPrevOrLast m' head x v) := by
  cases x with
  | none => exact h.skip hp v
  | some x => exact h.setBack _ v

theorem setLast (h : Agrees R m m') (hp : ∀ e, ¬ R (.next e)) (head : H) (x : Option E)
    (v : Slot H E) : Agrees R (setLast m head x v) (setPrevOrLast m' head x (some v)) := by
  cases x with
  | none => exact h.setBack _ _
  | some x => exact h.skip (hp x) _

theorem skipPrevOrLast (h : Agrees R m m') (hp : ∀ l, ¬ R l) (head : H) (x : Option E)
    (v : Option (Slot H E)) : Agrees R m (setPrevOrLast m' head x v) := by
  cases x with
  | none => exact h.skip (hp _) v
  | some x => exact h.skip (hp _) v

omit [DecidableEq H] [DecidableEq E] in
theorem link_eq (h : Agrees R m m') (l : Slot H E) : m.link l = m'.link l := congrFun h.link l

end Agrees

omit [DecidableEq H] [DecidableEq E] in
/-- The words that a `SIMPLEQ` has behind its pointers. -/
def InHead (l : Slot H E) : Prop := ∃ q, l = .first q

omit [DecidableEq H] [DecidableEq E] in
/-- The words that a `LIST` has behind its pointers. -/
def InEntry (l : Slot H E) : Prop := ∃ e, l = .next e

/-! ## One step -/

/-- A macro that takes memory to `m'` does what `op` does to the tail queues in `t`. -/
structure Follows (R : Slot H E → Prop) (t : Mem H E) (A A' : Contents H E) (touches : H → Prop)
    (m' : Mem H E) (op : Op H E) : Prop where
  legal : op.Legal A
  apply : op.apply A = A'
  touches : ∀ q, op.Touches A q → touches q
  agrees : ∀ t', op.run t = some t' → Agrees R m' t'

section Contents

variable {A : Contents H E} {t : Mem H E} {q : H} {es : List E} {e : E}

omit [DecidableEq E] in
/-- A change that leaves lists without `e` alone is one of the list that holds it. -/
theorem Good.all_eq (hg : Good t A) (hq : A q = some es) (he : e ∈ es)
    {f : List E → List E} (hf : ∀ xs, e ∉ xs → f xs = xs) : A.all f = A.at q f := by
  rw [Contents.at_eq hq]
  funext q'
  by_cases hqq : q' = q
  · subst hqq
    simp [Contents.all, hq]
  · rw [Function.update_of_ne hqq, Contents.all]
    cases h' : A q' with
    | none => rfl
    | some es' =>
        have := hg.apart _ _ _ _ hq h' (Ne.symm hqq) e he
        simp [hf es' this]

omit [DecidableEq H] in
theorem eraseAfter_of_notMem {xs : List E} (h : e ∉ xs) : eraseAfter e xs = xs := by
  induction xs with
  | nil => rfl
  | cons x xs ih =>
      obtain ⟨hx, hxs⟩ := not_or.mp (mt List.mem_cons.mpr h)
      cases xs with
      | nil => rfl
      | cons y ys => rw [eraseAfter, if_neg (Ne.symm hx), ih hxs]

omit [DecidableEq H] in
theorem eraseAfter_split {xs ys : List E} {y : E} (hx : e ∉ xs) :
    eraseAfter e (xs ++ e :: y :: ys) = xs ++ e :: ys := by
  induction xs with
  | nil => simp [eraseAfter]
  | cons x xs ih =>
      obtain ⟨hx, hxs⟩ := not_or.mp (mt List.mem_cons.mpr hx)
      have hne : xs ++ e :: y :: ys ≠ [] := by simp
      obtain ⟨z, zs, hz⟩ := List.exists_cons_of_ne_nil hne
      rw [List.cons_append, hz, eraseAfter, if_neg (Ne.symm hx), ← hz, ih hxs, List.cons_append]

end Contents

section Simpleq

variable {m t : Mem H E} {A : Contents H E}

omit [DecidableEq H] [DecidableEq E] in
theorem next_notInHead (e : E) : ¬ InHead (.next e : Slot H E) := by
  rintro ⟨q, hq⟩
  cases hq

theorem simpleqInit_agrees (ha : Agrees InHead m t) (head : H) :
    Agrees InHead (simpleqInit m head) (tailqInit t head) :=
  (ha.setLink _ _).setBack _ _

theorem simpleqInsertHead_agrees (ha : Agrees InHead m t) (head : H) (elm : E) :
    Agrees InHead (simpleqInsertHead m head elm) (tailqInsertHead t head elm) := by
  have h₁ := ha.setLink (.next elm) (t.link (.first head))
  have h₂ := (h₁.setLast next_notInHead head (t.link (.first head)) (.next elm)).setLink
    (.first head) (some elm)
  have h₃ := h₂.skip (next_notInHead elm) (some (.first head))
  simpa [simpleqInsertHead, tailqInsertHead, tailqFirst, ha.link_eq] using h₃

theorem simpleqInsertTail_agrees (ha : Agrees InHead m t) (head : H) (elm : E) {last : Slot H E}
    (hlast : t.back (.first head) = some last) :
    ∃ m', simpleqInsertTail m head elm = some m' ∧
      ∀ t', tailqInsertTail t head elm = some t' → Agrees InHead m' t' := by
  have hm : m.back (.first head) = some last := (ha.back _ ⟨head, rfl⟩).trans hlast
  have h₁ := (ha.setLink (.next elm) none).skip (next_notInHead elm) (some last)
  have h₂ := (h₁.setLink last (some elm)).setBack (.first head) (some (.next elm))
  refine ⟨_, by simp only [simpleqInsertTail, Mem.setLink_back, hm, Option.bind_eq_bind,
    Option.bind_some, Option.pure_def]; rfl, fun t' ht => ?_⟩
  simp [tailqInsertTail, hlast] at ht
  rw [← ht]
  exact h₂

theorem simpleqInsertAfter_agrees (ha : Agrees InHead m t) (head : H)
    (listelm elm : E) : Agrees InHead (simpleqInsertAfter m head listelm elm)
      (tailqInsertAfter t head listelm elm) := by
  have h₁ := ha.setLink (.next elm) (t.link (.next listelm))
  have h₂ := (h₁.setLast next_notInHead head (t.link (.next listelm)) (.next elm)).setLink
    (.next listelm) (some elm)
  have h₃ := h₂.skip (next_notInHead elm) (some (.next listelm))
  simpa [simpleqInsertAfter, tailqInsertAfter, tailqNext, ha.link_eq] using h₃

theorem setLast_link (q : H) (x : Option E) (v : Slot H E) : (setLast m q x v).link = m.link := by
  cases x <;> rfl

theorem setLast_back {l : Slot H E} (hl : InHead l) (q : H) (x : Option E) (v : Slot H E) :
    (setLast m q x v).back l = if l = .of q x then some v else m.back l := by
  obtain ⟨q', rfl⟩ := hl
  cases x with
  | none => exact Mem.setBack_back _ _ _ _
  | some x => exact (if_neg nofun).symm

/-- Taking out the element behind a cut. -/
theorem simpleqRemove_agrees (ha : Agrees InHead m t) {t' : Mem H E} {q : H} {xs ys : List E}
    (hj : JoinedAt t t' q xs ys) :
    Agrees InHead (setLast (m.setLink (.of q xs.getLast?) ys.head?) q ys.head?
      (.of q xs.getLast?)) t' where
  link := by
    funext l
    rw [setLast_link, Mem.setLink_link, hj.link, ha.link_eq]
  back l hl := by
    rw [setLast_back hl, hj.back, Mem.setLink_back, ha.back l hl]

theorem simpleqConcat_agrees (ha : Agrees InHead m t) {head1 head2 : H} {t' : Mem H E}
    (hrun : tailqConcat t head1 head2 = some t') :
    ∃ m', simpleqConcat m head1 head2 = some m' ∧ Agrees InHead m' t' := by
  have hfirst : m.link (.first head2) = t.link (.first head2) := ha.link_eq _
  have h₁ := ha.back _ ⟨head1, rfl⟩
  have h₂ := ha.back _ ⟨head2, rfl⟩
  cases hx : t.link (.first head2) with
  | none =>
      simp [tailqConcat, tailqEmpty, tailqFirst, hx] at hrun
      subst hrun
      exact ⟨m, by simp [simpleqConcat, hfirst, hx], ha⟩
  | some x =>
      cases hl : t.back (.first head1) with
      | none => simp [tailqConcat, tailqEmpty, tailqFirst, hx, hl] at hrun
      | some last =>
          rw [hl] at h₁
          have ha₁ := ((ha.setLink last (some x)).skip (next_notInHead x) (some last)).setBack
            (.first head1) (t.back (.first head2))
          have ha₂ := simpleqInit_agrees ha₁ head2
          refine ⟨_, by simp only [simpleqConcat, hfirst, hx, h₁, Option.isNone_some,
            Bool.false_eq_true, if_false, Mem.setLink_back, h₂, Option.bind_eq_bind,
            Option.bind_some, Option.pure_def]; rfl, ?_⟩
          simp [tailqConcat, tailqEmpty, tailqFirst, hx, hl] at hrun
          subst hrun
          exact ha₂

/-- `elm` is taken out of a tail queue where a simple queue takes it out. -/
theorem remove_joined (hg : Good t A) {q : H} {xs ys : List E} {e : E}
    (hq : A q = some (xs ++ e :: ys)) : (Op.remove q e).Legal A ∧
      (Op.remove q e).apply A = A.at q (fun _ => xs ++ ys) ∧
      ∀ t', (Op.remove q e).run t = some t' → JoinedAt t t' q xs ys := by
  have hd := hg.nodup _ _ hq
  obtain ⟨t₁, hrun, hj⟩ := tailqRemove_spec (hg.linked _ _ hq) hd
  have he : e ∉ xs := fun hm => (List.nodup_append.mp hd).2.2 e hm e List.mem_cons_self rfl
  refine ⟨⟨_, hq, by simp⟩, ?_, fun t' ht' => ?_⟩
  · rw [Op.apply, Contents.at_eq hq, Contents.at_eq hq, List.erase_append_right _ he,
      List.erase_cons_head]
  · obtain rfl : t₁ = t' := Option.some.inj (hrun.symm.trans ht')
    exact hj

/-- The first element of a list is taken out. -/
theorem remove_first {R : Slot H E → Prop} (hg : Good t A) (ha : Agrees R m t) {q : H} {e : E}
    {es : List E} (hq : A q = some (e :: es)) :
    (m.link (.first q) = some e ∧ m.link (.next e) = es.head?) ∧
      (Op.remove q e).Legal A ∧ (Op.remove q e).apply A = A.at q List.tail ∧
      ∀ t', (Op.remove q e).run t = some t' → JoinedAt t t' q [] es := by
  have hq' : A q = some ([] ++ e :: es) := hq
  obtain ⟨hlegal, happ, hj⟩ := remove_joined hg hq'
  refine ⟨⟨?_, ?_⟩, hlegal, ?_, hj⟩
  · exact (ha.link_eq _).trans (hg.linked _ _ hq [] (e :: es) rfl).1
  · exact (ha.link_eq _).trans (hg.linked _ _ hq').tailqNext_eq
  · rw [happ, Contents.at_eq hq, Contents.at_eq hq]
    rfl

/-- The element behind `elm` is taken out. -/
theorem remove_behind {R : Slot H E → Prop} (hg : Good t A) (ha : Agrees R m t) {q : H} {elm y : E}
    {xs ys : List E} (hq : A q = some (xs ++ elm :: y :: ys)) :
    (m.link (.next elm) = some y ∧ m.link (.next y) = ys.head?) ∧
      (Op.remove q y).Legal A ∧ (Op.remove q y).apply A = A.at q (eraseAfter elm) ∧
      ∀ t', (Op.remove q y).run t = some t' → JoinedAt t t' q (xs ++ [elm]) ys := by
  have hq' : A q = some (xs ++ [elm] ++ y :: ys) := by simpa using hq
  have hx : elm ∉ xs := fun hm =>
    (List.nodup_append.mp (hg.nodup _ _ hq)).2.2 elm hm elm List.mem_cons_self rfl
  obtain ⟨hlegal, happ, hj⟩ := remove_joined hg hq'
  refine ⟨⟨?_, ?_⟩, hlegal, ?_, hj⟩
  · exact (ha.link_eq _).trans (hg.linked _ _ hq).tailqNext_eq
  · exact (ha.link_eq _).trans (hg.linked _ _ hq').tailqNext_eq
  · rw [happ, Contents.at_eq hq, Contents.at_eq hq, eraseAfter_split hx, List.append_assoc,
      List.singleton_append]

/-- **Every macro of the simple queues does what one of the tail queues does.** -/
theorem SimpleqOp.follows (hg : Good t A) (ha : Agrees InHead m t) (op : SimpleqOp H E)
    (hl : op.Legal A) : ∃ m' o, op.run m = some m' ∧
      Follows InHead t A (op.apply A) op.Touches m' o := by
  cases op with
  | init head =>
      refine ⟨_, .init head, rfl, trivial, rfl, fun _ h => h, fun t' ht => ?_⟩
      rw [← Option.some.inj ht]
      exact simpleqInit_agrees ha head
  | insertHead head elm =>
      refine ⟨_, .insertHead head elm, rfl, hl, rfl, fun _ h => h, fun t' ht => ?_⟩
      rw [← Option.some.inj ht]
      exact simpleqInsertHead_agrees ha head elm
  | insertTail head elm =>
      obtain ⟨⟨es, hq⟩, -⟩ := id hl
      have hlast := ((hg.linked _ _ hq).shows).last
      obtain ⟨m', hrun, hagrees⟩ := simpleqInsertTail_agrees ha head elm hlast
      exact ⟨m', .insertTail head elm, hrun, hl, rfl, fun _ h => h, hagrees⟩
  | insertAfter head listelm elm =>
      refine ⟨_, .insertAfter head listelm elm, rfl, hl, rfl, fun _ h => h, fun t' ht => ?_⟩
      rw [← Option.some.inj ht]
      exact simpleqInsertAfter_agrees ha head listelm elm
  | removeHead head =>
      obtain ⟨e, es, hq⟩ := hl
      obtain ⟨⟨hfirst, hnext⟩, hlegal, happ, hj⟩ := remove_first hg ha hq
      refine ⟨_, .remove head e, ?_, hlegal, happ, fun _ h => h, fun t' ht =>
        simpleqRemove_agrees ha (hj t' ht)⟩
      simp [SimpleqOp.run, simpleqRemoveHead, hfirst, hnext]
  | removeAfter head elm =>
      obtain ⟨xs, y, ys, hq⟩ := hl
      obtain ⟨⟨hbehind, hnext⟩, hlegal, happ, hj⟩ := remove_behind hg ha hq
      refine ⟨_, .remove head y, ?_, hlegal, happ, fun _ h => h, fun t' ht =>
        simpleqRemove_agrees ha (hj t' ht)⟩
      simp [SimpleqOp.run, simpleqRemoveAfter, hbehind, hnext]
  | concat head1 head2 =>
      obtain ⟨t', hrun, -⟩ := (Op.concat head1 head2 : Op H E).correct hg hl
      obtain ⟨m', hm, hagrees⟩ := simpleqConcat_agrees ha hrun
      refine ⟨m', .concat head1 head2, hm, hl, rfl, fun _ h => h, fun t'' ht => ?_⟩
      obtain rfl : t' = t'' := Option.some.inj (hrun.symm.trans ht)
      exact hagrees

end Simpleq

/-! ## Lists -/

section Lists

variable {m t : Mem H E} {A : Contents H E}

omit [DecidableEq H] [DecidableEq E] in
theorem first_notInEntry (q : H) : ¬ InEntry (.first q : Slot H E) := by
  rintro ⟨e, he⟩
  cases he

theorem listInsertHead_agrees (ha : Agrees InEntry m t) (head : H) (elm : E) :
    Agrees InEntry (listInsertHead m head elm) (tailqInsertHead t head elm) := by
  have h₁ := ha.setLink (.next elm) (t.link (.first head))
  have h₂ := h₁.setPrev (first_notInEntry head) (t.link (.first head)) (some (.next elm))
  have h₃ := (h₂.setLink (.first head) (some elm)).setBack (.next elm) (some (.first head))
  simpa [listInsertHead, tailqInsertHead, tailqFirst, ha.link_eq] using h₃

theorem listInsertAfter_agrees (ha : Agrees InEntry m t) (head : H) (listelm elm : E) :
    Agrees InEntry (listInsertAfter m listelm elm) (tailqInsertAfter t head listelm elm) := by
  have h₁ := ha.setLink (.next elm) (t.link (.next listelm))
  have h₂ := h₁.setPrev (first_notInEntry head) (t.link (.next listelm)) (some (.next elm))
  have h₃ := (h₂.setLink (.next listelm) (some elm)).setBack (.next elm) (some (.next listelm))
  simpa [listInsertAfter, tailqInsertAfter, tailqNext, ha.link_eq] using h₃

omit [DecidableEq H] [DecidableEq E] in
/-- Both go on from the address they find in an entry. -/
theorem Agrees.entry (ha : Agrees InEntry m t) (e : E) {f g : Slot H E → Mem H E}
    (hfg : ∀ p, Agrees InEntry (f p) (g p)) {t' : Mem H E}
    (hrun : (do let p ← t.back (.next e); pure (g p)) = some t') :
    ∃ m', (do let p ← m.back (.next e); pure (f p)) = some m' ∧ Agrees InEntry m' t' := by
  rw [ha.back _ ⟨e, rfl⟩]
  cases hb : t.back (.next e) with
  | none => simp [hb] at hrun
  | some p =>
      simp [hb] at hrun
      subst hrun
      exact ⟨f p, rfl, hfg p⟩

theorem listInsertBefore_agrees (ha : Agrees InEntry m t) {listelm elm : E} {t' : Mem H E}
    (hrun : tailqInsertBefore t listelm elm = some t') :
    ∃ m', listInsertBefore m listelm elm = some m' ∧ Agrees InEntry m' t' := by
  have h₁ := (ha.setBack (.next elm) (t.back (.next listelm))).setLink (.next elm) (some listelm)
  rw [← ha.back (.next listelm) ⟨listelm, rfl⟩] at h₁
  refine h₁.entry listelm (fun p => (h₁.setLink p (some elm)).setBack _ _) ?_
  rw [ha.back (.next listelm) ⟨listelm, rfl⟩]
  exact hrun

theorem listRemove_agrees (ha : Agrees InEntry m t) {head : H} {elm : E} {t' : Mem H E}
    (hrun : tailqRemove t head elm = some t') :
    ∃ m', listRemove m elm = some m' ∧ Agrees InEntry m' t' := by
  have h₁ := ha.setPrev (first_notInEntry head) (t.link (.next elm)) (t.back (.next elm))
  rw [listRemove, ha.link_eq, ha.back (.next elm) ⟨elm, rfl⟩, h₁.link_eq]
  exact h₁.entry elm (fun p => h₁.setLink p _) hrun

theorem listReplace_agrees (ha : Agrees InEntry m t) {head : H} {elm elm2 : E} {t' : Mem H E}
    (hrun : tailqReplace t head elm elm2 = some t') :
    ∃ m', listReplace m elm elm2 = some m' ∧ Agrees InEntry m' t' := by
  have h₁ := ha.setLink (.next elm2) (t.link (.next elm))
  have h₂ := h₁.setPrev (first_notInEntry head) ((t.setLink (.next elm2) (t.link (.next elm))).link
    (.next elm2)) (some (.next elm2))
  have h₃ := h₂.setBack (.next elm2) ((setPrevOrLast (t.setLink (.next elm2) (t.link (.next elm)))
    head ((t.setLink (.next elm2) (t.link (.next elm))).link (.next elm2))
    (some (.next elm2))).back (.next elm))
  rw [listReplace, ha.link_eq, h₁.link_eq, h₂.back (.next elm) ⟨elm, rfl⟩]
  exact h₃.entry elm2 (fun p => h₃.setLink p (some elm2)) hrun

/-- **Every macro of the lists does what one of the tail queues does**, with the head of
the list that holds the element. -/
theorem ListOp.follows (hg : Good t A) (ha : Agrees InEntry m t) (op : ListOp H E)
    (hl : op.Legal A) : ∃ m' o, op.run m = some m' ∧
      Follows InEntry t A (op.apply A) (op.Touches A) m' o := by
  cases op with
  | init head =>
      refine ⟨_, .init head, rfl, trivial, rfl, fun _ h => h, fun t' ht => ?_⟩
      rw [← Option.some.inj ht]
      exact (ha.setLink _ _).skip (first_notInEntry head) _
  | insertAfter listelm elm =>
      obtain ⟨⟨head, es, hq, hm⟩, he⟩ := hl
      refine ⟨_, .insertAfter head listelm elm, rfl, ⟨⟨es, hq, hm⟩, he⟩, ?_, fun q h => ?_,
        fun t' ht => ?_⟩
      · exact (hg.all_eq hq hm fun xs hx => putAfter_of_notMem hx).symm
      · obtain rfl : q = head := h
        exact ⟨es, hq, hm⟩
      · rw [← Option.some.inj ht]
        exact listInsertAfter_agrees ha head listelm elm
  | insertBefore listelm elm =>
      obtain ⟨t', hrun, -⟩ := (Op.insertBefore listelm elm : Op H E).correct hg hl
      obtain ⟨m', hm, hagrees⟩ := listInsertBefore_agrees ha hrun
      refine ⟨m', .insertBefore listelm elm, hm, hl, rfl, fun _ h => h, fun t'' ht => ?_⟩
      obtain rfl : t' = t'' := Option.some.inj (hrun.symm.trans ht)
      exact hagrees
  | insertHead head elm =>
      refine ⟨_, .insertHead head elm, rfl, hl, rfl, fun _ h => h, fun t' ht => ?_⟩
      rw [← Option.some.inj ht]
      exact listInsertHead_agrees ha head elm
  | remove elm =>
      obtain ⟨head, es, hq, hm⟩ := hl
      have hlegal : (Op.remove head elm).Legal A := ⟨es, hq, hm⟩
      obtain ⟨t', hrun, -⟩ := (Op.remove head elm).correct hg hlegal
      obtain ⟨m', hm', hagrees⟩ := listRemove_agrees ha hrun
      refine ⟨m', .remove head elm, hm', hlegal, ?_, fun q h => ?_, fun t'' ht => ?_⟩
      · exact (hg.all_eq hq hm fun xs hx => List.erase_of_not_mem hx).symm
      · obtain rfl : q = head := h
        exact ⟨es, hq, hm⟩
      · obtain rfl : t' = t'' := Option.some.inj (hrun.symm.trans ht)
        exact hagrees
  | replace elm elm2 =>
      obtain ⟨⟨head, es, hq, hm⟩, he⟩ := hl
      have hlegal : (Op.replace head elm elm2).Legal A := ⟨⟨es, hq, hm⟩, he⟩
      obtain ⟨t', hrun, -⟩ := (Op.replace head elm elm2).correct hg hlegal
      obtain ⟨m', hm', hagrees⟩ := listReplace_agrees ha hrun
      refine ⟨m', .replace head elm elm2, hm', hlegal, ?_, fun q h => ?_, fun t'' ht => ?_⟩
      · exact (hg.all_eq hq hm fun xs hx => List.replace_of_not_mem hx).symm
      · obtain rfl : q = head := h
        exact ⟨es, hq, hm⟩
      · obtain rfl : t' = t'' := Option.some.inj (hrun.symm.trans ht)
        exact hagrees

end Lists

end LibrePortable.Sys
