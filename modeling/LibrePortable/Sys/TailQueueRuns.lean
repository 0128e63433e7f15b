import Mathlib.Data.List.Nodup
import LibrePortable.Sys.TailQueueProof

/-!
# Runs over a collection of tail queues

Every operation edits the words of one queue, or of two for `TAILQ_CONCAT`, and of
at most one fresh element. Queues that share no element share no word, so whatever
is not edited stays linked as it was.
-/

namespace LibrePortable.Sys

variable {H E : Type} [DecidableEq H] [DecidableEq E]

/-! ## What each macro writes -/

theorem setPrevOrLast_eq (m : Mem H E) (q : H) (r : Option E) (v : Option (Slot H E)) :
    setPrevOrLast m q r v = m.setBack (.of q r) v := by
  cases r <;> rfl

section Macros

variable {m : Mem H E} {q : H} {es xs ys : List E} {e x : E}

omit [DecidableEq E] in
theorem head_ne_some (he : e ∉ xs ++ ys) : ys.head? ≠ some e :=
  fun h => he (List.mem_append_right _ (List.mem_of_head? h))

omit [DecidableEq E] in
theorem last_ne_some (he : e ∉ xs ++ ys) : xs.getLast? ≠ some e :=
  fun h => he (List.mem_append_left _ (List.mem_of_getLast? h))

omit [DecidableEq H] [DecidableEq E] in
theorem own_last (h : ∀ e ∈ xs, e ∈ es) : Own q es (.of q xs.getLast?) := by
  cases hl : xs.getLast? with
  | none => exact Or.inl rfl
  | some e => exact Or.inr ⟨e, h e (List.mem_of_getLast? hl), rfl⟩

omit [DecidableEq H] [DecidableEq E] in
theorem own_head (h : ∀ e ∈ ys, e ∈ es) : Own q es (.of q ys.head?) := by
  cases hl : ys.head? with
  | none => exact Or.inl rfl
  | some e => exact Or.inr ⟨e, h e (List.mem_of_head? hl), rfl⟩

theorem tailqInsertHead_spec (h : Linked m q es) (he : e ∉ es) :
    InsertedAt m (tailqInsertHead m q e) q [] es e where
  link l := by
    have hl := (h [] es rfl).1
    simp only [List.getLast?_nil, Slot.of_none] at hl
    simp only [tailqInsertHead, setPrevOrLast_eq, tailqFirst, hl, Mem.setBack_link,
      Mem.setLink_link]
    rfl
  back l := by
    have hl := (h [] es rfl).1
    have he' : e ∉ [] ++ es := he
    have hne := head_ne_some he'
    simp only [List.getLast?_nil, Slot.of_none] at hl
    by_cases hn : l = .next e
    · subst hn
      simp [tailqInsertHead, hne]
    · simp [tailqInsertHead, setPrevOrLast_eq, tailqFirst, hl, hn]

theorem tailqInsertTail_spec (h : Linked m q es) (he : e ∉ es) :
    ∃ m', tailqInsertTail m q e = some m' ∧ InsertedAt m m' q es [] e := by
  have hb := (h es [] (by simp)).2
  have he' : e ∉ es ++ [] := by simpa using he
  have hne := last_ne_some he'
  simp only [List.head?_nil, Slot.of_none] at hb
  refine ⟨_, by simp [tailqInsertTail, hb]; rfl, fun l => ?_, fun l => ?_⟩
  · by_cases hn : l = .next e
    · subst hn
      simp [hne]
    · simp [hn]
  · simp only [Mem.setBack_back, Mem.setLink_back]
    rfl

theorem tailqInsertAfter_spec (h : Linked m q (xs ++ x :: ys)) (he : e ∉ xs ++ x :: ys) :
    InsertedAt m (tailqInsertAfter m q x e) q (xs ++ [x]) ys e where
  link l := by
    have hn := h.tailqNext_eq
    simp only [tailqInsertAfter, setPrevOrLast_eq, hn, Mem.setBack_link, Mem.setLink_link]
    rw [show (xs ++ [x]).getLast? = some x by simp]
    rfl
  back l := by
    have hn := h.tailqNext_eq
    have he' : e ∉ (xs ++ [x]) ++ ys := by simpa using he
    have hne := head_ne_some he'
    by_cases hl : l = .next e
    · subst hl
      simp [tailqInsertAfter, hne]
    · simp [tailqInsertAfter, setPrevOrLast_eq, tailqNext, hl]
      rw [show m.link (.next x) = ys.head? from hn]

theorem tailqInsertBefore_spec (h : Linked m q (xs ++ x :: ys)) (he : e ∉ xs ++ x :: ys) :
    ∃ m', tailqInsertBefore m x e = some m' ∧ InsertedAt m m' q xs (x :: ys) e := by
  have hb := h.back_eq
  have hne := last_ne_some he
  have hxe : x ≠ e := by
    intro heq
    subst heq
    simp at he
  simp only [List.head?_cons, Slot.of_some] at hb
  refine ⟨_, by simp [tailqInsertBefore, hb, hxe]; rfl, fun l => ?_, fun l => ?_⟩
  · by_cases hn : l = .next e
    · subst hn
      simp [hne]
    · simp [hn]
  · simp only [Mem.setBack_back, Mem.setLink_back]
    rfl

theorem tailqRemove_spec (h : Linked m q (xs ++ e :: ys)) (hd : (xs ++ e :: ys).Nodup) :
    ∃ m', tailqRemove m q e = some m' ∧ JoinedAt m m' q xs ys := by
  have hb := h.back_eq
  have hn := h.tailqNext_eq
  have hne : ys.head? ≠ some e := fun hm =>
    (List.nodup_cons.mp (List.nodup_append.mp hd).2.1).1 (List.mem_of_head? hm)
  simp only [List.head?_cons, Slot.of_some] at hb
  have hne' : Slot.next e ≠ Slot.of q ys.head? := by simpa using hne
  refine ⟨(m.setBack (.of q ys.head?) (some (.of q xs.getLast?))).setLink (.of q xs.getLast?)
    ys.head?, ?_, fun l => ?_, fun l => ?_⟩
  · simp [tailqRemove, setPrevOrLast_eq, hn, hb, hne']
    simp [tailqNext] at hn ⊢
    rw [hn]
  · simp
  · simp

/-- Replacing is removing and inserting at the same place. -/
theorem tailqReplace_spec (h : Linked m q (xs ++ x :: ys)) (hd : (xs ++ x :: ys).Nodup)
    (he : e ∉ xs ++ x :: ys) :
    ∃ m₁ m', tailqReplace m q x e = some m' ∧ JoinedAt m m₁ q xs ys ∧
      InsertedAt m₁ m' q xs ys e := by
  have hb := h.back_eq
  have hn := h.tailqNext_eq
  have hne : ys.head? ≠ some x := fun hm =>
    (List.nodup_cons.mp (List.nodup_append.mp hd).2.1).1 (List.mem_of_head? hm)
  have he' : e ∉ (xs ++ [x]) ++ ys := by simpa using he
  have hhe := head_ne_some he'
  simp only [List.head?_cons, Slot.of_some] at hb
  have hn' : m.link (.next x) = ys.head? := hn
  refine ⟨(m.setBack (.of q ys.head?) (some (.of q xs.getLast?))).setLink (.of q xs.getLast?)
    ys.head?, (((m.setLink (.next e) ys.head?).setBack (.of q ys.head?)
      (some (.next e))).setBack (.next e) (some (.of q xs.getLast?))).setLink
      (.of q xs.getLast?) (some e), ?_, ⟨fun l => ?_, fun l => ?_⟩, fun l => ?_, fun l => ?_⟩
  · simp [tailqReplace, setPrevOrLast_eq, tailqNext, hn', hb, hne]
  · simp
  · simp
  · by_cases hl : l = .of q xs.getLast? <;> simp [hl]
  · by_cases hl : l = .next e
    · subst hl
      simp [hhe]
    · by_cases hl' : l = .of q ys.head? <;> simp [hl, hl', hhe]

theorem tailqConcat_spec {q₂ : H} (h : Linked m q xs) (h₂ : Linked m q₂ ys) (hq : q ≠ q₂)
    (hd : (xs ++ ys).Nodup) :
    ∃ m', tailqConcat m q q₂ = some m' ∧ Linked m' q (xs ++ ys) ∧ Linked m' q₂ [] ∧
      ∀ l, ¬ Own q (xs ++ ys) l → l ≠ .first q₂ →
        m'.link l = m.link l ∧ m'.back l = m.back l := by
  have hf := (h₂ [] ys rfl).1
  have hb := (h xs [] (by simp)).2
  have hb₂ := (h₂ ys [] (by simp)).2
  simp only [List.getLast?_nil, List.head?_nil, Slot.of_none] at hf hb hb₂
  cases ys with
  | nil =>
      refine ⟨m, ?_, by simpa using h, h₂, fun l _ _ => ⟨rfl, rfl⟩⟩
      simp [tailqConcat, tailqEmpty, tailqFirst, hf]
  | cons y ys =>
      let m₁ := ((m.setLink (.of q xs.getLast?) (some y)).setBack (.next y)
        (some (.of q xs.getLast?))).setBack (.first q) (some (.of q₂ (y :: ys).getLast?))
      refine ⟨tailqInit m₁ q₂, ?_, ?_, ?_, fun l ho hl => ?_⟩
      · simp [tailqConcat, tailqEmpty, tailqFirst, hf, hb, hb₂, m₁]
      · refine h.concat h₂ hq hd (by simp) (fun l hl => ?_) (fun l hl => ?_)
        · simp [tailqInit, hl, m₁]
        · simp only [tailqInit, Mem.setBack_back, Mem.setLink_back, hl, if_false, hb₂, m₁]
          rfl
      · intro xs' ys' hc
        obtain ⟨rfl, rfl⟩ := List.append_eq_nil_iff.mp hc.symm
        simp [tailqInit]
      · have hx : l ≠ .of q xs.getLast? := by
          intro heq
          subst heq
          exact ho (own_last (by simp +contextual))
        have hy : l ≠ .next y := by
          intro heq
          subst heq
          exact ho (Or.inr ⟨y, by simp, rfl⟩)
        have hq' : l ≠ .first q := fun hl => ho (Or.inl hl)
        simp [tailqInit, m₁, hl, hx, hy, hq']

end Macros

/-! ## Edits -/

/-- A queue that held `es` now holds `es'`, and no word outside the two changed. -/
structure Edits (m m' : Mem H E) (q : H) (es es' : List E) : Prop where
  linked : Linked m' q es'
  same : ∀ l, ¬ Own q es l → ¬ Own q es' l → m'.link l = m.link l ∧ m'.back l = m.back l

section Edits

variable {m m' : Mem H E} {q : H} {es es' xs ys : List E} {e : E}

theorem InsertedAt.edits (hi : InsertedAt m m' q xs ys e) (h : Linked m q (xs ++ ys))
    (hd : (xs ++ ys).Nodup) (he : e ∉ xs ++ ys) : Edits m m' q (xs ++ ys) (xs ++ e :: ys) where
  linked := h.insert hd he hi
  same l ho ho' := by
    have hx : l ≠ .of q xs.getLast? := by
      intro heq
      subst heq
      exact ho (own_last (by simp +contextual))
    have hy : l ≠ .of q ys.head? := by
      intro heq
      subst heq
      exact ho (own_head (by simp +contextual))
    have hn : l ≠ .next e := by
      intro heq
      subst heq
      exact ho' (Or.inr ⟨e, by simp, rfl⟩)
    rw [hi.link, hi.back]
    simp [hx, hy, hn]

theorem JoinedAt.edits (hj : JoinedAt m m' q xs ys) (h : Linked m q (xs ++ e :: ys))
    (hd : (xs ++ e :: ys).Nodup) : Edits m m' q (xs ++ e :: ys) (xs ++ ys) where
  linked := h.remove hd hj
  same l ho ho' := by
    have hx : l ≠ .of q xs.getLast? := by
      intro heq
      subst heq
      exact ho' (own_last (by simp +contextual))
    have hy : l ≠ .of q ys.head? := by
      intro heq
      subst heq
      exact ho' (own_head (by simp +contextual))
    rw [hj.link, hj.back]
    simp [hx, hy]

omit [DecidableEq H] [DecidableEq E] in
theorem Edits.trans {m₁ : Mem H E} {es₁ : List E} (h : Edits m m₁ q es es₁)
    (h' : Edits m₁ m' q es₁ es') (hs : ∀ e ∈ es₁, e ∈ es) : Edits m m' q es es' where
  linked := h'.linked
  same l ho ho' := by
    have ho₁ : ¬ Own q es₁ l := by
      intro hcase
      rcases hcase with hl | ⟨e, hm, hl⟩
      · exact ho (Or.inl hl)
      · exact ho (Or.inr ⟨e, hs e hm, hl⟩)
    obtain ⟨hl, hb⟩ := h.same l ho ho₁
    obtain ⟨hl', hb'⟩ := h'.same l ho₁ ho'
    exact ⟨hl'.trans hl, hb'.trans hb⟩

theorem tailqInit_edits (m : Mem H E) (q : H) : Edits m (tailqInit m q) q [] [] where
  linked := by
    intro xs ys hc
    obtain ⟨rfl, rfl⟩ := List.append_eq_nil_iff.mp hc.symm
    simp [tailqInit]
  same l ho _ := by
    have hl : l ≠ .first q := fun h => ho (Or.inl h)
    simp [tailqInit, hl]

end Edits

/-! ## The whole collection -/

/-- Memory represents the contents: every initialised queue is linked, no element
occurs twice. -/
structure Good (m : Mem H E) (A : Contents H E) : Prop where
  linked : ∀ q es, A q = some es → Linked m q es
  nodup : ∀ q es, A q = some es → es.Nodup
  apart : ∀ q q' es es', A q = some es → A q' = some es' → q ≠ q' → ∀ e ∈ es, e ∉ es'

/-- The words of a queue are as they were. -/
def Keeps (m m' : Mem H E) (q : H) (es : List E) : Prop :=
  ∀ l, Own q es l → m'.link l = m.link l ∧ m'.back l = m.back l

/-- What a legal operation owes the collection. -/
def Op.Correct (m : Mem H E) (A : Contents H E) (op : Op H E) : Prop :=
  ∃ m', op.run m = some m' ∧ Good m' (op.apply A) ∧
    ∀ q es, A q = some es → ¬ op.Touches A q → op.apply A q = some es ∧ Keeps m m' q es

section Collection

variable {m m' : Mem H E} {A : Contents H E} {q : H} {es es' : List E}

omit [DecidableEq H] [DecidableEq E] in
/-- Queues that are not edited keep their words. -/
theorem Good.keeps (hg : Good m A) (he : Edits m m' q es es')
    (hin : ∀ e ∈ es, ∃ es₀, A q = some es₀ ∧ e ∈ es₀) (hs : ∀ e ∈ es', e ∈ es ∨ ¬ Member A e)
    {q' : H} {es₁ : List E} (hq : q' ≠ q) (h₁ : A q' = some es₁) : Keeps m m' q' es₁ := by
  have hes : ∀ e ∈ es₁, e ∉ es := by
    intro e h₂ h₃
    obtain ⟨es₀, h₀, hm⟩ := hin e h₃
    exact hg.apart _ _ _ _ h₁ h₀ hq e h₂ hm
  have hes' : ∀ e ∈ es₁, e ∉ es' := fun e h₂ h₃ =>
    (hs e h₃).elim (hes e h₂) fun hn => hn ⟨q', es₁, h₁, h₂⟩
  intro l hcase
  rcases hcase with rfl | ⟨e, hm, rfl⟩
  · exact he.same _ (by simp [Own, hq]) (by simp [Own, hq])
  · exact he.same _ (by simp [Own, hes e hm]) (by simp [Own, hes' e hm])

omit [DecidableEq E] in
theorem Good.edit (hg : Good m A) (he : Edits m m' q es es')
    (hin : ∀ e ∈ es, ∃ es₀, A q = some es₀ ∧ e ∈ es₀) (hn : es'.Nodup)
    (hs : ∀ e ∈ es', e ∈ es ∨ ¬ Member A e) : Good m' (Function.update A q (some es')) := by
  have hes : ∀ q' es₁, q' ≠ q → A q' = some es₁ → ∀ e ∈ es', e ∉ es₁ := by
    intro q' es₁ hq h₁ e h' h₂
    rcases hs e h' with h | h
    · obtain ⟨es₀, h₀, hm⟩ := hin e h
      exact hg.apart _ _ _ _ h₀ h₁ hq.symm e hm h₂
    · exact h ⟨q', es₁, h₁, h₂⟩
  constructor
  · intro q' es₁ h₁
    by_cases hq : q' = q
    · subst hq
      obtain rfl : es' = es₁ := by simpa using h₁
      exact he.linked
    · rw [Function.update_of_ne hq] at h₁
      exact (hg.linked _ _ h₁).congr (hg.keeps he hin hs hq h₁)
  · intro q' es₁ h₁
    by_cases hq : q' = q
    · subst hq
      obtain rfl : es' = es₁ := by simpa using h₁
      exact hn
    · rw [Function.update_of_ne hq] at h₁
      exact hg.nodup _ _ h₁
  · intro q₁ q₂ es₁ es₂ h₁ h₂ hne
    by_cases hq₁ : q₁ = q
    · subst hq₁
      obtain rfl : es' = es₁ := by simpa using h₁
      rw [Function.update_of_ne hne.symm] at h₂
      exact hes _ _ hne.symm h₂
    · rw [Function.update_of_ne hq₁] at h₁
      by_cases hq₂ : q₂ = q
      · subst hq₂
        obtain rfl : es' = es₂ := by simpa using h₂
        exact fun e hm hm' => hes _ _ hne h₁ e hm' hm
      · rw [Function.update_of_ne hq₂] at h₂
        exact hg.apart _ _ _ _ h₁ h₂ hne

/-- An operation that edits one queue. -/
theorem Good.correct (hg : Good m A) {op : Op H E} (hr : op.run m = some m')
    (ha : op.apply A = Function.update A q (some es')) (ht : op.Touches A q)
    (he : Edits m m' q es es') (hin : ∀ e ∈ es, ∃ es₀, A q = some es₀ ∧ e ∈ es₀)
    (hn : es'.Nodup) (hs : ∀ e ∈ es', e ∈ es ∨ ¬ Member A e) : op.Correct m A := by
  refine ⟨m', hr, ha ▸ hg.edit he hin hn hs, fun q' es₁ h₁ ht' => ?_⟩
  have hq : q' ≠ q := by
    intro heq
    subst heq
    exact ht' ht
  exact ⟨by rw [ha, Function.update_of_ne hq, h₁], hg.keeps he hin hs hq h₁⟩

theorem putAfter_of_notMem {l e : E} {xs : List E} (h : l ∉ xs) : putAfter l e xs = xs := by
  induction xs with
  | nil => rfl
  | cons x xs ih =>
      obtain ⟨hx, hxs⟩ := not_or.mp (mt List.mem_cons.mpr h)
      simpa [putAfter, Ne.symm hx] using ih hxs

theorem putBefore_of_notMem {l e : E} {xs : List E} (h : l ∉ xs) : putBefore l e xs = xs := by
  induction xs with
  | nil => rfl
  | cons x xs ih =>
      obtain ⟨hx, hxs⟩ := not_or.mp (mt List.mem_cons.mpr h)
      simpa [putBefore, Ne.symm hx] using ih hxs

omit [DecidableEq E] in
/-- A sequence without repetitions, split around one of its elements. -/
theorem exists_split {l : E} (hm : l ∈ es) (hd : es.Nodup) :
    ∃ xs ys, es = xs ++ l :: ys ∧ l ∉ xs ∧ l ∉ ys := by
  obtain ⟨xs, ys, rfl⟩ := List.append_of_mem hm
  refine ⟨xs, ys, rfl, fun hx => ?_, (List.nodup_cons.mp (List.nodup_append.mp hd).2.1).1⟩
  exact (List.nodup_append.mp hd).2.2 l hx l (by simp) rfl

theorem putAfter_split {l e : E} {xs ys : List E} (hx : l ∉ xs) (hy : l ∉ ys) :
    putAfter l e (xs ++ l :: ys) = xs ++ [l] ++ e :: ys := by
  have h₁ := putAfter_of_notMem (e := e) hx
  have h₂ := putAfter_of_notMem (e := e) hy
  simp only [putAfter] at h₁ h₂ ⊢
  simp [h₁, h₂]

theorem putBefore_split {l e : E} {xs ys : List E} (hx : l ∉ xs) (hy : l ∉ ys) :
    putBefore l e (xs ++ l :: ys) = xs ++ e :: l :: ys := by
  have h₁ := putBefore_of_notMem (e := e) hx
  have h₂ := putBefore_of_notMem (e := e) hy
  simp only [putBefore] at h₁ h₂ ⊢
  simp [h₁, h₂]

omit [DecidableEq E] in
theorem Contents.at_eq {f : List E → List E} (h : A q = some es) :
    A.at q f = Function.update A q (some (f es)) := by
  simp [Contents.at, h]

omit [DecidableEq E] in
theorem mem_of_mem_join {xs ys : List E} {e l : E} (h : e ∈ xs ++ ys) : e ∈ xs ++ l :: ys :=
  (List.sublist_cons_self l ys).append_left xs |>.mem h

omit [DecidableEq H] [DecidableEq E] in
theorem notMem_of_fresh {elm : E} (he : ¬ Member A elm) (hq : A q = some es) : elm ∉ es :=
  fun hm => he ⟨q, es, hq, hm⟩

omit [DecidableEq H] [DecidableEq E] in
theorem fresh_or_mem {elm : E} (he : ¬ Member A elm) {xs ys : List E} :
    ∀ e ∈ xs ++ elm :: ys, e ∈ xs ++ ys ∨ ¬ Member A e := by
  intro e hm
  rcases List.mem_append.mp hm with h | h
  · exact Or.inl (List.mem_append_left _ h)
  · rcases List.mem_cons.mp h with rfl | h
    · exact Or.inr he
    · exact Or.inl (List.mem_append_right _ h)

/-- Linking a fresh element in. -/
theorem Good.correct_insert (hg : Good m A) {op : Op H E} {xs ys : List E} {e : E}
    (hr : op.run m = some m') (ha : op.apply A = Function.update A q (some (xs ++ e :: ys)))
    (ht : op.Touches A q) (hq : A q = some (xs ++ ys)) (he : ¬ Member A e)
    (hi : InsertedAt m m' q xs ys e) : op.Correct m A := by
  have hd := hg.nodup _ _ hq
  have hn : e ∉ xs ++ ys := notMem_of_fresh he hq
  exact hg.correct hr ha ht (hi.edits (hg.linked _ _ hq) hd hn) (fun e hm => ⟨_, hq, hm⟩)
    (List.nodup_middle.mpr (List.nodup_cons.mpr ⟨hn, hd⟩)) (fresh_or_mem he)

/-- `listelm` is in one queue only, so that no other queue changes. -/
theorem Good.insertBefore_apply (hg : Good m A) {head : H} {listelm elm : E}
    (hq : A head = some es) (hm : listelm ∈ es) :
    (Op.insertBefore listelm elm : Op H E).apply A =
      Function.update A head (some (putBefore listelm elm es)) := by
  funext q'
  by_cases hqq : q' = head
  · subst hqq
    simp [Op.apply, hq]
  · rw [Function.update_of_ne hqq]
    cases h' : A q' with
    | none => simp [Op.apply, h']
    | some es' =>
        have := hg.apart _ _ _ _ hq h' (Ne.symm hqq) listelm hm
        simp [Op.apply, h', putBefore_of_notMem this]

/-- Moving the elements of one queue behind those of another. -/
theorem Good.correct_concat (hg : Good m A) {head1 head2 : H} {xs ys : List E}
    (hne : head1 ≠ head2) (h₁ : A head1 = some xs) (h₂ : A head2 = some ys) :
    (Op.concat head1 head2 : Op H E).Correct m A := by
  have hdis := hg.apart _ _ _ _ h₁ h₂ hne
  have hd : (xs ++ ys).Nodup := List.nodup_append.mpr
    ⟨hg.nodup _ _ h₁, hg.nodup _ _ h₂, fun a ha b hb hab => hdis a ha (hab ▸ hb)⟩
  obtain ⟨m', hr, hl₁, hl₂, hsame⟩ :=
    tailqConcat_spec (hg.linked _ _ h₁) (hg.linked _ _ h₂) hne hd
  -- as if the second head had been emptied first, and then the elements linked in
  let A₁ := Function.update A head2 (some [])
  have he₁ := tailqInit_edits m head2
  have hg₁ : Good (tailqInit m head2) A₁ := hg.edit he₁ (by simp) (by simp) (by simp)
  have h₁' : A₁ head1 = some xs := by simp [A₁, Function.update_of_ne hne, h₁]
  have he₂ : Edits (tailqInit m head2) m' head1 xs (xs ++ ys) := by
    refine ⟨hl₁, fun l _ ho' => ?_⟩
    by_cases hl : l = .first head2
    · subst hl
      have := hl₂ [] [] rfl
      simp only [List.getLast?_nil, List.head?_nil, Slot.of_none] at this
      simp [tailqInit, this]
    · have := hsame l ho' hl
      simp [tailqInit, hl, this]
  have hs : ∀ e ∈ xs ++ ys, e ∈ xs ∨ ¬ Member A₁ e := by
    intro e hm
    rcases List.mem_append.mp hm with h | h
    · exact Or.inl h
    · refine Or.inr fun ⟨q', es', hq', hm'⟩ => ?_
      by_cases hqq : q' = head2
      · subst hqq
        obtain rfl : [] = es' := by simpa [A₁] using hq'
        exact absurd hm' (by simp)
      · rw [show A₁ q' = A q' from Function.update_of_ne hqq _ _] at hq'
        exact hg.apart _ _ _ _ hq' h₂ hqq e hm' h
  have hin : ∀ e ∈ xs, ∃ es₀, A₁ head1 = some es₀ ∧ e ∈ es₀ := fun e hm => ⟨_, h₁', hm⟩
  refine ⟨m', hr, ?_, fun q' es' hq' ht => ?_⟩
  · have hA : (Op.concat head1 head2).apply A = Function.update A₁ head1 (some (xs ++ ys)) := by
      rw [Function.update_comm hne.symm]
      simp [Op.apply, Contents.at, h₁, h₂, Function.update_of_ne hne.symm]
    rw [hA]
    exact hg₁.edit he₂ hin hd hs
  · obtain ⟨hq₁, hq₂⟩ := not_or.mp ht
    have hk₁ := hg.keeps he₁ (by simp) (by simp) hq₂ hq'
    have hq'' : A₁ q' = some es' := by simp [A₁, Function.update_of_ne hq₂, hq']
    have hk₂ := hg₁.keeps he₂ hin hs hq₁ hq''
    refine ⟨?_, fun l ho => ⟨(hk₂ l ho).1.trans (hk₁ l ho).1,
      (hk₂ l ho).2.trans (hk₁ l ho).2⟩⟩
    simp [Op.apply, Contents.at, Function.update_of_ne hq₁, Function.update_of_ne hq₂, hq']

/-- **Every legal operation does to memory what it does to the sequences**, and
leaves every other queue alone. -/
theorem Op.correct (hg : Good m A) (op : Op H E) (hl : op.Legal A) : op.Correct m A := by
  cases op with
  | init head =>
      exact hg.correct rfl rfl rfl (tailqInit_edits m head) (by simp) (by simp) (by simp)
  | insertHead head elm =>
      obtain ⟨⟨es, hq⟩, he⟩ := hl
      have hn : elm ∉ es := notMem_of_fresh he hq
      have hq' : A head = some ([] ++ es) := hq
      have ha : (Op.insertHead head elm).apply A =
          Function.update A head (some ([] ++ elm :: es)) := Contents.at_eq hq
      exact hg.correct_insert rfl ha rfl hq' he (tailqInsertHead_spec (hg.linked _ _ hq) hn)
  | insertTail head elm =>
      obtain ⟨⟨es, hq⟩, he⟩ := hl
      have hn : elm ∉ es := notMem_of_fresh he hq
      obtain ⟨m', hr, hi⟩ := tailqInsertTail_spec (hg.linked _ _ hq) hn
      have hq' : A head = some (es ++ []) := by simpa using hq
      exact hg.correct_insert hr (Contents.at_eq hq) rfl hq' he hi
  | insertAfter head listelm elm =>
      obtain ⟨⟨es, hq, hm⟩, he⟩ := hl
      have hn : elm ∉ es := notMem_of_fresh he hq
      obtain ⟨xs, ys, rfl, hx, hy⟩ := exists_split hm (hg.nodup _ _ hq)
      have hq' : A head = some ((xs ++ [listelm]) ++ ys) := by simpa using hq
      refine hg.correct_insert rfl ?_ rfl hq' he
        (tailqInsertAfter_spec (hg.linked _ _ hq) hn)
      rw [← putAfter_split hx hy]
      exact Contents.at_eq hq
  | insertBefore listelm elm =>
      obtain ⟨⟨head, es, hq, hm⟩, he⟩ := hl
      have hn : elm ∉ es := notMem_of_fresh he hq
      obtain ⟨xs, ys, rfl, hx, hy⟩ := exists_split hm (hg.nodup _ _ hq)
      obtain ⟨m', hr, hi⟩ := tailqInsertBefore_spec (hg.linked _ _ hq) hn
      refine hg.correct_insert hr ?_ ⟨_, hq, hm⟩ hq he hi
      rw [← putBefore_split hx hy]
      exact hg.insertBefore_apply hq hm
  | remove head elm =>
      obtain ⟨es, hq, hm⟩ := hl
      have hd := hg.nodup _ _ hq
      obtain ⟨xs, ys, rfl, hx, hy⟩ := exists_split hm hd
      obtain ⟨m', hr, hj⟩ := tailqRemove_spec (hg.linked _ _ hq) hd
      refine hg.correct hr ?_ rfl (hj.edits (hg.linked _ _ hq) hd) (fun e hm => ⟨_, hq, hm⟩)
        (List.nodup_cons.mp (List.nodup_middle.mp hd)).2 fun e hm => Or.inl (mem_of_mem_join hm)
      rw [show xs ++ ys = (xs ++ elm :: ys).erase elm by
        rw [List.erase_append_right _ hx, List.erase_cons_head]]
      exact Contents.at_eq hq
  | replace head elm elm2 =>
      obtain ⟨⟨es, hq, hm⟩, he⟩ := hl
      have hn : elm2 ∉ es := notMem_of_fresh he hq
      have hd := hg.nodup _ _ hq
      obtain ⟨xs, ys, rfl, hx, hy⟩ := exists_split hm hd
      obtain ⟨m₁, m', hr, hj, hi⟩ := tailqReplace_spec (hg.linked _ _ hq) hd hn
      have hd₁ : (xs ++ ys).Nodup := (List.nodup_cons.mp (List.nodup_middle.mp hd)).2
      have hn₁ : elm2 ∉ xs ++ ys := fun hm => hn (mem_of_mem_join hm)
      have he₁ := hj.edits (hg.linked _ _ hq) hd
      have he₂ := hi.edits he₁.linked hd₁ hn₁
      refine hg.correct hr ?_ rfl (he₁.trans he₂ fun e hm => mem_of_mem_join hm)
        (fun e hm => ⟨_, hq, hm⟩) (List.nodup_middle.mpr (List.nodup_cons.mpr ⟨hn₁, hd₁⟩))
        fun e hm => (fresh_or_mem he e hm).imp_left mem_of_mem_join
      rw [show xs ++ elm2 :: ys = (xs ++ elm :: ys).replace elm elm2 by
        rw [List.replace_append_right hx, List.replace_cons_self]]
      exact Contents.at_eq hq
  | concat head1 head2 =>
      obtain ⟨hne, ⟨xs, h₁⟩, ⟨ys, h₂⟩⟩ := hl
      exact hg.correct_concat hne h₁ h₂

end Collection

/-! ## Runs -/

/-- What walking a queue shows. -/
structure Shows (m : Mem H E) (q : H) (es : List E) : Prop where
  /-- `TAILQ_FOREACH` meets the elements in order. -/
  forward : ∀ fuel, es.length < fuel → tailqForeach m fuel (tailqFirst m q) = some es
  /-- `TAILQ_FOREACH_REVERSE` meets them in the opposite order. -/
  backward : ∃ last, tailqLast m q = some last ∧
    ∀ fuel, es.length < fuel → tailqForeachReverse m fuel last = some es.reverse
  empty : tailqEmpty m q = true ↔ es = []
  /-- `tqh_last` is the address of the last pointer. -/
  last : m.back (.first q) = some (.of q es.getLast?)

omit [DecidableEq H] [DecidableEq E] in
theorem Linked.shows {m : Mem H E} {q : H} {es : List E} (h : Linked m q es) : Shows m q es := by
  have hf := (h [] es rfl).1
  have hb := (h es [] (by simp)).2
  simp only [List.getLast?_nil, List.head?_nil, Slot.of_none] at hf hb
  refine ⟨fun fuel hn => ?_, ⟨_, h.tailqLast_eq, fun fuel hn => ?_⟩, ?_, hb⟩
  · rw [tailqFirst, hf]
    have h' : Linked m q ([] ++ es) := h
    exact h'.foreach_eq hn
  · have h' : Linked m q (es ++ []) := by simpa using h
    exact h'.foreachReverse_eq hn
  · simp [tailqEmpty, tailqFirst, hf]

theorem reachable_op {m m' : Mem H E} {A : Contents H E} (h : (tailQueues H E).Reachable (m, A))
    (op : Op H E) (hl : op.Legal A) (hr : op.run m = some m') :
    (tailQueues H E).Reachable (m', op.apply A) :=
  h.tail (e := op) ⟨hl, hr, rfl⟩

theorem good_reachable {s : Mem H E × Contents H E} (h : (tailQueues H E).Reachable s) :
    Good s.1 s.2 := by
  refine h.invariant (I := fun s => Good s.1 s.2) (fun s hi => ?_) (fun s op s' _ hg hs => ?_)
  · have hn : ∀ q es, s.2 q ≠ some es := by
      intro q es h
      simp [hi q] at h
    exact ⟨fun q es h => absurd h (hn q es), fun q es h => absurd h (hn q es),
      fun q _ es _ h => absurd h (hn q es)⟩
  · obtain ⟨hl, hr, ha⟩ := hs
    obtain ⟨m', hr', hg', _⟩ := op.correct hg hl
    obtain rfl : m' = s'.1 := by simpa [hr'] using hr
    rw [ha]
    exact hg'

/-- **Tail queues are sequences.** After any run of legal operations every head
shows the sequence the operations built, forwards and backwards; and the next legal
operation succeeds, builds the next sequence, and leaves the words of every queue it
does not work on as they are. -/
theorem tailq_represents {s : Mem H E × Contents H E} (h : (tailQueues H E).Reachable s) :
    (∀ q es, s.2 q = some es → Shows s.1 q es) ∧
    ∀ op : Op H E, op.Legal s.2 → ∃ m', op.run s.1 = some m' ∧
      (∀ q es, op.apply s.2 q = some es → Shows m' q es) ∧
      ∀ q es, s.2 q = some es → ¬ op.Touches s.2 q →
        op.apply s.2 q = some es ∧ Keeps s.1 m' q es := by
  have hg := good_reachable h
  refine ⟨fun q es hq => (hg.linked q es hq).shows, fun op hl => ?_⟩
  obtain ⟨m', hr, hg', hk⟩ := op.correct hg hl
  exact ⟨m', hr, fun q es hq => (hg'.linked q es hq).shows, hk⟩

omit [DecidableEq H] [DecidableEq E] in
theorem notMember_of_getD {A : Contents H E} {e : E} (h : ∀ q, e ∉ (A q).getD []) :
    ¬ Member A e := by
  rintro ⟨q, es, hq, hm⟩
  exact h q (by rw [hq]; exact hm)

/-- Two elements in the second queue, which the first takes over behind its own. -/
theorem tailq_represents_concat : ∃ m : Mem Bool Nat, Shows m false [5] ∧ Shows m true [7, 9] ∧
    ∃ m', tailqConcat m false true = some m' ∧ Shows m' false [5, 7, 9] ∧ Shows m' true [] := by
  have h : (tailQueues Bool Nat).Reachable
      ((⟨fun _ => none, fun _ => none⟩ : Mem Bool Nat), fun _ => none) := .init fun _ => rfl
  have h := reachable_op (reachable_op h (.init false) trivial rfl) (.init true) trivial rfl
  have h := reachable_op h (.insertHead false 5) ⟨⟨[], rfl⟩, notMember_of_getD (by decide)⟩ rfl
  have h := reachable_op h (.insertHead true 7) ⟨⟨[], rfl⟩, notMember_of_getD (by decide)⟩ rfl
  have h := reachable_op h (.insertTail true 9) ⟨⟨[7], rfl⟩, notMember_of_getD (by decide)⟩ rfl
  obtain ⟨hs, hop⟩ := tailq_represents h
  obtain ⟨m', hr, hs', -⟩ := hop (.concat false true) ⟨by decide, ⟨[5], rfl⟩, ⟨[7, 9], rfl⟩⟩
  exact ⟨_, hs false [5] rfl, hs true [7, 9] rfl, m', hr, hs' false [5, 7, 9] rfl,
    hs' true [] rfl⟩

end LibrePortable.Sys
