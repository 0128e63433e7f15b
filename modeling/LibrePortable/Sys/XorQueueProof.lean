import LibrePortable.Sys.ListsRuns
import LibrePortable.Sys.XorQueue

/-!
# XOR simple queues are simple queues

Beside the words of an `XSIMPLEQ` stands the memory of a `SIMPLEQ`, and every word is
the pointer there, exclusive-or'ed with the cookie of the head whose queue it is in.
Each macro does to the words what its plain counterpart does to the pointers, whatever
the cookies are.

That takes addresses that go through an `unsigned long` unharmed. For one that does not,
the element that was put in is not the one that comes out.
-/

namespace LibrePortable.Sys

variable {H E : Type} {p u : Nat}

/-- A word that survives the cast to `unsigned long`. -/
def Fits (u : Nat) (w : BitVec p) : Prop := (w.setWidth u).setWidth p = w

/-- All addresses survive it. -/
structure Layout.Fits (u : Nat) (L : Layout H E p) : Prop where
  elem : ∀ e, Sys.Fits u (L.elem e)
  slot : ∀ l, Sys.Fits u (L.slot l)

/-- Twice the same cookie is the cast and nothing else. -/
theorem xorWord_xorWord (c : BitVec u) (w : BitVec p) :
    xorWord c (xorWord c w) = (w.setWidth u).setWidth p := by
  ext i hi
  simp only [xorWord, BitVec.getElem_setWidth, BitVec.getLsbD_xor, BitVec.getLsbD_setWidth]
  by_cases hu : i < u
  · simp [hu, hi]
  · simp [hu, BitVec.getLsbD_of_ge c i (by omega)]

theorem xorWord_inj {c : BitVec u} {v w : BitVec p} (hv : Fits u v) (hw : Fits u w)
    (h : xorWord c v = xorWord c w) : v = w := by
  rw [← hv, ← hw, ← xorWord_xorWord c v, ← xorWord_xorWord c w, h]

theorem fits_zero : Fits u (0 : BitVec p) := by simp [Fits]

theorem Layout.Fits.ptr {L : Layout H E p} (hL : L.Fits u) (x : Option E) :
    Sys.Fits u (L.ptr x) := by
  cases x with
  | none => exact fits_zero
  | some e => exact hL.elem e

theorem Layout.ptr_eq_zero {L : Layout H E p} {x : Option E} : L.ptr x = 0 ↔ x = none := by
  cases x with
  | none => exact ⟨fun _ => rfl, fun _ => rfl⟩
  | some e => exact ⟨fun h => absurd h (L.elem_ne_zero e), nofun⟩

/-! ## One queue -/

/-- The words in `S`, and the last pointer of `q`, are those of `m` under the cookie of
`q`. -/
structure Encoded (L : Layout H E p) (q : H) (S : Slot H E → Prop) (x : XorMem H E p u)
    (m : Mem H E) : Prop where
  link : ∀ l, S l → x.link l = x.xor q (L.ptr (m.link l))
  last : ∃ v, m.back (.first q) = some v ∧ x.last q = x.xor q (L.slot v)

/-- A macro that works on `q` has written to nothing but `S` and the head of `q`. -/
structure Coded (L : Layout H E p) (x₀ : XorMem H E p u) (q : H) (S : Slot H E → Prop)
    (x : XorMem H E p u) (m : Mem H E) : Prop where
  encoded : Encoded L q S x m
  off : ∀ l, ¬ S l → x.link l = x₀.link l
  others : ∀ q', q' ≠ q → x.last q' = x₀.last q' ∧ x.cookie q' = x₀.cookie q'

section Steps

variable [DecidableEq H] [DecidableEq E] {L : Layout H E p} {x₀ x : XorMem H E p u} {m : Mem H E}
  {q : H} {S : Slot H E → Prop}

theorem Coded.setLink (h : Coded L x₀ q S x m) (l : Slot H E) (v : Option E) :
    Coded L x₀ q (fun l' => S l' ∨ l' = l) (x.setLink l (x.xor q (L.ptr v))) (m.setLink l v) where
  encoded := by
    refine ⟨fun l' hl' => ?_, h.encoded.last⟩
    show Function.update x.link l _ l' = _
    by_cases hl : l' = l
    · subst hl
      rw [Function.update_self, Mem.setLink_link, if_pos rfl]
      rfl
    · rw [Function.update_of_ne hl, Mem.setLink_link, if_neg hl]
      exact h.encoded.link l' (hl'.resolve_right hl)
  off l' hl' := by
    obtain ⟨hS, hl⟩ := not_or.mp hl'
    exact (Function.update_of_ne hl _ _).trans (h.off l' hS)
  others := h.others

/-- Copying a word is copying a pointer. -/
theorem Coded.copyLink (h : Coded L x₀ q S x m) (l : Slot H E) {l₀ : Slot H E} (hl₀ : S l₀) :
    Coded L x₀ q (fun l' => S l' ∨ l' = l) (x.setLink l (x.link l₀))
      (m.setLink l (m.link l₀)) := by
  rw [h.encoded.link l₀ hl₀]
  exact h.setLink l _

theorem Coded.setLast (h : Coded L x₀ q S x m) (v : Slot H E) :
    Coded L x₀ q S (x.setLast q (x.xor q (L.slot v))) (m.setBack (.first q) (some v)) where
  encoded := by
    refine ⟨h.encoded.link, v, ?_, Function.update_self _ _ _⟩
    rw [Mem.setBack_back, if_pos rfl]
  off := h.off
  others q' hq := ⟨(Function.update_of_ne hq _ _).trans (h.others q' hq).1, (h.others q' hq).2⟩

omit [DecidableEq H] [DecidableEq E] in
/-- The word for NULL is recognised. -/
theorem Encoded.eq_null (hL : L.Fits u) (h : Encoded L q S x m) {l : Slot H E} (hl : S l) :
    x.link l = x.xor q 0 ↔ m.link l = none := by
  rw [h.link l hl, ← L.ptr_eq_zero]
  constructor
  · exact xorWord_inj (hL.ptr _) fits_zero
  · intro h0
    rw [h0]

theorem Coded.xsetLast (hL : L.Fits u) (h : Coded L x₀ q S x m) {l : Slot H E} (hl : S l)
    (v : Slot H E) :
    Coded L x₀ q S (xsetLast L x q (x.link l) v) (Sys.setLast m q (m.link l) v) := by
  rw [Sys.xsetLast]
  cases hx : m.link l with
  | none =>
      rw [if_pos ((h.encoded.eq_null hL hl).mpr hx)]
      exact h.setLast v
  | some e =>
      have hne : x.link l ≠ x.xor q 0 := fun h0 => by
        rw [(h.encoded.eq_null hL hl).mp h0] at hx
        cases hx
      rw [if_neg hne]
      exact h

omit [DecidableEq H] [DecidableEq E] in
/-- A word is decoded. -/
theorem Encoded.decode (hL : L.Fits u) (h : Encoded L q S x m) {l : Slot H E} (hl : S l) :
    x.xor q (x.link l) = L.ptr (m.link l) := by
  rw [h.link l hl]
  exact (xorWord_xorWord _ _).trans (hL.ptr _)

omit [DecidableEq H] [DecidableEq E] in
theorem Encoded.decodeLast (hL : L.Fits u) (h : Encoded L q S x m) {v : Slot H E}
    (hv : m.back (.first q) = some v) : L.slotAt (x.xor q (x.last q)) = some v := by
  obtain ⟨v', hv', hlast⟩ := h.last
  obtain rfl : v' = v := Option.some.inj (hv'.symm.trans hv)
  have hfit : x.xor q (x.xor q (L.slot v')) = L.slot v' :=
    (xorWord_xorWord _ _).trans (hL.slot v')
  rw [hlast, hfit, L.slotAt_slot]

omit [DecidableEq H] [DecidableEq E] in
theorem Encoded.elemAt (hL : L.Fits u) (h : Encoded L q S x m) {l : Slot H E} (hl : S l) {e : E}
    (he : m.link l = some e) : L.elemAt (x.xor q (x.link l)) = some e := by
  rw [h.decode hL hl, he]
  exact L.elemAt_elem e

end Steps

/-! ## Every operation -/

/-- The head that a macro works on. -/
def XsimpleqOp.head : XsimpleqOp H E u → H
  | .init head _ | .insertHead head _ | .insertTail head _ | .insertAfter head _ _
  | .removeHead head | .removeAfter head _ => head

section Ops

variable [DecidableEq H] [DecidableEq E] {L : Layout H E p} {x : XorMem H E p u} {m t : Mem H E}
  {A : Contents H E} {head : H} {es : List E} {elm : E}

theorem xsimpleqInit_coded (L : Layout H E p) (x : XorMem H E p u) (m : Mem H E) (head : H)
    (cookie : BitVec u) : Coded L x head (fun l => l = .first head)
      (xsimpleqInit L x head cookie) (simpleqInit m head) where
  encoded := by
    refine ⟨fun l hl => ?_, .first head, ?_, ?_⟩
    · subst hl
      have hnull : (simpleqInit m head).link (.first head) = none := by simp [simpleqInit]
      rw [hnull]
      exact Function.update_self _ _ _
    · simp [simpleqInit]
    · exact Function.update_self _ _ _
  off l hl := Function.update_of_ne hl _ _
  others q' hq := ⟨Function.update_of_ne hq _ _, Function.update_of_ne hq _ _⟩

omit [DecidableEq H] [DecidableEq E] in
/-- Before a macro. -/
theorem Encoded.coded (h : Encoded L head (Own head es) x m) :
    Coded L x head (Own head es) x m := ⟨h, fun _ _ => rfl, fun _ _ => ⟨rfl, rfl⟩⟩

omit [DecidableEq H] [DecidableEq E] in
/-- A word written a second time. -/
theorem Coded.again {x₀ : XorMem H E p u} {S : Slot H E → Prop} {l : Slot H E} (hl : S l)
    (h : Coded L x₀ head (fun l' => S l' ∨ l' = l) x m) : Coded L x₀ head S x m where
  encoded := ⟨fun l' hl' => h.encoded.link l' (.inl hl'), h.encoded.last⟩
  off l' hl' := h.off l' fun h' => h'.elim hl' fun heq => hl' (heq ▸ hl)
  others := h.others

theorem xsimpleqInsertHead_coded (hL : L.Fits u) (h : Encoded L head (Own head es) x m)
    (elm : E) : Coded L x head (fun l => Own head es l ∨ l = .next elm)
      (xsimpleqInsertHead L x head elm) (simpleqInsertHead m head elm) := by
  have hfirst : Own head es (.first head) := .inl rfl
  have h₁ := h.coded.copyLink (.next elm) hfirst
  have h₂ := h₁.xsetLast hL (.inr rfl) (.next elm)
  exact (h₂.setLink (.first head) (some elm)).again (.inl hfirst)

theorem xsimpleqInsertAfter_coded (hL : L.Fits u) (h : Encoded L head (Own head es) x m)
    {listelm : E} (hm : listelm ∈ es) (elm : E) :
    Coded L x head (fun l => Own head es l ∨ l = .next elm)
      (xsimpleqInsertAfter L x head listelm elm) (simpleqInsertAfter m head listelm elm) := by
  have hown : Own head es (.next listelm) := .inr ⟨listelm, hm, rfl⟩
  have h₁ := h.coded.copyLink (.next elm) hown
  have h₂ := h₁.xsetLast hL (.inr rfl) (.next elm)
  exact (h₂.setLink (.next listelm) (some elm)).again (.inl hown)

theorem xsimpleqInsertTail_coded (hL : L.Fits u) (h : Encoded L head (Own head es) x m)
    (elm : E) {v : Slot H E} (hv : m.back (.first head) = some v) (hown : Own head es v) :
    ∃ x' m', xsimpleqInsertTail L x head elm = some x' ∧ simpleqInsertTail m head elm = some m' ∧
      Coded L x head (fun l => Own head es l ∨ l = .next elm) x' m' := by
  have h₁ := h.coded.setLink (.next elm) none
  have hat := h₁.encoded.decodeLast hL hv
  have h₂ := (h₁.setLink v (some elm)).again (.inl hown)
  refine ⟨_, _, ?_, ?_, h₂.setLast (.next elm)⟩
  · exact congrArg (Option.bind · _) hat
  · simp only [simpleqInsertTail, Mem.setLink_back, hv, Option.bind_eq_bind, Option.bind_some,
      Option.pure_def]

theorem xsimpleqRemoveHead_coded (hL : L.Fits u) (h : Encoded L head (Own head es) x m) {e : E}
    (hfirst : m.link (.first head) = some e) (he : e ∈ es) :
    ∃ x' m', xsimpleqRemoveHead L x head = some x' ∧ simpleqRemoveHead m head = some m' ∧
      Coded L x head (Own head es) x' m' := by
  have hown : Own head es (.first head) := .inl rfl
  have hat := h.elemAt hL hown hfirst
  have h₁ := (h.coded.copyLink (.first head) (.inr ⟨e, he, rfl⟩)).again hown
  refine ⟨_, _, ?_, ?_, h₁.xsetLast hL hown (.first head)⟩
  · exact congrArg (Option.bind · _) hat
  · exact congrArg (Option.bind · _) hfirst

theorem xsimpleqRemoveAfter_coded (hL : L.Fits u) (h : Encoded L head (Own head es) x m)
    {elm e : E} (helm : elm ∈ es) (hnext : m.link (.next elm) = some e) (he : e ∈ es) :
    ∃ x' m', xsimpleqRemoveAfter L x head elm = some x' ∧
      simpleqRemoveAfter m head elm = some m' ∧ Coded L x head (Own head es) x' m' := by
  have hown : Own head es (.next elm) := .inr ⟨elm, helm, rfl⟩
  have hat := h.elemAt hL hown hnext
  have h₁ := (h.coded.copyLink (.next elm) (.inr ⟨e, he, rfl⟩)).again hown
  refine ⟨_, _, ?_, ?_, h₁.xsetLast hL hown (.next elm)⟩
  · exact congrArg (Option.bind · _) hat
  · exact congrArg (Option.bind · _) hnext

end Ops

/-! ## Beside the other queues -/

/-- What an operation has done to the words while it took `m` to `m'`. -/
structure Done (L : Layout H E p) (x : XorMem H E p u) (A : Contents H E)
    (op : XsimpleqOp H E u) (es' : List E) (x' : XorMem H E p u) (m' : Mem H E) : Prop where
  encoded : Encoded L op.head (Own op.head es') x' m'
  others : ∀ q es, A q = some es → q ≠ op.head →
    (∀ l, Own q es l → x'.link l = x.link l) ∧ x'.last q = x.last q ∧ x'.cookie q = x.cookie q

section Collection

variable {L : Layout H E p} {x x' : XorMem H E p u} {m m' t : Mem H E} {A : Contents H E}
  {op : XsimpleqOp H E u} {q q' : H} {es es' : List E} {elm : E} {S : Slot H E → Prop}
  {l : Slot H E}

theorem Coded.done (h : Coded L x op.head S x' m') (hin : ∀ l, Own op.head es' l → S l)
    (hout : ∀ q es, A q = some es → q ≠ op.head → ∀ l, Own q es l → ¬ S l) :
    Done L x A op es' x' m' where
  encoded := ⟨fun l hl => h.encoded.link l (hin l hl), h.encoded.last⟩
  others q es hq hne := ⟨fun l hl => h.off l (hout q es hq hne l hl), h.others q hne⟩

/-- No word is of two queues. -/
theorem Good.own_apart (hg : Good t A) (hq : A q = some es) (hq' : A q' = some es') (hne : q ≠ q')
    (h : Own q es l) : ¬ Own q' es' l := by
  rintro (rfl | ⟨e', he', rfl⟩)
  · rcases h with h | ⟨e, -, h⟩
    · exact hne (Slot.first.inj h).symm
    · cases h
  · rcases h with h | ⟨e, he, h⟩
    · cases h
    · obtain rfl := Slot.next.inj h
      exact hg.apart _ _ _ _ hq hq' hne _ he he'

theorem Own.mono (h : Own q es' l) (hsub : ∀ e ∈ es', e ∈ es) : Own q es l :=
  h.imp_right fun ⟨e, he, hl⟩ => ⟨e, hsub e he, hl⟩

/-- An operation that puts in `elm`. -/
theorem Coded.inserted (hg : Good t A) (hq : A op.head = some es) (he : ¬ Member A elm)
    (hsub : ∀ e ∈ es', e ∈ es ∨ e = elm)
    (h : Coded L x op.head (fun l => Own op.head es l ∨ l = .next elm) x' m') :
    Done L x A op es' x' m' := by
  refine h.done (fun l hl => ?_) fun q es₁ hq₁ hne l hl => ?_
  · rcases hl with hl | ⟨e, hmem, hl⟩
    · exact .inl (.inl hl)
    · rcases hsub e hmem with hmem | rfl
      · exact .inl (.inr ⟨e, hmem, hl⟩)
      · exact .inr hl
  · rintro (hown | rfl)
    · exact hg.own_apart hq₁ hq hne hl hown
    · rcases hl with hl | ⟨e, hmem, hl⟩
      · cases hl
      · obtain rfl := Slot.next.inj hl
        exact he ⟨q, es₁, hq₁, hmem⟩

/-- An operation that takes out an element. -/
theorem Coded.removed (hg : Good t A) (hq : A op.head = some es) (hsub : ∀ e ∈ es', e ∈ es)
    (h : Coded L x op.head (Own op.head es) x' m') : Done L x A op es' x' m' :=
  h.done (fun _ hl => hl.mono hsub) fun _ _ hq₁ hne _ hl => hg.own_apart hq₁ hq hne hl

variable [DecidableEq H] [DecidableEq E]

omit [DecidableEq H] in
theorem mem_putAfter {l e y : E} {xs : List E} (h : y ∈ putAfter l e xs) : y ∈ xs ∨ y = e := by
  obtain ⟨x, hx, hy⟩ := List.mem_flatMap.mp h
  split at hy
  · rcases List.mem_cons.mp hy with rfl | hy
    · exact .inl hx
    · exact .inr (List.mem_singleton.mp hy)
  · exact .inl (List.mem_singleton.mp hy ▸ hx)

omit [DecidableEq H] [DecidableEq E] in
theorem XsimpleqOp.touches_head (op : XsimpleqOp H E u) (h : op.plain.Touches q) :
    q = op.head := by
  cases op <;> exact h

theorem XsimpleqOp.apply_of_ne (op : XsimpleqOp H E u) (hq : q ≠ op.head) :
    op.plain.apply A q = A q := by
  cases op <;> exact Function.update_of_ne hq _ _

omit [DecidableEq E] in
theorem at_self {f : List E → List E} (hq : A q = some es) : A.at q f q = some (f es) := by
  rw [Contents.at_eq hq, Function.update_self]

/-- **Every macro does to the words what its plain counterpart does to the pointers.** -/
theorem XsimpleqOp.coded (hL : L.Fits u) (hg : Good t A) (ha : Agrees InHead m t)
    (hx : ∀ q es, A q = some es → Encoded L q (Own q es) x m) (op : XsimpleqOp H E u)
    (hl : op.plain.Legal A) : ∃ x' m' es', op.run L x = some x' ∧ op.plain.run m = some m' ∧
      op.plain.apply A op.head = some es' ∧ Done L x A op es' x' m' := by
  have hlast : ∀ q es, A q = some es → m.back (.first q) = some (.of q es.getLast?) :=
    fun q es hq => (ha.back _ ⟨q, rfl⟩).trans (hg.linked q es hq).shows.last
  cases op with
  | init head cookie =>
      refine ⟨_, _, [], rfl, rfl, Function.update_self _ _ _,
        (xsimpleqInit_coded L x m head cookie).done (fun l hl => ?_) fun q es hq hne l hl => ?_⟩
      · exact hl.resolve_right fun ⟨e, he, _⟩ => List.not_mem_nil he
      · rintro rfl
        rcases hl with hl | ⟨e, -, hl⟩
        · exact hne (Slot.first.inj hl).symm
        · cases hl
  | insertHead head elm =>
      obtain ⟨⟨es, hq⟩, he⟩ := hl
      refine ⟨_, _, elm :: es, rfl, rfl, at_self hq, Coded.inserted hg hq he (fun e hm => ?_)
        (xsimpleqInsertHead_coded hL (hx head es hq) elm)⟩
      exact (List.mem_cons.mp hm).symm
  | insertTail head elm =>
      obtain ⟨⟨es, hq⟩, he⟩ := hl
      obtain ⟨x', m', hrun, hplain, hc⟩ := xsimpleqInsertTail_coded hL (hx head es hq) elm
        (hlast head es hq) (own_last fun _ he => he)
      refine ⟨x', m', es ++ [elm], hrun, hplain, at_self hq, Coded.inserted hg hq he
        (fun e hm => ?_) hc⟩
      exact (List.mem_append.mp hm).imp_right List.mem_singleton.mp
  | insertAfter head listelm elm =>
      obtain ⟨⟨es, hq, hm⟩, he⟩ := hl
      exact ⟨_, _, putAfter listelm elm es, rfl, rfl, at_self hq, Coded.inserted hg hq he
        (fun e => mem_putAfter) (xsimpleqInsertAfter_coded hL (hx head es hq) hm elm)⟩
  | removeHead head =>
      obtain ⟨e, es, hq⟩ := hl
      have hfirst : m.link (.first head) = some e :=
        (ha.link_eq _).trans (hg.linked _ _ hq [] (e :: es) rfl).1
      obtain ⟨x', m', hrun, hplain, hc⟩ := xsimpleqRemoveHead_coded hL (hx head _ hq) hfirst
        List.mem_cons_self
      exact ⟨x', m', es, hrun, hplain, at_self hq, Coded.removed hg hq
        (fun _ => List.mem_cons_of_mem _) hc⟩
  | removeAfter head elm =>
      obtain ⟨xs, y, ys, hq⟩ := hl
      have hnext : m.link (.next elm) = some y :=
        (ha.link_eq _).trans (hg.linked _ _ hq).tailqNext_eq
      obtain ⟨x', m', hrun, hplain, hc⟩ := xsimpleqRemoveAfter_coded hL (hx head _ hq)
        (by simp) hnext (by simp)
      have hnot : elm ∉ xs := fun hm =>
        (List.nodup_append.mp (hg.nodup _ _ hq)).2.2 elm hm elm List.mem_cons_self rfl
      refine ⟨x', m', xs ++ elm :: ys, hrun, hplain, ?_, Coded.removed hg hq (fun e hm => ?_) hc⟩
      · rw [← eraseAfter_split hnot]
        exact at_self hq
      · simp only [List.mem_append, List.mem_cons] at hm ⊢
        tauto

end Collection

end LibrePortable.Sys
