import Mathlib.Data.List.Basic
import Mathlib.Data.List.Induction
import LibrePortable.Sys.TailQueue

/-!
# Tail queues represent their sequences

A queue with its head is a ring. Cut its sequence anywhere: the pointer behind the
left part leads to the right part, and the word that records where the right part
is reached from holds that pointer's address. At the ends the head stands in for
the missing element on both sides, so one statement, `Linked`, covers `tqh_first`,
`tqh_last`, `tqe_next` and `tqe_prev`.

Insertion at a cut and removal at a cut are proved once each; the macros differ in
how they find the cut.
-/

namespace LibrePortable.Sys

variable {H E : Type}

/-- The address of the pointer in an element, or in the head where there is none. -/
def Slot.of (q : H) : Option E → Slot H E
  | none => .first q
  | some e => .next e

@[simp] theorem Slot.of_none (q : H) : (Slot.of q none : Slot H E) = .first q := rfl

@[simp] theorem Slot.of_some (q : H) (e : E) : Slot.of q (some e) = .next e := rfl

@[simp] theorem Slot.of_inj {q : H} {r r' : Option E} : Slot.of q r = .of q r' ↔ r = r' := by
  cases r <;> cases r' <;> simp [Slot.of]

@[simp] theorem Slot.of_eq_next {q : H} {r : Option E} {e : E} :
    Slot.of q r = .next e ↔ r = some e := by
  cases r <;> simp [Slot.of]

@[simp] theorem Slot.next_eq_of {q : H} {r : Option E} {e : E} :
    Slot.next e = Slot.of q r ↔ r = some e := by
  rw [eq_comm, Slot.of_eq_next]

@[simp] theorem Slot.of_eq_first {q q' : H} {r : Option E} :
    Slot.of q r = .first q' ↔ q = q' ∧ r = none := by
  cases r <;> simp [Slot.of]

/-- The words of the head of `q` and of the entries of `es`. -/
def Own (q : H) (es : List E) (l : Slot H E) : Prop :=
  l = .first q ∨ ∃ e ∈ es, l = .next e

/-- **The links of one queue**, cut by cut. -/
def Linked (m : Mem H E) (q : H) (es : List E) : Prop :=
  ∀ xs ys, es = xs ++ ys →
    m.link (.of q xs.getLast?) = ys.head? ∧ m.back (.of q ys.head?) = some (.of q xs.getLast?)

/-! ## Cuts -/

theorem last_ne {xs ys : List E} (h : ys ≠ []) (hd : ∀ e ∈ xs, e ∉ ys) :
    ys.getLast? ≠ xs.getLast? := by
  intro he
  obtain ⟨e, hy⟩ := Option.isSome_iff_exists.mp (List.getLast?_isSome.mpr h)
  rw [hy] at he
  exact hd e (List.mem_of_getLast? he.symm) (List.mem_of_getLast? hy)

theorem head_ne {xs ys : List E} (h : xs ≠ []) (hd : ∀ e ∈ xs, e ∉ ys) :
    xs.head? ≠ ys.head? := by
  intro he
  obtain ⟨e, hx⟩ := Option.isSome_iff_exists.mp (List.isSome_head?.mpr h)
  rw [hx] at he
  exact hd e (List.mem_of_head? hx) (List.mem_of_head? he.symm)

theorem disjoint_of_nodup {xs ys : List E} (h : (xs ++ ys).Nodup) : ∀ e ∈ xs, e ∉ ys :=
  fun e hx hy => (List.nodup_append.mp h).2.2 e hx e hy rfl

namespace Linked

variable {m m' : Mem H E} {q : H} {es xs ys : List E}

theorem link_eq (h : Linked m q (xs ++ ys)) : m.link (.of q xs.getLast?) = ys.head? :=
  (h xs ys rfl).1

theorem back_eq (h : Linked m q (xs ++ ys)) :
    m.back (.of q ys.head?) = some (.of q xs.getLast?) :=
  (h xs ys rfl).2

/-- A queue lives in its own words. -/
theorem congr (h : Linked m q es)
    (hm : ∀ l, Own q es l → m'.link l = m.link l ∧ m'.back l = m.back l) : Linked m' q es := by
  intro xs ys heq
  subst heq
  have hx : Own q (xs ++ ys) (.of q xs.getLast?) := by
    cases hl : xs.getLast? with
    | none => exact Or.inl rfl
    | some e => exact Or.inr ⟨e, List.mem_append_left _ (List.mem_of_getLast? hl), rfl⟩
  have hy : Own q (xs ++ ys) (.of q ys.head?) := by
    cases hl : ys.head? with
    | none => exact Or.inl rfl
    | some e => exact Or.inr ⟨e, List.mem_append_right _ (List.mem_of_head? hl), rfl⟩
  rw [(hm _ hx).1, (hm _ hy).2]
  exact h xs ys rfl

end Linked

/-! ## Changes at a cut -/

section Changes

variable [DecidableEq H] [DecidableEq E]

/-- `e` was linked in between `xs` and `ys`: its own two words, the pointer on its
left and the word on its right are written. -/
structure InsertedAt (m m' : Mem H E) (q : H) (xs ys : List E) (e : E) : Prop where
  link : ∀ l, m'.link l = if l = .of q xs.getLast? then some e
    else if l = .next e then ys.head? else m.link l
  back : ∀ l, m'.back l = if l = .of q ys.head? then some (.next e)
    else if l = .next e then some (.of q xs.getLast?) else m.back l

/-- The end of `xs` and the front of `ys` were made to point at each other. -/
structure JoinedAt (m m' : Mem H E) (q : H) (xs ys : List E) : Prop where
  link : ∀ l, m'.link l = if l = .of q xs.getLast? then ys.head? else m.link l
  back : ∀ l, m'.back l = if l = .of q ys.head? then some (.of q xs.getLast?) else m.back l

end Changes

namespace Linked

variable [DecidableEq H] [DecidableEq E] {m m' : Mem H E} {q : H} {es xs ys : List E}

/-- A fresh element is linked in at a cut. -/
theorem insert {e : E} (h : Linked m q (xs ++ ys)) (hd : (xs ++ ys).Nodup) (he : e ∉ xs ++ ys)
    (hi : InsertedAt m m' q xs ys e) : Linked m' q (xs ++ e :: ys) := by
  obtain ⟨hl, hb⟩ := hi
  intro xs' ys' hc
  have hdis := disjoint_of_nodup hd
  have hlast : ∀ zs : List E, (∀ x ∈ zs, x ∈ xs ++ ys) → zs.getLast? ≠ some e :=
    fun zs hz hx => he (hz e (List.mem_of_getLast? hx))
  have hhead : ∀ zs : List E, (∀ x ∈ zs, x ∈ xs ++ ys) → zs.head? ≠ some e :=
    fun zs hz hx => he (hz e (List.mem_of_head? hx))
  rcases List.append_eq_append_iff.mp hc with ⟨as, rfl, hys⟩ | ⟨bs, rfl, rfl⟩
  · cases as with
    | nil =>
        obtain rfl : ys' = e :: ys := by simpa using hys.symm
        have := hhead ys (by simp +contextual)
        simp [hl, hb, this]
    | cons a as =>
        obtain ⟨rfl, rfl⟩ : e = a ∧ ys = as ++ ys' := by simpa using hys
        by_cases has : as = []
        · subst has
          have := hlast xs (by simp +contextual)
          simp [hl, hb, this]
        · -- a cut to the right of the new element was there before
          have hold := h (xs ++ as) ys' (by simp)
          have hx := last_ne has (fun x hx hm => hdis x hx (by simp [hm]))
          have hy : ys'.head? ≠ (as ++ ys').head? := by
            rw [List.head?_append_of_ne_nil _ has]
            exact Ne.symm (head_ne has (disjoint_of_nodup (List.nodup_append.mp hd).2.1))
          have hx' := hlast as (by simp +contextual)
          have hy' := hhead ys' (by simp +contextual)
          have hla : (xs ++ e :: as).getLast? = as.getLast? := by
            rw [show xs ++ e :: as = (xs ++ [e]) ++ as by simp,
              List.getLast?_append_of_ne_nil _ has]
          rw [List.getLast?_append_of_ne_nil _ has] at hold
          rw [hla, hl, hb, if_neg (mt Slot.of_inj.mp hx), if_neg (mt Slot.of_eq_next.mp hx'),
            if_neg (mt Slot.of_inj.mp hy), if_neg (mt Slot.of_eq_next.mp hy')]
          exact hold
  · cases bs with
    | nil =>
        have := hhead ys (by simp +contextual)
        simp [hl, hb, this]
    | cons b bs =>
        -- a cut to the left of the new element was there before
        have hold := h xs' (b :: bs ++ ys) (by simp)
        have hne : b :: bs ≠ [] := by simp
        have hx : xs'.getLast? ≠ (xs' ++ b :: bs).getLast? := by
          rw [List.getLast?_append_of_ne_nil _ hne]
          exact Ne.symm (last_ne hne (disjoint_of_nodup (List.nodup_append.mp hd).1))
        have hy : (b :: bs).head? ≠ ys.head? :=
          head_ne hne (fun x hx => hdis x (List.mem_append_right _ hx))
        have hx' := hlast xs' (by simp +contextual)
        have hy' := hhead (b :: bs) (by simp +contextual)
        have hc : (b :: bs ++ e :: ys).head? = (b :: bs).head? := rfl
        rw [hc, hl, hb, if_neg (mt Slot.of_inj.mp hx), if_neg (mt Slot.of_eq_next.mp hx'),
          if_neg (mt Slot.of_inj.mp hy), if_neg (mt Slot.of_eq_next.mp hy')]
        exact hold

/-- An element is taken out between two cuts. -/
theorem remove {e : E} (h : Linked m q (xs ++ e :: ys)) (hd : (xs ++ e :: ys).Nodup)
    (hj : JoinedAt m m' q xs ys) : Linked m' q (xs ++ ys) := by
  obtain ⟨hl, hb⟩ := hj
  intro xs' ys' hc
  have hdis := disjoint_of_nodup hd
  rcases List.append_eq_append_iff.mp hc with ⟨as, rfl, rfl⟩ | ⟨bs, rfl, rfl⟩
  · by_cases has : as = []
    · subst has
      simp [hl, hb]
    · have hold := h (xs ++ e :: as) ys' (by simp)
      have hx := last_ne has (fun x hx hm => hdis x hx (by simp [hm]))
      have hy : ys'.head? ≠ (as ++ ys').head? := by
        rw [List.head?_append_of_ne_nil _ has]
        exact Ne.symm (head_ne has
          (disjoint_of_nodup (List.nodup_cons.mp (List.nodup_append.mp hd).2.1).2))
      have hla : (xs ++ e :: as).getLast? = as.getLast? := by
        rw [show xs ++ e :: as = (xs ++ [e]) ++ as by simp, List.getLast?_append_of_ne_nil _ has]
      rw [hla] at hold
      rw [List.getLast?_append_of_ne_nil _ has, hl, hb, if_neg (mt Slot.of_inj.mp hx),
        if_neg (mt Slot.of_inj.mp hy)]
      exact hold
  · by_cases hbs : bs = []
    · subst hbs
      simp [hl, hb]
    · have hold := h xs' (bs ++ e :: ys) (by simp)
      have hx : xs'.getLast? ≠ (xs' ++ bs).getLast? := by
        rw [List.getLast?_append_of_ne_nil _ hbs]
        exact Ne.symm (last_ne hbs (disjoint_of_nodup (List.nodup_append.mp hd).1))
      have hy : bs.head? ≠ ys.head? := head_ne hbs (fun x hx hm =>
        hdis x (List.mem_append_right _ hx) (List.mem_cons_of_mem _ hm))
      rw [List.head?_append_of_ne_nil _ hbs] at hold
      rw [List.head?_append_of_ne_nil _ hbs, hl, hb, if_neg (mt Slot.of_inj.mp hx),
        if_neg (mt Slot.of_inj.mp hy)]
      exact hold

/-- A non-empty queue is taken over by the end of another. -/
theorem concat {q₂ : H} (h : Linked m q xs)
    (h₂ : Linked m q₂ ys) (hq : q ≠ q₂) (hd : (xs ++ ys).Nodup) (hne : ys ≠ [])
    (hl : ∀ l, l ≠ .first q₂ →
      m'.link l = if l = .of q xs.getLast? then ys.head? else m.link l)
    (hb : ∀ l, l ≠ .first q₂ → m'.back l = if l = .first q then m.back (.first q₂)
      else if l = .of q ys.head? then some (.of q xs.getLast?) else m.back l) :
    Linked m' q (xs ++ ys) := by
  intro xs' ys' hc
  have hof : ∀ r : Option E, Slot.of q r ≠ .first q₂ := by simp [hq]
  rw [hl _ (hof _), hb _ (hof _)]
  have hdis := disjoint_of_nodup hd
  rcases List.append_eq_append_iff.mp hc with ⟨as, rfl, rfl⟩ | ⟨bs, rfl, rfl⟩
  · by_cases has : as = []
    · subst has
      obtain ⟨y, hy⟩ := Option.isSome_iff_exists.mp (List.isSome_head?.mpr hne)
      simp only [List.nil_append] at hy
      simp [hy]
    · have hold := h₂ as ys' rfl
      have hx := last_ne has (fun x hx hm => hdis x hx (by simp [hm]))
      have hy : ys'.head? ≠ (as ++ ys').head? := by
        rw [List.head?_append_of_ne_nil _ has]
        exact Ne.symm (head_ne has (disjoint_of_nodup (List.nodup_append.mp hd).2.1))
      obtain ⟨a, ha⟩ := Option.isSome_iff_exists.mp (List.getLast?_isSome.mpr has)
      rw [List.getLast?_append_of_ne_nil _ has, if_neg (mt Slot.of_inj.mp hx),
        if_neg (mt Slot.of_inj.mp hy), ha]
      rw [ha] at hold
      -- the links of the second queue, apart from those of its head
      cases hr : ys'.head? with
      | none => simpa [hr] using hold
      | some y => simpa [hr] using hold
  · by_cases hbs : bs = []
    · subst hbs
      obtain ⟨y, hy⟩ := Option.isSome_iff_exists.mp (List.isSome_head?.mpr hne)
      simp [hy]
    · have hold := h xs' bs rfl
      have hx : xs'.getLast? ≠ (xs' ++ bs).getLast? := by
        rw [List.getLast?_append_of_ne_nil _ hbs]
        exact Ne.symm (last_ne hbs (disjoint_of_nodup (List.nodup_append.mp hd).1))
      have hy : bs.head? ≠ ys.head? :=
        head_ne hbs (fun x hx => hdis x (List.mem_append_right _ hx))
      obtain ⟨b, hb⟩ := Option.isSome_iff_exists.mp (List.isSome_head?.mpr hbs)
      rw [List.head?_append_of_ne_nil _ hbs, if_neg (mt Slot.of_inj.mp hx),
        if_neg (mt Slot.of_inj.mp hy), if_neg (by simp [hb])]
      exact hold

end Linked

/-! ## Walking -/

namespace Linked

variable {m m' : Mem H E} {q : H} {es xs ys : List E}

/-- The word behind a queue's pointer leads to the pointer before it. -/
theorem castLast_eq (h : Linked m q (xs ++ ys)) :
    castLast m (.of q xs.getLast?) = some xs.getLast? := by
  rcases List.eq_nil_or_concat xs with rfl | ⟨zs, x, rfl⟩
  · have hc := h ([] ++ ys) [] (by simp)
    simp only [List.head?_nil, Slot.of_none, List.nil_append] at hc
    simp [castLast, hc]
  · have hc := h zs (x :: ys) (by simp)
    simp only [List.head?_cons, Slot.of_some] at hc
    simp [castLast, hc]

theorem tailqLast_eq (h : Linked m q es) : tailqLast m q = some es.getLast? := by
  have h' : Linked m q (es ++ []) := by simpa using h
  have hb := h'.back_eq
  simp only [List.head?_nil, Slot.of_none] at hb
  simp [tailqLast, hb, h'.castLast_eq]

theorem tailqPrev_eq {e : E} (h : Linked m q (xs ++ e :: ys)) :
    tailqPrev m e = some xs.getLast? := by
  have hb := h.back_eq
  simp only [List.head?_cons, Slot.of_some] at hb
  simp [tailqPrev, hb, h.castLast_eq]

theorem tailqNext_eq {e : E} (h : Linked m q (xs ++ e :: ys)) : tailqNext m e = ys.head? := by
  have h' : Linked m q ((xs ++ [e]) ++ ys) := by simpa using h
  have hl := h'.link_eq
  simpa [tailqNext] using hl

theorem foreach_eq (h : Linked m q (xs ++ ys)) {fuel : Nat} (hf : ys.length < fuel) :
    tailqForeach m fuel ys.head? = some ys := by
  induction ys generalizing xs fuel with
  | nil =>
      obtain ⟨n, rfl⟩ := Nat.exists_eq_add_one.mpr hf
      rfl
  | cons y ys ih =>
      obtain ⟨n, rfl⟩ := Nat.exists_eq_add_one.mpr (Nat.zero_lt_of_lt hf)
      have h' : Linked m q ((xs ++ [y]) ++ ys) := by simpa using h
      have hrest := ih h' (by simpa using hf)
      simp [tailqForeach, h.tailqNext_eq, hrest]

theorem foreachReverse_eq (h : Linked m q (xs ++ ys)) {fuel : Nat} (hf : xs.length < fuel) :
    tailqForeachReverse m fuel xs.getLast? = some xs.reverse := by
  induction xs using List.reverseRecOn generalizing ys fuel with
  | nil =>
      obtain ⟨n, rfl⟩ := Nat.exists_eq_add_one.mpr hf
      rfl
  | append_singleton xs x ih =>
      obtain ⟨n, rfl⟩ := Nat.exists_eq_add_one.mpr (Nat.zero_lt_of_lt hf)
      have h' : Linked m q (xs ++ x :: ys) := by simpa using h
      have hrest := ih h' (by simpa using hf)
      simp [tailqForeachReverse, h'.tailqPrev_eq, hrest]

end Linked

end LibrePortable.Sys
