import LibrePortable.Sys.ListsProof

/-!
# Runs over lists

What all kinds of lists have in common is proved once: where every macro does what one
of the tail queues does, memory represents the sequences in every state of every run.
The three kinds are instances, with the words that they have behind their pointers.

`SLIST_REMOVE` has to search for the element before. A tail queue does not, so the
search is what is left to prove of it.
-/

namespace LibrePortable.Sys

variable {H E : Type} [DecidableEq H] [DecidableEq E]

/-! ## Singly-linked lists -/

section Slists

variable {m t : Mem H E} {A : Contents H E}

omit [DecidableEq H] in
theorem slistBefore_below (m : Mem H E) (elm : E) {k n : Nat} (hkn : k ≤ n) (x : Option E) :
    Lib.Below (slistBefore m elm k x) (slistBefore m elm n x) := by
  refine Lib.below_of_turn (f := fun fuel => slistBefore m elm fuel) (fun _ => rfl)
    (fun k n ih x => ?_) hkn x
  cases x with
  | none => exact .refl _
  | some x => exact .ite (.refl _) (ih _)

omit [DecidableEq H] in
/-- The search ends at the element before. -/
theorem slistBefore_eq {q : H} {as bs ys : List E} {p e : E} {fuel : Nat}
    (hl : Linked t q (as ++ (bs ++ p :: e :: ys))) (ha : m.link = t.link) (he : e ∉ bs)
    (hp : e ≠ p) (hfuel : bs.length < fuel) :
    slistBefore m e fuel (bs ++ p :: e :: ys).head? = some p := by
  induction bs generalizing as fuel with
  | nil =>
      obtain ⟨fuel, rfl⟩ := Nat.exists_eq_add_one.mpr hfuel
      have hnext : t.link (.next p) = some e := hl.tailqNext_eq
      simp [slistBefore, ha, hnext]
  | cons b bs ih =>
      obtain ⟨fuel, rfl⟩ := Nat.exists_eq_add_one.mpr (Nat.zero_lt_of_lt hfuel)
      obtain ⟨hb, hbs⟩ := not_or.mp (mt List.mem_cons.mpr he)
      have hl' : Linked t q ((as ++ [b]) ++ (bs ++ p :: e :: ys)) := by simpa using hl
      have hnext : t.link (.next b) = (bs ++ p :: e :: ys).head? := by
        have hb' : Linked t q (as ++ b :: (bs ++ p :: e :: ys)) := hl
        exact hb'.tailqNext_eq
      have hne : (bs ++ p :: e :: ys).head? ≠ some e := by
        cases bs with
        | nil => simpa using Ne.symm hp
        | cons c bs => simpa using Ne.symm (not_or.mp (mt List.mem_cons.mpr hbs)).1
      have hrest := ih hl' hbs (by simpa using hfuel)
      rw [List.cons_append, List.head?_cons, slistBefore, ha, hnext, if_neg hne]
      exact hrest

omit [DecidableEq H] [DecidableEq E] in
theorem Agrees.of_link (h : m.link = t.link) : Agrees (fun _ => False) m t := ⟨h, nofun⟩

/-- Taking out the element behind a cut. -/
theorem slistRemove_agrees (ha : Agrees (fun _ => False) m t) {t' : Mem H E} {q : H}
    {xs ys : List E} (hj : JoinedAt t t' q xs ys) :
    Agrees (fun _ => False) (m.setLink (.of q xs.getLast?) ys.head?) t' := by
  refine .of_link (funext fun l => ?_)
  rw [Mem.setLink_link, hj.link, ha.link_eq]

/-- The search for an element with `xs` before it ends with any more fuel than that. -/
theorem slistRemove_eq {q : H} {xs ys : List E} {e : E} {fuel : Nat}
    (hl : Linked t q (xs ++ e :: ys)) (ha : m.link = t.link) (he : e ∉ xs)
    (hfuel : xs.length < fuel) :
    slistRemove fuel m q e = some (m.setLink (.of q xs.getLast?) ys.head?) := by
  have hnext : m.link (.next e) = ys.head? := (congrFun ha _).trans hl.tailqNext_eq
  have hfirst : m.link (.first q) = (xs ++ e :: ys).head? :=
    (congrFun ha _).trans (hl [] _ rfl).1
  rcases List.eq_nil_or_concat xs with rfl | ⟨bs, p, rfl⟩
  · have hfirst' : m.link (.first q) = some e := hfirst
    simp [slistRemove, slistRemoveHead, hfirst', hnext]
  · rw [List.concat_eq_append, List.mem_append, List.mem_singleton, not_or] at he
    have hlist : bs.concat p ++ e :: ys = bs ++ p :: e :: ys := by simp
    rw [hlist] at hl hfirst
    have hall : Linked t q ([] ++ (bs ++ p :: e :: ys)) := hl
    have hlt : bs.length < fuel := by
      simp only [List.concat_eq_append, List.length_append, List.length_singleton] at hfuel
      omega
    have hbefore := slistBefore_eq hall ha he.1 he.2 hlt
    have hne : (bs ++ p :: e :: ys).head? ≠ some e := by
      cases bs with
      | nil => simpa using Ne.symm he.2
      | cons c bs => simpa using Ne.symm (not_or.mp (mt List.mem_cons.mpr he.1)).1
    have hp : m.link (.next p) = some e := (congrFun ha _).trans hl.tailqNext_eq
    have hlast : (bs.concat p).getLast? = some p := by simp
    simp only [slistRemove, hfirst, if_neg hne, hbefore, hp, hnext, hlast,
      Option.bind_eq_bind, Option.bind_some, Option.pure_def]
    rfl

/-- **Every macro of the singly-linked lists does what one of the tail queues does.** -/
theorem SlistOp.follows (hg : Good t A) (ha : Agrees (fun _ => False) m t) (op : SlistOp H E)
    (hl : op.Legal A) : ∃ m' o k, (∀ fuel, k < fuel → op.run fuel m = some m') ∧
      Follows (fun _ => False) t A (op.apply A) (op.Touches A) m' o := by
  cases op with
  | init head =>
      refine ⟨_, .init head, 0, fun _ _ => rfl, trivial, rfl, fun _ h => h, fun t' ht => ?_⟩
      rw [← Option.some.inj ht]
      exact (ha.setLink _ _).skip not_false _
  | insertAfter listelm elm =>
      obtain ⟨⟨head, es, hq, hm⟩, he⟩ := hl
      refine ⟨_, .insertAfter head listelm elm, 0, fun _ _ => rfl, ⟨⟨es, hq, hm⟩, he⟩, ?_,
        fun q h => ?_, fun t' ht => ?_⟩
      · exact (hg.all_eq hq hm fun xs hx => putAfter_of_notMem hx).symm
      · obtain rfl : q = head := h
        exact ⟨es, hq, hm⟩
      · rw [← Option.some.inj ht]
        have h₁ := (ha.setLink (.next elm) (t.link (.next listelm))).skipPrevOrLast (fun _ => id)
          head (t.link (.next listelm)) (some (.next elm))
        have h₂ := (h₁.setLink (.next listelm) (some elm)).skip (p := .next elm) not_false
          (some (.next listelm))
        simpa [slistInsertAfter, tailqInsertAfter, tailqNext, ha.link_eq] using h₂
  | insertHead head elm =>
      refine ⟨_, .insertHead head elm, 0, fun _ _ => rfl, hl, rfl, fun _ h => h, fun t' ht => ?_⟩
      rw [← Option.some.inj ht]
      have h₁ := (ha.setLink (.next elm) (t.link (.first head))).skipPrevOrLast (fun _ => id)
        head (t.link (.first head)) (some (.next elm))
      have h₂ := (h₁.setLink (.first head) (some elm)).skip (p := .next elm) not_false
        (some (.first head))
      simpa [slistInsertHead, tailqInsertHead, tailqFirst, ha.link_eq] using h₂
  | removeAfter elm =>
      obtain ⟨head, xs, y, ys, hq⟩ := hl
      obtain ⟨⟨hbehind, hnext⟩, hlegal, happ, hj⟩ := remove_behind hg ha hq
      have hmem : elm ∈ xs ++ elm :: y :: ys := by simp
      refine ⟨_, .remove head y, 0, fun _ _ => ?_, hlegal, ?_, fun q h => ?_, fun t' ht =>
        slistRemove_agrees ha (hj t' ht)⟩
      · simp [SlistOp.run, slistRemoveAfter, hbehind, hnext]
      · rw [happ, SlistOp.apply, hg.all_eq hq hmem fun xs hx => eraseAfter_of_notMem hx]
      · obtain rfl : q = head := h
        exact ⟨_, hq, hmem⟩
  | removeHead head =>
      obtain ⟨e, es, hq⟩ := hl
      obtain ⟨⟨hfirst, hnext⟩, hlegal, happ, hj⟩ := remove_first hg ha hq
      refine ⟨_, .remove head e, 0, fun _ _ => ?_, hlegal, happ, fun _ h => h, fun t' ht =>
        slistRemove_agrees ha (hj t' ht)⟩
      simp [SlistOp.run, slistRemoveHead, hfirst, hnext]
  | remove head elm =>
      obtain ⟨es, hq, hm⟩ := hl
      obtain ⟨xs, ys, rfl, hx, -⟩ := exists_split hm (hg.nodup _ _ hq)
      obtain ⟨hlegal, happ, hj⟩ := remove_joined hg hq
      refine ⟨_, .remove head elm, xs.length, fun fuel hfuel => ?_, hlegal, rfl, fun _ h => h,
        fun t' ht => slistRemove_agrees ha (hj t' ht)⟩
      exact slistRemove_eq (hg.linked _ _ hq) ha.link hx hfuel

theorem SlistOp.run_below (op : SlistOp H E) {k n : Nat} (hkn : k ≤ n) (m : Mem H E) :
    Lib.Below (op.run k m) (op.run n m) := by
  cases op with
  | remove head elm =>
      exact .ite (.refl _) ((slistBefore_below m elm hkn _).bind fun _ => .refl _)
  | _ => exact .refl _

end Slists

/-! ## Runs -/

/-- What walking a list shows, and the addresses behind its pointers in `R`. -/
structure ListShows (R : Slot H E → Prop) (m : Mem H E) (q : H) (es : List E) : Prop where
  /-- The `FOREACH` loop, which all kinds have in common, meets the elements in order. -/
  forward : ∀ fuel, es.length < fuel → tailqForeach m fuel (tailqFirst m q) = some es
  empty : tailqEmpty m q = true ↔ es = []
  /-- The word behind a pointer is the address of the pointer that leads there. -/
  address : ∀ xs ys, es = xs ++ ys → R (.of q ys.head?) →
    m.back (.of q ys.head?) = some (.of q xs.getLast?)

/-- The words of a list are as they were. -/
def KeepsOn (R : Slot H E → Prop) (m m' : Mem H E) (q : H) (es : List E) : Prop :=
  ∀ l, Own q es l → m'.link l = m.link l ∧ (R l → m'.back l = m.back l)

omit [DecidableEq H] [DecidableEq E] in
theorem foreach_congr {m t : Mem H E} (h : m.link = t.link) (fuel : Nat) (x : Option E) :
    tailqForeach m fuel x = tailqForeach t fuel x := by
  induction fuel generalizing x with
  | zero => rfl
  | succ fuel ih =>
      cases x with
      | none => rfl
      | some x => rw [tailqForeach, tailqForeach, tailqNext, tailqNext, h, ih]

omit [DecidableEq H] [DecidableEq E] in
theorem Agrees.shows {R : Slot H E → Prop} {m t : Mem H E} (ha : Agrees R m t) {q : H}
    {es : List E} (h : Linked t q es) : ListShows R m q es where
  forward fuel hfuel := by
    rw [foreach_congr ha.link, tailqFirst, ha.link]
    exact h.shows.forward fuel hfuel
  empty := by
    rw [tailqEmpty, tailqFirst, ha.link]
    exact h.shows.empty
  address xs ys hes hR := by rw [ha.back _ hR, (h xs ys hes).2]

section Kinds

variable {Op' : Type} {legal : Contents H E → Op' → Prop} {runs : Mem H E → Op' → Mem H E → Prop}
  {apply : Contents H E → Op' → Contents H E} {touches : Contents H E → Op' → H → Prop}
  {R : Slot H E → Prop}

/-- Every macro leads to one memory, and does what a macro of the tail queues does. -/
def Simulates (legal : Contents H E → Op' → Prop) (runs : Mem H E → Op' → Mem H E → Prop)
    (apply : Contents H E → Op' → Contents H E) (touches : Contents H E → Op' → H → Prop)
    (R : Slot H E → Prop) : Prop :=
  ∀ m t A op, Good t A → Agrees R m t → legal A op → ∃ m' o, runs m op m' ∧
    (∀ m'', runs m op m'' → m'' = m') ∧ Follows R t A (apply A op) (touches A op) m' o

theorem Simulates.reachable (hsim : Simulates legal runs apply touches R)
    {s : Mem H E × Contents H E} (h : (listsOf legal runs apply).Reachable s) :
    ∃ t, Good t s.2 ∧ Agrees R s.1 t := by
  refine h.invariant (I := fun s => ∃ t, Good t s.2 ∧ Agrees R s.1 t) (fun s hi => ?_)
    fun s op s' _ hI hs => ?_
  · have hn : ∀ q es, s.2 q ≠ some es := by
      intro q es h
      simp [show s.2 q = none from hi q] at h
    exact ⟨s.1, ⟨fun q es h => absurd h (hn q es), fun q es h => absurd h (hn q es),
      fun q _ es _ h => absurd h (hn q es)⟩, rfl, fun _ _ => rfl⟩
  · obtain ⟨t, hg, ha⟩ := hI
    obtain ⟨hl, hr, happ⟩ := hs
    obtain ⟨m', o, -, huniq, hf⟩ := hsim _ t _ _ hg ha hl
    obtain ⟨t', hrun, hg', -⟩ := o.correct hg hf.legal
    rw [hf.apply] at hg'
    rw [happ, huniq _ hr]
    exact ⟨t', hg', hf.agrees t' hrun⟩

/-- **Lists are sequences**, whatever words they have. -/
theorem Simulates.represents (hsim : Simulates legal runs apply touches R)
    {s : Mem H E × Contents H E} (h : (listsOf legal runs apply).Reachable s) :
    (∀ q es, s.2 q = some es → ListShows R s.1 q es) ∧
    ∀ op, legal s.2 op → ∃ m', runs s.1 op m' ∧
      (∀ q es, apply s.2 op q = some es → ListShows R m' q es) ∧
      ∀ q es, s.2 q = some es → ¬ touches s.2 op q →
        apply s.2 op q = some es ∧ KeepsOn R s.1 m' q es := by
  obtain ⟨t, hg, ha⟩ := hsim.reachable h
  refine ⟨fun q es hq => ha.shows (hg.linked q es hq), fun op hl => ?_⟩
  obtain ⟨m', o, hr, -, hf⟩ := hsim _ t _ _ hg ha hl
  obtain ⟨t', hrun, hg', hk⟩ := o.correct hg hf.legal
  have ha' := hf.agrees t' hrun
  rw [hf.apply] at hg' hk
  refine ⟨m', hr, fun q es hq => ha'.shows (hg'.linked q es hq), fun q es hq hto => ?_⟩
  obtain ⟨hsame, hkeep⟩ := hk q es hq fun h => hto (hf.touches q h)
  refine ⟨hsame, fun l ho => ⟨?_, fun hR => ?_⟩⟩
  · rw [ha'.link, ha.link, (hkeep l ho).1]
  · rw [ha'.back l hR, ha.back l hR, (hkeep l ho).2]

end Kinds

section Kinds

variable {Op' : Type} {legal : Contents H E → Op' → Prop} {runs : Mem H E → Op' → Mem H E → Prop}
  {apply : Contents H E → Op' → Contents H E} {m m' : Mem H E} {A : Contents H E}

omit [DecidableEq H] [DecidableEq E] in
theorem listsOf_step (h : (listsOf legal runs apply).Reachable (m, A)) (op : Op')
    (hl : legal A op) (hr : runs m op m') : (listsOf legal runs apply).Reachable
      (m', apply A op) :=
  h.tail (e := op) ⟨hl, hr, rfl⟩

end Kinds

theorem slists_simulate : Simulates (fun (A : Contents H E) (op : SlistOp H E) => op.Legal A)
    (fun m op m' => ∃ fuel, op.run fuel m = some m') (fun A op => op.apply A)
    (fun A op => op.Touches A) fun _ => False := by
  intro m t A op hg ha hl
  obtain ⟨m', o, k, hrun, hf⟩ := op.follows hg ha hl
  refine ⟨m', o, ⟨k + 1, hrun _ (Nat.lt_succ_self k)⟩, fun m'' h => ?_, hf⟩
  obtain ⟨fuel, h⟩ := h
  exact Lib.Below.unique (fun k n hkn => op.run_below hkn m) h (hrun _ (Nat.lt_succ_self k))

theorem lists_simulate : Simulates (fun (A : Contents H E) (op : ListOp H E) => op.Legal A)
    (fun m op m' => op.run m = some m') (fun A op => op.apply A)
    (fun A op => op.Touches A) InEntry := by
  intro m t A op hg ha hl
  obtain ⟨m', o, hrun, hf⟩ := op.follows hg ha hl
  exact ⟨m', o, hrun, fun m'' h => Option.some.inj (h.symm.trans hrun), hf⟩

theorem simpleqs_simulate : Simulates (fun (A : Contents H E) (op : SimpleqOp H E) => op.Legal A)
    (fun m op m' => op.run m = some m') (fun A op => op.apply A)
    (fun _ op => op.Touches) InHead := by
  intro m t A op hg ha hl
  obtain ⟨m', o, hrun, hf⟩ := op.follows hg ha hl
  exact ⟨m', o, hrun, fun m'' h => Option.some.inj (h.symm.trans hrun), hf⟩

/-- **Singly-linked lists are sequences.** After any run of legal operations every head
shows the sequence the operations built; and the next legal operation ends, builds the
next sequence, and leaves the pointers of every list it does not work on as they are. -/
theorem slist_represents {s : Mem H E × Contents H E} (h : (singlyLinkedLists H E).Reachable s) :
    (∀ q es, s.2 q = some es → ListShows (fun _ => False) s.1 q es) ∧
    ∀ op : SlistOp H E, op.Legal s.2 → ∃ m', (∃ fuel, op.run fuel s.1 = some m') ∧
      (∀ q es, op.apply s.2 q = some es → ListShows (fun _ => False) m' q es) ∧
      ∀ q es, s.2 q = some es → ¬ op.Touches s.2 q →
        op.apply s.2 q = some es ∧ KeepsOn (fun _ => False) s.1 m' q es :=
  slists_simulate.represents h

/-- Two elements, of which the second is taken out. -/
theorem slist_represents_remove : ∃ m : Mem Bool Nat,
    ListShows (fun _ => False) m true [7, 9] ∧
    ∃ m', (∃ fuel, slistRemove fuel m true 9 = some m') ∧
      ListShows (fun _ => False) m' true [7] := by
  have h₀ : (singlyLinkedLists Bool Nat).Reachable
      ((⟨fun _ => none, fun _ => none⟩ : Mem Bool Nat), fun _ => none) := .init fun _ => rfl
  have h₁ := listsOf_step h₀ (.init true) trivial ⟨0, rfl⟩
  have h₂ := listsOf_step h₁ (.insertHead true 7)
    ⟨⟨[], rfl⟩, notMember_of_getD (by decide)⟩ ⟨0, rfl⟩
  have h₃ := listsOf_step h₂ (.insertAfter 7 9)
    ⟨⟨true, [7], rfl, by decide⟩, notMember_of_getD (by decide)⟩ ⟨0, rfl⟩
  obtain ⟨hs, hop⟩ := slist_represents h₃
  obtain ⟨m', hr, hs', -⟩ := hop (.remove true 9) ⟨[7, 9], rfl, by decide⟩
  exact ⟨_, hs true [7, 9] rfl, m', hr, hs' true [7] rfl⟩

/-- **Lists are sequences**, and in every state `le_prev` is the address of the pointer
that leads to the element, in the head or in another element. -/
theorem list_represents {s : Mem H E × Contents H E} (h : (lists H E).Reachable s) :
    (∀ q es, s.2 q = some es → ListShows InEntry s.1 q es) ∧
    ∀ op : ListOp H E, op.Legal s.2 → ∃ m', op.run s.1 = some m' ∧
      (∀ q es, op.apply s.2 q = some es → ListShows InEntry m' q es) ∧
      ∀ q es, s.2 q = some es → ¬ op.Touches s.2 q →
        op.apply s.2 q = some es ∧ KeepsOn InEntry s.1 m' q es :=
  lists_simulate.represents h

/-- Two elements, of which the first is taken out without its head. -/
theorem list_represents_remove : ∃ m : Mem Bool Nat, ListShows InEntry m true [9, 7] ∧
    ∃ m', listRemove m 9 = some m' ∧ ListShows InEntry m' true [7] := by
  have h₀ : (lists Bool Nat).Reachable
      ((⟨fun _ => none, fun _ => none⟩ : Mem Bool Nat), fun _ => none) := .init fun _ => rfl
  have h₁ := listsOf_step h₀ (.init true) trivial rfl
  have h₂ := listsOf_step h₁ (.insertHead true 7)
    ⟨⟨[], rfl⟩, notMember_of_getD (by decide)⟩ rfl
  have h₃ := listsOf_step h₂ (.insertBefore 7 9)
    ⟨⟨true, [7], rfl, by decide⟩, notMember_of_getD (by decide)⟩ rfl
  obtain ⟨hs, hop⟩ := list_represents h₃
  obtain ⟨m', hr, hs', -⟩ := hop (.remove 9) ⟨true, [9, 7], rfl, by decide⟩
  exact ⟨_, hs true [9, 7] rfl, m', hr, hs' true [7] rfl⟩

/-- **Simple queues are sequences**, and in every state `sqh_last` is the address of the
last pointer, in the last element or in the head itself. -/
theorem simpleq_represents {s : Mem H E × Contents H E} (h : (simpleQueues H E).Reachable s) :
    (∀ q es, s.2 q = some es → ListShows InHead s.1 q es) ∧
    ∀ op : SimpleqOp H E, op.Legal s.2 → ∃ m', op.run s.1 = some m' ∧
      (∀ q es, op.apply s.2 q = some es → ListShows InHead m' q es) ∧
      ∀ q es, s.2 q = some es → ¬ op.Touches q →
        op.apply s.2 q = some es ∧ KeepsOn InHead s.1 m' q es :=
  simpleqs_simulate.represents h

/-- Two elements, of which the last is taken out, so that the head gets a new last
pointer. -/
theorem simpleq_represents_removeAfter : ∃ m : Mem Bool Nat, ListShows InHead m true [7, 9] ∧
    ∃ m', simpleqRemoveAfter m true 7 = some m' ∧ ListShows InHead m' true [7] := by
  have h₀ : (simpleQueues Bool Nat).Reachable
      ((⟨fun _ => none, fun _ => none⟩ : Mem Bool Nat), fun _ => none) := .init fun _ => rfl
  have h₁ := listsOf_step h₀ (.init true) trivial rfl
  have h₂ := listsOf_step h₁ (.insertHead true 7)
    ⟨⟨[], rfl⟩, notMember_of_getD (by decide)⟩ rfl
  have h₃ := listsOf_step h₂ (.insertTail true 9)
    ⟨⟨[7], rfl⟩, notMember_of_getD (by decide)⟩ rfl
  obtain ⟨hs, hop⟩ := simpleq_represents h₃
  obtain ⟨m', hr, hs', -⟩ := hop (.removeAfter true 7) ⟨[], 9, [], rfl⟩
  exact ⟨_, hs true [7, 9] rfl, m', hr, hs' true [7] rfl⟩

end LibrePortable.Sys
