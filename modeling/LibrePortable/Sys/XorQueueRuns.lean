import LibrePortable.Sys.XorQueueProof

/-!
# Runs over XOR simple queues

In every state of every run the words of an `XSIMPLEQ` are those of a `SIMPLEQ` in
disguise, so what holds of simple queues holds of it. The other way round, one address
that does not survive the cast to `unsigned long` is enough for a run in which a queue
does not show what was put in. So the macros can be relied on exactly where all
addresses fit.
-/

namespace LibrePortable.Sys

variable {H E : Type} {p u : Nat}

/-- What walking an XOR queue shows. -/
structure XorShows (L : Layout H E p) (x : XorMem H E p u) (q : H) (es : List E) : Prop where
  /-- `XSIMPLEQ_FIRST` is the pointer to the first element. -/
  first : xsimpleqFirst x q = L.ptr es.head?
  /-- `XSIMPLEQ_FOREACH` meets the elements in order. -/
  forward : ∀ fuel, es.length < fuel → xsimpleqForeach L x q fuel (xsimpleqFirst x q) = some es
  empty : xsimpleqEmpty x q = true ↔ es = []
  /-- `sqx_last` is the address of the last pointer. -/
  last : x.xor q (x.last q) = L.slot (.of q es.getLast?)

section Shows

variable {L : Layout H E p} {x : XorMem H E p u} {m : Mem H E} {q : H} {es : List E}

/-- The loop follows the pointers under the words. -/
theorem Encoded.foreach_eq (hL : L.Fits u) (h : Encoded L q (Own q es) x m) {t : Mem H E}
    (hl : Linked t q es) (ha : Agrees InHead m t) {xs ys : List E} (hes : es = xs ++ ys)
    {fuel : Nat} (hf : ys.length < fuel) :
    xsimpleqForeach L x q fuel (L.ptr ys.head?) = some ys := by
  induction ys generalizing xs fuel with
  | nil =>
      obtain ⟨n, rfl⟩ := Nat.exists_eq_add_one.mpr hf
      simp [xsimpleqForeach, Layout.ptr]
  | cons y ys ih =>
      obtain ⟨n, rfl⟩ := Nat.exists_eq_add_one.mpr (Nat.zero_lt_of_lt hf)
      have hown : Own q es (.next y) := .inr ⟨y, by simp [hes], rfl⟩
      have hlink : m.link (.next y) = ys.head? := by
        rw [hes] at hl
        exact (ha.link_eq _).trans hl.tailqNext_eq
      have hnext : x.xor q (x.link (.next y)) = L.ptr ys.head? := by
        rw [h.decode hL hown, hlink]
      have hrest : xsimpleqForeach L x q n (L.ptr ys.head?) = some ys :=
        ih (hes.trans (List.append_cons xs y ys)) (by simpa using hf)
      have hy : L.ptr (y :: ys).head? = L.elem y := rfl
      simp only [hy, xsimpleqForeach, if_neg (L.elem_ne_zero y), L.elemAt_elem, hnext, hrest,
        Option.bind_eq_bind, Option.bind_some, Option.pure_def]

theorem Encoded.shows (hL : L.Fits u) (h : Encoded L q (Own q es) x m) {t : Mem H E}
    (hl : Linked t q es) (ha : Agrees InHead m t) : XorShows L x q es := by
  have hlink : m.link (.first q) = es.head? := (ha.link_eq _).trans (hl [] es rfl).1
  have hfirst : xsimpleqFirst x q = L.ptr es.head? := by
    rw [← hlink]
    exact h.decode hL (.inl rfl)
  refine ⟨hfirst, fun fuel hfuel => ?_, ?_, ?_⟩
  · rw [hfirst]
    have hall : es = [] ++ es := rfl
    exact h.foreach_eq hL hl ha hall hfuel
  · rw [xsimpleqEmpty, decide_eq_true_eq, hfirst, L.ptr_eq_zero, List.head?_eq_none_iff]
  · obtain ⟨v, hv, hlast⟩ := h.last
    have hv' : m.back (.first q) = some (.of q es.getLast?) :=
      (ha.back _ ⟨q, rfl⟩).trans hl.shows.last
    obtain rfl : v = .of q es.getLast? := Option.some.inj (hv.symm.trans hv')
    rw [hlast]
    exact (xorWord_xorWord _ _).trans (hL.slot _)

end Shows

section Runs

variable [DecidableEq H] [DecidableEq E] {L : Layout H E p}
  {s : XorMem H E p u × Contents H E}

/-- Some simple queue is under the words. -/
structure Disguised (L : Layout H E p) (m t : Mem H E) (s : XorMem H E p u × Contents H E) :
    Prop where
  good : Good t s.2
  agrees : Agrees InHead m t
  encoded : ∀ q es, s.2 q = some es → Encoded L q (Own q es) s.1 m

omit [DecidableEq H] [DecidableEq E] in
theorem Disguised.shows {m t : Mem H E} (hL : L.Fits u) (h : Disguised L m t s) {q : H}
    {es : List E} (hq : s.2 q = some es) : XorShows L s.1 q es :=
  (h.encoded q es hq).shows hL (h.good.linked q es hq) h.agrees

/-- The words and the head of a queue are as they were. -/
def XorKeeps (x x' : XorMem H E p u) (q : H) (es : List E) : Prop :=
  (∀ l, Own q es l → x'.link l = x.link l) ∧ x'.last q = x.last q ∧ x'.cookie q = x.cookie q

/-- **One step**: a legal macro leads to words with the next simple queue under them. -/
theorem Disguised.step {m t : Mem H E} (hL : L.Fits u) (h : Disguised L m t s)
    (op : XsimpleqOp H E u) (hl : op.plain.Legal s.2) :
    ∃ x' m' t', op.run L s.1 = some x' ∧ Disguised L m' t' (x', op.plain.apply s.2) ∧
      ∀ q es, s.2 q = some es → q ≠ op.head → XorKeeps s.1 x' q es := by
  obtain ⟨x', m', es', hrun, hplain, happ, hd⟩ := op.coded hL h.good h.agrees h.encoded hl
  obtain ⟨m'', o, hm'', hf⟩ := op.plain.follows h.good h.agrees hl
  obtain rfl : m' = m'' := Option.some.inj (hplain.symm.trans hm'')
  obtain ⟨t', ht', hg', hk⟩ := o.correct h.good hf.legal
  have ha' := hf.agrees t' ht'
  rw [hf.apply] at hg' hk
  refine ⟨x', m', t', hrun, ⟨hg', ha', fun q es hq => ?_⟩, hd.others⟩
  by_cases hne : q = op.head
  · subst hne
    obtain rfl : es' = es := Option.some.inj (happ.symm.trans hq)
    exact hd.encoded
  · have hq₀ : s.2 q = some es := (op.apply_of_ne hne).symm.trans hq
    obtain ⟨hlinks, hlast, hcookie⟩ := hd.others q es hq₀ hne
    have hxor : ∀ w, x'.xor q w = s.1.xor q w := fun w => by
      rw [XorMem.xor, hcookie, XorMem.xor]
    have htouch : ¬ o.Touches s.2 q := fun hto => hne (op.touches_head (hf.touches q hto))
    obtain ⟨-, hkeep⟩ := hk q es hq₀ htouch
    have hold := h.encoded q es hq₀
    refine ⟨fun l ho => ?_, ?_⟩
    · rw [hlinks l ho, hold.link l ho, hxor, ha'.link_eq, h.agrees.link_eq, (hkeep l ho).1]
    · obtain ⟨v, hv, hlast'⟩ := hold.last
      refine ⟨v, ?_, by rw [hlast, hlast', hxor]⟩
      rw [ha'.back _ ⟨q, rfl⟩, (hkeep _ (.inl rfl)).2, ← h.agrees.back _ ⟨q, rfl⟩, hv]

theorem disguised_reachable (hL : L.Fits u) (h : (xorQueues u L).Reachable s) :
    ∃ m t, Disguised L m t s := by
  refine h.invariant (I := fun s => ∃ m t, Disguised L m t s) (fun s hi => ?_)
    fun s op s' _ hI hs => ?_
  · have hn : ∀ q es, s.2 q ≠ some es := by
      intro q es h
      simp [show s.2 q = none from hi q] at h
    exact ⟨⟨fun _ => none, fun _ => none⟩, ⟨fun _ => none, fun _ => none⟩,
      ⟨fun q es h => absurd h (hn q es), fun q es h => absurd h (hn q es),
        fun q _ es _ h => absurd h (hn q es)⟩, ⟨rfl, fun _ _ => rfl⟩,
      fun q es h => absurd h (hn q es)⟩
  · obtain ⟨m, t, hd⟩ := hI
    obtain ⟨hl, hr, happ⟩ := hs
    obtain ⟨x', m', t', hrun, hd', -⟩ := hd.step hL op hl
    obtain rfl : x' = s'.1 := Option.some.inj (hrun.symm.trans hr)
    rw [← happ] at hd'
    exact ⟨m', t', hd'⟩

theorem xorQueues_step {x x' : XorMem H E p u} {A : Contents H E}
    (h : (xorQueues u L).Reachable (x, A)) (op : XsimpleqOp H E u) (hl : op.plain.Legal A)
    (hr : op.run L x = some x') : (xorQueues u L).Reachable (x', op.plain.apply A) :=
  h.tail (e := op) ⟨hl, hr, rfl⟩

/-- **XOR simple queues are sequences**, whatever cookies the heads draw, where all
addresses survive the cast. After any run of legal operations every head shows the
sequence the operations built; and the next legal operation succeeds, builds the next
sequence, and leaves every other queue as it is, word by word. -/
theorem xsimpleq_represents (hL : L.Fits u) (h : (xorQueues u L).Reachable s) :
    (∀ q es, s.2 q = some es → XorShows L s.1 q es) ∧
    ∀ op : XsimpleqOp H E u, op.plain.Legal s.2 → ∃ x', op.run L s.1 = some x' ∧
      (∀ q es, op.plain.apply s.2 q = some es → XorShows L x' q es) ∧
      ∀ q es, s.2 q = some es → q ≠ op.head →
        op.plain.apply s.2 q = some es ∧ XorKeeps s.1 x' q es := by
  obtain ⟨m, t, hd⟩ := disguised_reachable hL h
  refine ⟨fun q es hq => hd.shows hL hq, fun op hl => ?_⟩
  obtain ⟨x', m', t', hrun, hd', hkeep⟩ := hd.step hL op hl
  exact ⟨x', hrun, fun q es hq => hd'.shows hL hq, fun q es hq hne =>
    ⟨(op.apply_of_ne hne).trans hq, hkeep q es hq hne⟩⟩

end Runs

/-- Two heads and two elements, low in memory. -/
def low : Layout Bool Bool 64 where
  elem e := if e then 0x2000 else 0x1000
  slot l := match l with
    | .first q => if q then 0x200 else 0x100
    | .next e => if e then 0x2008 else 0x1008
  elemAt w := if w = 0x2000 then some true else if w = 0x1000 then some false else none
  slotAt w :=
    if w = 0x200 then some (.first true) else if w = 0x100 then some (.first false)
    else if w = 0x2008 then some (.next true) else if w = 0x1008 then some (.next false) else none
  elemAt_elem := by decide
  slotAt_slot l := by rcases l with (q | q) | (e | e) <;> rfl
  elem_ne_zero := by decide

theorem low_fits : low.Fits 32 where
  elem e := by cases e <;> rfl
  slot l := by rcases l with (q | q) | (e | e) <;> rfl

/-- Two elements under a cookie of 32 bits, of which the second is taken out. -/
theorem xsimpleq_represents_removeAfter : ∃ x : XorMem Bool Bool 64 32,
    x.link (.first true) = 0xa5a5a5a5 ^^^ 0x1000 ∧ XorShows low x true [false, true] ∧
    ∃ x', xsimpleqRemoveAfter low x true false = some x' ∧ XorShows low x' true [false] := by
  have h₀ : (xorQueues 32 low).Reachable ((⟨fun _ => 0, fun _ => 0, fun _ => 0⟩ :
      XorMem Bool Bool 64 32), fun _ => none) := .init fun _ => rfl
  have h₁ := xorQueues_step h₀ (.init true 0xa5a5a5a5) trivial rfl
  have h₂ := xorQueues_step h₁ (.insertHead true false)
    ⟨⟨[], rfl⟩, notMember_of_getD (by decide)⟩ rfl
  have h₃ := xorQueues_step h₂ (.insertAfter true false true)
    ⟨⟨[false], rfl, by decide⟩, notMember_of_getD (by decide)⟩ rfl
  obtain ⟨hs, hop⟩ := xsimpleq_represents low_fits h₃
  obtain ⟨x', hr, hs', -⟩ := hop (.removeAfter true false) ⟨[], true, [], rfl⟩
  exact ⟨_, rfl, hs true [false, true] rfl, x', hr, hs' true [false] rfl⟩

section Exact

variable [DecidableEq H] [DecidableEq E] {L : Layout H E p}

omit [DecidableEq H] [DecidableEq E] in
theorem fits_of_xorWord {c : BitVec u} {w : BitVec p} (h : xorWord c (xorWord c w) = w) :
    Fits u w := by
  rwa [xorWord_xorWord] at h

theorem xsimpleqInsertHead_empty {x : XorMem H E p u} {head : H}
    (h : x.link (.first head) = x.xor head 0) (elm : E) :
    (xsimpleqInsertHead L x head elm).link (.first head) = x.xor head (L.elem elm) ∧
      (xsimpleqInsertHead L x head elm).last head = x.xor head (L.slot (.next elm)) ∧
      (xsimpleqInsertHead L x head elm).cookie = x.cookie := by
  have hnull : (x.setLink (.next elm) (x.link (.first head))).link (.next elm) =
      (x.setLink (.next elm) (x.link (.first head))).xor head 0 :=
    (Function.update_self _ _ _).trans h
  rw [xsimpleqInsertHead, xsetLast, if_pos hnull]
  exact ⟨Function.update_self _ _ _, Function.update_self _ _ _, rfl⟩

/-- **An address that does not survive the cast breaks a queue.** The XOR queues show
what was put in them in every state of every run exactly if all addresses fit an
`unsigned long`: where one does not, one or two macros lead to a queue that points
elsewhere. -/
theorem xsimpleq_exact (L : Layout H E p) (head : H) :
    (∀ s, (xorQueues u L).Reachable s → ∀ q es, s.2 q = some es → XorShows L s.1 q es) ↔
      L.Fits u := by
  constructor
  · intro hall
    let x₀ : XorMem H E p u := ⟨fun _ => 0, fun _ => 0, fun _ => 0⟩
    have hinit : ∀ q, (xorQueues u L).Reachable
        (xsimpleqInit L x₀ q 0, Function.update (fun _ => none) q (some [])) := fun q =>
      xorQueues_step (.init fun _ => rfl) (.init q 0) trivial rfl
    have hput : ∀ e, XorShows L (xsimpleqInsertHead L (xsimpleqInit L x₀ head 0) head e) head
        [e] := by
      intro e
      have hnew : ¬ Member (Function.update (fun _ => none) head (some [])) e := by
        rintro ⟨q, es, hq, hm⟩
        by_cases hqh : q = head
        · subst hqh
          obtain rfl : [] = es := by simpa using hq
          cases hm
        · simp [Function.update_of_ne hqh] at hq
      have h := xorQueues_step (hinit head) (.insertHead head e)
        ⟨⟨[], Function.update_self _ _ _⟩, hnew⟩ rfl
      exact hall _ h head [e] (at_self (Function.update_self _ _ _))
    have hempty : (xsimpleqInit L x₀ head 0).link (.first head) =
        (xsimpleqInit L x₀ head 0).xor head 0 := Function.update_self _ _ _
    refine ⟨fun e => ?_, fun l => ?_⟩
    · obtain ⟨hlink, -, hcookie⟩ := xsimpleqInsertHead_empty (L := L) hempty e
      have hfirst := (hput e).first
      rw [xsimpleqFirst, hlink, XorMem.xor, hcookie] at hfirst
      exact fits_of_xorWord hfirst
    · cases l with
      | first q =>
          have hq : (Function.update (fun _ => none) q (some []) : Contents H E) q = some [] :=
            Function.update_self _ _ _
          have hlast := (hall _ (hinit q) q [] hq).last
          have hword : (xsimpleqInit L x₀ q 0).last q = (xsimpleqInit L x₀ q 0).xor q
              (L.slot (.first q)) := Function.update_self _ _ _
          rw [hword] at hlast
          exact fits_of_xorWord hlast
      | next e =>
          obtain ⟨-, hword, hcookie⟩ := xsimpleqInsertHead_empty (L := L) hempty e
          have hlast := (hput e).last
          rw [hword, XorMem.xor, hcookie] at hlast
          exact fits_of_xorWord hlast
  · intro hL s h q es hq
    obtain ⟨m, t, hd⟩ := disguised_reachable hL h
    exact hd.shows hL hq

end Exact

end LibrePortable.Sys
