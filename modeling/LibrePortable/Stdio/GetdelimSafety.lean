import LibrePortable.Lib.Transition
import LibrePortable.Stdio.GetdelimProof

/-!
# Where `getdelim` writes

A call is a sequence of rounds, and a round writes at most two bytes. Whatever the buffer
was at the start, wherever a read fails and whichever `realloc` fails, every round begins
with room for both of them, and the caller is left with a buffer that it still owns.
-/

namespace LibrePortable.Stdio

open Lib Machine

/-! ## Rounds -/

/-- The head of the loop: the machine, `ptr` and `eptr`. -/
structure Round where
  m : Machine
  ptr : Ptr
  eptr : Ptr

/-- How a round ends. -/
inductive RoundEnd where
  | returns (ret : Return) (m : Machine)
  | again (r : Round)

/-- What the call makes of the end of a round, if `next` is the rest of the loop. -/
def RoundEnd.followedBy (next : Round → Option (Return × Machine)) :
    RoundEnd → Option (Return × Machine)
  | .returns ret m => some (ret, m)
  | .again r => next r

/-- `*ptr = '\0'; return ptr - *buf;`. -/
def finished (m : Machine) (ptr : Ptr) : Option RoundEnd :=
  (m.terminate ptr).map fun (ret, m) => .returns ret m

/-- The size the loop asks for when it doubles the buffer. -/
def doubled (P : Platform) (m : Machine) : Nat := m.bufsiz * 2 % (P.sizeMax + 1)

/-- The buffer is replaced by one of twice the size, with `ptr` `d` bytes into it. -/
def grow (P : Platform) (m : Machine) (d : Nat) : RoundEnd :=
  if m.bufsiz > P.sizeMax / 2 then .returns ⟨-1, some .eoverflow⟩ m
  else
    match m.realloc P m.buf (doubled P m) with
    | (none, m') => .returns ⟨-1, some .enomem⟩ m'
    | (some nbuf, m') =>
        .again ⟨{ m' with buf := some nbuf, bufsiz := doubled P m }, ⟨nbuf, d⟩,
          ⟨nbuf, doubled P m⟩⟩

/-- One round of the loop. -/
def round (P : Platform) (delimiter : Int) (r : Round) : Option RoundEnd :=
  let (c, fp) := r.m.fp.fgetc
  let m := { r.m with fp := fp }
  if c = -1 then
    if m.fp.eof then
      (m.sinceBuf r.ptr).bind fun diff =>
        if diff ≠ 0 then finished m r.ptr else some (.returns ⟨-1, none⟩ m)
    else some (.returns ⟨-1, none⟩ m)
  else
    (m.store r.ptr (UInt8.ofInt c)).bind fun m =>
      let ptr := { r.ptr with off := r.ptr.off + 1 }
      if c = delimiter then finished m ptr
      else if ptr.off + 2 ≥ r.eptr.off then (m.sinceBuf ptr).map (grow P m)
      else some (.again ⟨m, ptr, r.eptr⟩)

theorem finished_followedBy (m : Machine) (ptr : Ptr)
    (next : Round → Option (Return × Machine)) :
    (finished m ptr).bind (RoundEnd.followedBy next) = m.terminate ptr := by
  unfold finished
  cases m.terminate ptr with
  | none => rfl
  | some _ => rfl

/-- **The loop is rounds, one after the other.** -/
theorem loop_succ (P : Platform) (delimiter : Int) (fuel : Nat) (m : Machine) (ptr eptr : Ptr) :
    loop P delimiter (fuel + 1) m ptr eptr =
      (round P delimiter ⟨m, ptr, eptr⟩).bind
        (RoundEnd.followedBy fun r => loop P delimiter fuel r.m r.ptr r.eptr) := by
  conv_lhs => unfold loop
  unfold round
  dsimp only
  split
  · split
    · cases sinceBuf { m with fp := m.fp.fgetc.2 } ptr with
      | none => rfl
      | some diff =>
          rw [Option.bind_some, Option.bind_some]
          split
          · exact (finished_followedBy _ _ _).symm
          · rfl
    · rfl
  · cases store { m with fp := m.fp.fgetc.2 } ptr (UInt8.ofInt m.fp.fgetc.1) with
    | none => rfl
    | some m' =>
        rw [Option.bind_some, Option.bind_some]
        split
        · exact (finished_followedBy _ _ _).symm
        · split
          · cases m'.sinceBuf { ptr with off := ptr.off + 1 } with
            | none => rfl
            | some d =>
                unfold grow doubled
                rw [Option.bind_some, Option.map_some, Option.bind_some]
                split
                · rfl
                · rcases realloc P m' m'.buf (m'.bufsiz * 2 % (P.sizeMax + 1)) with ⟨_ | nbuf, m₁⟩
                  · rfl
                  · rfl
          · rfl

/-- The first round on the buffer as it is. -/
def firstRound (m : Machine) (buf : Nat) : Round := ⟨m, ⟨buf, 0⟩, ⟨buf, m.bufsiz⟩⟩

/-- The first round of a call, if it gets that far. -/
inductive Begins (P : Platform) (m : Machine) : Round → Prop where
  | owned {a : Nat} : m.buf = some a → ¬ m.bufsiz < 2 → Begins P m (firstRound m a)
  | fresh {a : Nat} {m' : Machine} : (m.buf = none ∨ m.bufsiz < 2) →
      m.realloc P m.buf P.stdBufsiz = (some a, m') →
      Begins P m (firstRound { m' with buf := some a, bufsiz := P.stdBufsiz } a)

/-- The rounds of one call of `getdelim`. -/
def rounds (P : Platform) (delimiter : Int) (m : Machine) : Lts Round Unit where
  Init := Begins P m
  Step r _ r' := round P delimiter r = some (.again r')

/-! ## One round -/

section Steps

variable {P : Platform} {delimiter : Int} {m m' : Machine} {next : Nat}

/-- `*buf` is a live allocation of at least `*bufsiz` bytes, and of exactly that many if
there has been an allocation since `next` was the number of the next one. -/
structure Owned (P : Platform) (next : Nat) (m : Machine) : Prop where
  block : ∀ a, m.buf = some a → ∃ block, m.heap a = some block ∧ m.bufsiz ≤ block.size
    ∧ (m.next ≠ next → block.size = m.bufsiz)
  next_le : next ≤ m.next
  small : m.bufsiz ≤ P.sizeMax

theorem owned_of_valid (h : Valid P m) : Owned P m.next m := by
  refine ⟨fun a ha => ?_, Nat.le_refl _, h.small⟩
  obtain ⟨block, hblock, hsize⟩ := h.live a ha
  exact ⟨block, hblock, hsize, fun hne => absurd rfl hne⟩

theorem Owned.valid (h : Owned P next m) : Valid P m := by
  refine ⟨fun a ha => ?_, h.small⟩
  obtain ⟨block, hblock, hsize, -⟩ := h.block a ha
  exact ⟨block, hblock, hsize⟩

/-- There is room for a byte at `ptr` and a NUL behind it, and doubling does not wrap. -/
structure Roomy (P : Platform) (r : Round) : Prop where
  base : r.m.buf = some r.ptr.base
  eptr : r.eptr = ⟨r.ptr.base, r.m.bufsiz⟩
  room : ∃ block, r.m.heap r.ptr.base = some block ∧ r.ptr.off + 2 ≤ block.size
  sized : r.ptr.off + 2 ≤ r.m.bufsiz
  doubles : ¬ r.m.bufsiz > P.sizeMax / 2 → doubled P r.m = r.m.bufsiz * 2
    ∧ doubled P r.m ≤ P.sizeMax

theorem roomy_of_owned {r : Round} (h : Owned P next r.m) (hbase : r.m.buf = some r.ptr.base)
    (heptr : r.eptr = ⟨r.ptr.base, r.m.bufsiz⟩) (hroom : r.ptr.off + 2 ≤ r.m.bufsiz) :
    Roomy P r := by
  obtain ⟨block, hblock, hsize, -⟩ := h.block _ hbase
  refine ⟨hbase, heptr, ⟨block, hblock, Nat.le_trans hroom hsize⟩, hroom, fun hsmall => ?_⟩
  have hdouble : doubled P r.m = r.m.bufsiz * 2 := Nat.mod_eq_of_lt (by omega)
  exact ⟨hdouble, by omega⟩

/-- A write inside the buffer. -/
theorem store_owned {p : Ptr} {block : Block} (h : Owned P next m)
    (hblock : m.heap p.base = some block) (hroom : p.off < block.size) (b : UInt8) :
    ∃ m', m.store p b = some m' ∧ Owned P next m' ∧ SameBut m m' := by
  refine ⟨m.written p block b, ?_, ⟨fun a ha => ?_, h.next_le, h.small⟩, ⟨rfl, rfl, rfl, rfl⟩⟩
  · rw [store, hblock]
    exact if_pos hroom
  · obtain ⟨old, hold, hsize⟩ := h.block a ha
    -- a write changes what a block holds, not how large it is
    by_cases hap : a = p.base
    · subst hap
      obtain rfl := Option.some.inj (hblock.symm.trans hold)
      exact ⟨_, if_pos rfl, hsize⟩
    · exact ⟨old, (if_neg hap).trans hold, hsize⟩

/-- **A call of `realloc` leaves an owned buffer**, whether it succeeds or not. -/
theorem realloc_owned (h : Owned P next m) {size : Nat} (hsize : size ≤ P.sizeMax) :
    (∃ m', m.realloc P m.buf size = (none, m') ∧ Owned P next m')
      ∨ ∃ m', m.realloc P m.buf size = (some m.next, m') ∧ m'.fp = m.fp
        ∧ Owned P next { m' with buf := some m.next, bufsiz := size } := by
  unfold Machine.realloc
  split
  · refine Or.inr ⟨_, rfl, rfl, ⟨fun a ha => ?_, Nat.le_succ_of_le h.next_le, hsize⟩⟩
    obtain rfl := Option.some.inj ha
    exact ⟨⟨size, m.carried m.buf⟩, if_pos rfl, Nat.le_refl _, fun _ => rfl⟩
  · exact Or.inl ⟨_, rfl, h.block, h.next_le, h.small⟩

/-- The end of a record. -/
theorem finished_owned {p : Ptr} {block : Block} (h : Owned P next m)
    (hbase : m.buf = some p.base) (hblock : m.heap p.base = some block)
    (hroom : p.off < block.size) :
    ∃ ret m', finished m p = some (.returns ret m') ∧ Owned P next m' := by
  obtain ⟨m', hstore, howned, hsame⟩ := store_owned h hblock hroom 0
  refine ⟨⟨p.off, none⟩, m', ?_, howned⟩
  rw [finished, terminate, hstore, Option.bind_some, sinceBuf, if_pos (hsame.buf.trans hbase)]
  rfl

/-- What a round leaves behind: an owned buffer, and, if the loop goes on, room in it and
less to read. -/
def Leaves (P : Platform) (next : Nat) (r : Round) : RoundEnd → Prop
  | .returns _ m => Owned P next m
  | .again r' => Owned P next r'.m ∧ Roomy P r' ∧ r'.m.fp.rest.length < r.m.fp.rest.length

/-- **Doubling the buffer** makes room behind what has been read. -/
theorem grow_leaves {r : Round} {d : Nat} (h : Owned P next m) (hd : d + 2 ≤ m.bufsiz * 2)
    (hrest : m.fp.rest.length < r.m.fp.rest.length) : Leaves P next r (grow P m d) := by
  unfold grow
  split
  · exact h
  · rename_i hsmall
    have hdouble : doubled P m = m.bufsiz * 2 := Nat.mod_eq_of_lt (by omega)
    rcases @realloc_owned P m next h (doubled P m) (by omega) with
      ⟨m', hrealloc, howned⟩ | ⟨m', hrealloc, hfp, howned⟩
    · rw [hrealloc]; exact howned
    · rw [hrealloc]
      exact ⟨howned, roomy_of_owned howned rfl rfl (by show d + 2 ≤ doubled P m; omega),
        by show m'.fp.rest.length < _; rwa [hfp]⟩

/-- What `fgetc` can do: read a byte, or say that there is none. -/
theorem fgetc_cases (fp : Stream) :
    fp.fgetc.1 = -1 ∨ (fp.fgetc.1 ≠ -1 ∧ fp.fgetc.2.rest.length < fp.rest.length) := by
  unfold Stream.fgetc
  split
  · exact Or.inl rfl
  · split
    · exact Or.inl rfl
    · rename_i b rest hrest
      refine Or.inr ⟨byte_ne_eof b, ?_⟩
      rw [hrest]
      exact Nat.lt_succ_self _
    · exact Or.inl rfl

/-- **One round** stays inside the buffer and keeps it owned. -/
theorem round_leaves {r : Round} (h : Owned P next r.m) (hr : Roomy P r) :
    ∃ e, round P delimiter r = some e ∧ Leaves P next r e := by
  obtain ⟨block, hblock, hroom⟩ := hr.room
  have howned : Owned P next { r.m with fp := r.m.fp.fgetc.2 } := ⟨h.block, h.next_le, h.small⟩
  unfold round
  dsimp only
  split
  · -- no byte: the end of the file or an error
    split
    · rw [sinceBuf, if_pos hr.base, Option.bind_some]
      split
      · obtain ⟨ret, m', hfin, hm'⟩ := finished_owned (p := r.ptr) howned hr.base hblock (by omega)
        exact ⟨_, hfin, hm'⟩
      · exact ⟨_, rfl, howned⟩
    · exact ⟨_, rfl, howned⟩
  · rename_i hc
    have hrest := ((fgetc_cases r.m.fp).resolve_left hc).2
    obtain ⟨m', hstore, hm', hsame⟩ := store_owned (p := r.ptr) howned hblock (by omega)
      (UInt8.ofInt r.m.fp.fgetc.1)
    have hbase : m'.buf = some r.ptr.base := hsame.buf.trans hr.base
    have hbufsiz : m'.bufsiz = r.m.bufsiz := hsame.bufsiz
    have hrest' : m'.fp.rest.length < r.m.fp.rest.length := by rw [hsame.fp]; exact hrest
    have hroom' := hr.sized
    rw [hstore, Option.bind_some]
    split
    · -- the delimiter: the NUL takes the second place
      obtain ⟨block', hblock', hsize, -⟩ := hm'.block _ hbase
      obtain ⟨ret, m'', hfin, hm''⟩ := finished_owned (p := { r.ptr with off := r.ptr.off + 1 }) hm'
        hbase hblock' (by show r.ptr.off + 1 < block'.size; omega)
      exact ⟨_, hfin, hm''⟩
    · split
      · rw [sinceBuf, if_pos hbase, Option.map_some]
        exact ⟨_, rfl, grow_leaves hm' (by show r.ptr.off + 1 + 2 ≤ _; omega) hrest'⟩
      · rename_i hfull
        rw [hr.eptr] at hfull
        refine ⟨_, rfl, hm', roomy_of_owned hm' hbase ?_ ?_, hrest'⟩
        · rw [hr.eptr, hbufsiz]
        · show r.ptr.off + 1 + 2 ≤ m'.bufsiz
          dsimp only at hfull
          omega

end Steps

/-! ## A whole call -/

section Whole

variable {P : Platform} {delimiter : Int} {m : Machine}

/-- The loop returns, with an owned buffer. -/
theorem loop_owned {next : Nat} : ∀ {fuel : Nat} {r : Round}, Owned P next r.m → Roomy P r →
    r.m.fp.rest.length < fuel →
      ∃ ret m', loop P delimiter fuel r.m r.ptr r.eptr = some (ret, m') ∧ Owned P next m' := by
  intro fuel
  induction fuel with
  | zero => intro r _ _ h; exact absurd h (Nat.not_lt_zero _)
  | succ fuel ih =>
      intro r howned hr hfuel
      obtain ⟨e, hround, hleaves⟩ := @round_leaves _ delimiter _ _ howned hr
      rw [loop_succ, hround, Option.bind_some]
      cases e with
      | returns ret m' => exact ⟨ret, m', rfl, hleaves⟩
      | again r' => exact ih hleaves.1 hleaves.2.1 (by have := hleaves.2.2; omega)

/-- A buffer of at least two bytes has room for the first round. -/
theorem firstRound_roomy {next a : Nat} (h : Owned P next m) (hbuf : m.buf = some a)
    (htwo : 2 ≤ m.bufsiz) : Roomy P (firstRound m a) :=
  roomy_of_owned (r := firstRound m a) h hbuf rfl (by show 0 + 2 ≤ m.bufsiz; omega)

theorem readRecord_owned {next a : Nat} (h : Owned P next m) (hbuf : m.buf = some a)
    (htwo : 2 ≤ m.bufsiz) :
    ∃ ret m', readRecord P delimiter m = some (ret, m') ∧ Owned P next m' := by
  rw [readRecord, hbuf, Option.bind_some]
  exact loop_owned (r := firstRound m a) h (firstRound_roomy h hbuf htwo) (Nat.lt_succ_self _)

/-- `BUFSIZ` is more than enough for a byte and a NUL. -/
theorem two_le_stdBufsiz (P : Platform) : 2 ≤ P.stdBufsiz :=
  Nat.le_trans (by decide) P.stdBufsiz_ge

/-- The first round of a call has room. -/
theorem begins_roomy {r : Round} (h : Valid P m) (hr : Begins P m r) :
    Owned P m.next r.m ∧ Roomy P r := by
  have howned := owned_of_valid h
  cases hr with
  | owned hbuf htwo => exact ⟨howned, firstRound_roomy howned hbuf (Nat.not_lt.mp htwo)⟩
  | fresh _ hrealloc =>
      rcases realloc_owned howned P.stdBufsiz_le with ⟨m', hfail, -⟩ | ⟨m', hok, -, hm'⟩
      · exact absurd (congrArg Prod.fst (hfail.symm.trans hrealloc)) nofun
      · obtain ⟨ha, rfl⟩ := Prod.mk.inj (hok.symm.trans hrealloc)
        obtain rfl := Option.some.inj ha
        exact ⟨hm', firstRound_roomy hm' rfl (two_le_stdBufsiz P)⟩

/--
**`getdelim` stays inside its buffer.**

It returns, for any buffer it is given and wherever a read or a `realloc` fails; so no
byte is written outside a live allocation. Every round it makes has room for a byte and
a NUL and doubles without wrapping, and what it leaves to the caller is a buffer to go on
with: at least `*bufsiz` bytes, exactly that many if the call has allocated it.
-/
theorem getdelim_safe (P : Platform) (delimiter : Int) (m : Machine) (h : Valid P m) :
    (∃ ret m', getdelim P delimiter m = some (ret, m') ∧ Valid P m' ∧ Owned P m.next m')
      ∧ ∀ r, (rounds P delimiter m).Reachable r → Roomy P r := by
  have howned := owned_of_valid h
  constructor
  · suffices hex : ∃ ret m', getdelim P delimiter m = some (ret, m') ∧ Owned P m.next m' by
      obtain ⟨ret, m', hcall, hm'⟩ := hex
      exact ⟨ret, m', hcall, hm'.valid, hm'⟩
    unfold getdelim
    split
    · dsimp only
      rcases realloc_owned howned P.stdBufsiz_le with ⟨m', hrealloc, hm'⟩ | ⟨m', hrealloc, -, hm'⟩
      · rw [hrealloc]
        exact ⟨_, m', rfl, hm'⟩
      · rw [hrealloc]
        exact readRecord_owned hm' rfl (two_le_stdBufsiz P)
    · rename_i hsmall
      obtain ⟨hbuf, htwo⟩ := not_or.mp hsmall
      obtain ⟨a, ha⟩ := Option.ne_none_iff_exists'.mp hbuf
      exact readRecord_owned howned ha (Nat.not_lt.mp htwo)
  · intro r hr
    refine (hr.invariant (I := fun r => Owned P m.next r.m ∧ Roomy P r)
      (fun r hr => begins_roomy h hr) ?_).2
    intro r _ r' _ hi hstep
    obtain ⟨e, hround, hleaves⟩ := @round_leaves _ delimiter _ _ hi.1 hi.2
    obtain rfl := Option.some.inj (hround.symm.trans hstep)
    exact ⟨hleaves.1, hleaves.2.1⟩

/-- A buffer of two bytes. -/
theorem getdelim_safe_tiny :
    (∃ ret m', getdelim lp64 10 (tinyBuffer [104, 105]) = some (ret, m') ∧ Valid lp64 m'
        ∧ Owned lp64 (tinyBuffer [104, 105]).next m')
      ∧ ∀ r, (rounds lp64 10 (tinyBuffer [104, 105])).Reachable r → Roomy lp64 r :=
  getdelim_safe lp64 10 _ (tinyBuffer_valid _)

end Whole

end LibrePortable.Stdio
