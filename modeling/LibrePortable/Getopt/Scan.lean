import LibrePortable.Getopt.Option

/-!
# A whole scan

Between two calls the vector is the program's name, the elements that were consumed, a
block of operands, the elements consumed since that block, and what has not been looked
at yet. The two markers delimit the block of operands, and every exchange moves it behind
the elements consumed since.
-/

namespace LibrePortable.Getopt

/-- The vector and the position in it. -/
structure Shape (prog : Text) (done skipped pend rest : List Text) (s : State) : Prop where
  nargv : s.nargv = prog :: (done ++ skipped ++ pend ++ rest)
  optind : s.optind = ((1 + done.length + skipped.length + pend.length : Nat) : Int)

/-- `nonopt_start` and `nonopt_end` before an element is looked at. -/
inductive Ready (done skipped pend : List Text) (start end_ : Int) : Prop
  | unset : skipped = [] → pend = [] → start = -1 → end_ = -1 → Ready done skipped pend start end_
  | skipping : pend = [] → start = ((1 + done.length : Nat) : Int) → end_ = -1 →
      Ready done skipped pend start end_
  | closed : pend ≠ [] → start = ((1 + done.length : Nat) : Int) →
      end_ = ((1 + done.length + skipped.length : Nat) : Int) → Ready done skipped pend start end_

/-- `nonopt_start` and `nonopt_end` inside an option element. -/
inductive Marked (done skipped pend : List Text) (start end_ : Int) : Prop
  | unset : skipped = [] → pend = [] → start = -1 → end_ = -1 → Marked done skipped pend start end_
  | closed : start = ((1 + done.length : Nat) : Int) →
      end_ = ((1 + done.length + skipped.length : Nat) : Int) → Marked done skipped pend start end_

/-- The position and the markers have changed, the variables the caller looks at have not. -/
structure Moves (s s' : State) : Prop where
  seen : s'.seen = s.seen
  optreset : s'.optreset = s.optreset
  posixlyCorrect : s'.posixlyCorrect = s.posixlyCorrect

section Blocks

variable {prog : Text} {done skipped pend rest : List Text} {s s' : State} {e : Text}

/-- **The exchange** of the skipped block and the elements behind it. -/
theorem Shape.permute (hs : Shape prog done skipped pend rest s) (hpend : pend ≠ [])
    (hstart : s.nonoptStart = ((1 + done.length : Nat) : Int))
    (hend : s.nonoptEnd = ((1 + done.length + skipped.length : Nat) : Int)) :
    permuteArgs s.nonoptStart s.nonoptEnd s.optind s.nargv
      = some (prog :: (done ++ pend ++ skipped ++ rest)) := by
  have := permuteArgs_spec (prog :: done) skipped rest hpend
  rw [hs.nargv, hs.optind, hstart, hend]
  simpa [Nat.add_comm 1 done.length] using this

/-- **An operand joins the skipped block**, which first moves behind what was consumed. -/
theorem skipOperand_spec (hs : Shape prog done skipped pend (e :: rest) s)
    (hr : Ready done skipped pend s.nonoptStart s.nonoptEnd) :
    ∃ s', skipOperand s = some s' ∧ Shape prog (done ++ pend) (skipped ++ [e]) [] rest s' ∧
      Ready (done ++ pend) (skipped ++ [e]) [] s'.nonoptStart s'.nonoptEnd ∧ s'.place = s.place ∧
      Moves s s' := by
  have hoptind := hs.optind
  rw [skipOperand]
  cases hr with
  | unset hskipped hpend hstart hend =>
      subst hskipped hpend
      rw [if_pos hstart]
      refine ⟨_, rfl, ⟨?_, ?_⟩, .skipping rfl ?_ hend, rfl, rfl, rfl, rfl⟩
      · simpa using hs.nargv
      · show s.optind + 1 = _
        rw [hoptind]
        simp
      · show s.optind = _
        rw [hoptind]
        simp
  | skipping hpend hstart hend =>
      subst hpend
      rw [if_neg (by omega), if_neg (not_not.mpr hend)]
      refine ⟨_, rfl, ⟨?_, ?_⟩, .skipping rfl ?_ hend, rfl, rfl, rfl, rfl⟩
      · simpa using hs.nargv
      · show s.optind + 1 = _
        rw [hoptind]
        simp
        omega
      · show s.nonoptStart = _
        rw [hstart, List.append_nil]
  | closed hpend hstart hend =>
      -- options stand behind the block, so it moves behind them first
      rw [if_neg (by omega), if_pos (by omega), hs.permute hpend hstart hend]
      refine ⟨_, rfl, ⟨?_, ?_⟩, .skipping rfl ?_ rfl, rfl, rfl, rfl, rfl⟩
      · simp
      · show s.optind + 1 = _
        rw [hoptind]
        simp
        omega
      · show s.optind - (s.nonoptEnd - s.nonoptStart) = _
        rw [hoptind, hstart, hend]
        simp
        omega

/-- **The exchange at the end of a scan.** -/
theorem permuteAtEnd_spec (hs : Shape prog done skipped pend rest s) (hpend : pend ≠ [])
    (hstart : s.nonoptStart = ((1 + done.length : Nat) : Int))
    (hend : s.nonoptEnd = ((1 + done.length + skipped.length : Nat) : Int)) :
    ∃ s', permuteAtEnd s = some s' ∧ s'.nargv = prog :: (done ++ pend ++ skipped ++ rest) ∧
      s'.optind = ((1 + (done ++ pend).length : Nat) : Int) ∧ s'.place = s.place ∧ Moves s s' := by
  rw [permuteAtEnd, hs.permute hpend hstart hend]
  refine ⟨_, rfl, rfl, ?_, rfl, rfl, rfl, rfl⟩
  show s.optind - (s.nonoptEnd - s.nonoptStart) = _
  rw [hs.optind, hstart, hend, List.length_append]
  omega

/-- The end of a scan: what was consumed, then the operands, then what was not looked at. -/
structure Ended (prog : Text) (consumed operands behind : List Text) (s : State) : Prop where
  nargv : s.nargv = prog :: (consumed ++ operands ++ behind)
  optind : s.optind = ((1 + consumed.length : Nat) : Int)

/-- A scan that ends forgets its place and its markers. -/
structure Forgets (s s' : State) : Prop extends Moves s s' where
  place : s'.place = .emsg
  nonoptStart : s'.nonoptStart = -1
  nonoptEnd : s'.nonoptEnd = -1

/-- **The end of the vector.** -/
theorem endOfVector_spec (hs : Shape prog done skipped pend [] s)
    (hr : Ready done skipped pend s.nonoptStart s.nonoptEnd) :
    ∃ s', endOfVector s = some (-1, s') ∧ Ended prog (done ++ pend) skipped [] s' ∧
      Forgets s s' := by
  have hs' : Shape prog done skipped pend [] { s with place := .emsg } := ⟨hs.nargv, hs.optind⟩
  have hoptind := hs.optind
  rw [endOfVector]
  dsimp only
  cases hr with
  | unset hskipped hpend hstart hend =>
      subst hskipped hpend
      rw [if_neg (not_not.mpr hend), if_neg (not_not.mpr hstart)]
      refine ⟨_, rfl, ⟨?_, ?_⟩, ⟨rfl, rfl, rfl⟩, rfl, rfl, rfl⟩
      · simpa using hs.nargv
      · simpa using hoptind
  | skipping hpend hstart hend =>
      subst hpend
      rw [if_neg (not_not.mpr hend), if_pos (by omega)]
      refine ⟨_, rfl, ⟨?_, ?_⟩, ⟨rfl, rfl, rfl⟩, rfl, rfl, rfl⟩
      · simpa using hs.nargv
      · simpa using hstart
  | closed hpend hstart hend =>
      rw [if_pos (by omega)]
      obtain ⟨s', hrun, hnargv, hlast, hplace, hmoves⟩ := permuteAtEnd_spec hs' hpend hstart hend
      rw [hrun]
      exact ⟨_, rfl, ⟨hnargv, hlast⟩, ⟨hmoves.seen, hmoves.optreset, hmoves.posixlyCorrect⟩,
        hplace, rfl, rfl⟩

/-- **The element `--`.** -/
theorem doubleDash_spec (hs : Shape prog done skipped pend (e :: rest) s)
    (hm : Marked done skipped pend s.nonoptStart s.nonoptEnd) :
    ∃ s', doubleDash s = some (-1, s') ∧ Ended prog (done ++ pend ++ [e]) skipped rest s' ∧
      Forgets s s' := by
  have hoptind := hs.optind
  rw [doubleDash]
  dsimp only
  cases hm with
  | unset hskipped hpend hstart hend =>
      subst hskipped hpend
      rw [if_neg (not_not.mpr hend)]
      refine ⟨_, rfl, ⟨?_, ?_⟩, ⟨rfl, rfl, rfl⟩, rfl, rfl, rfl⟩
      · simpa using hs.nargv
      · show s.optind + 1 = _
        rw [hoptind]
        simp
        omega
  | closed hstart hend =>
      rw [if_pos (by omega)]
      have hs' : Shape prog done skipped (pend ++ [e]) rest
          { s with optind := s.optind + 1, place := .emsg } := by
        refine ⟨?_, ?_⟩
        · simpa using hs.nargv
        · show s.optind + 1 = _
          rw [hoptind]
          simp
          omega
      obtain ⟨s', hrun, hnargv, hlast, hplace, hmoves⟩ :=
        permuteAtEnd_spec hs' (by simp) hstart hend
      rw [hrun]
      refine ⟨_, rfl, ⟨?_, ?_⟩, ⟨hmoves.seen, hmoves.optreset, hmoves.posixlyCorrect⟩,
        hplace, rfl, rfl⟩
      · simpa using hnargv
      · simpa using hlast

/-- An element is done with, and `k` of those behind it. -/
theorem Shape.consume {es : List Text} {k : Nat} (hs : Shape prog done skipped pend (e :: es) s)
    (hm : Marked done skipped pend s.nonoptStart s.nonoptEnd) (hk : k ≤ es.length)
    (hkeeps : Keeps s s')
    (hoptind : s'.optind = s.optind + 1 + k) :
    ∃ done' pend', Shape prog done' skipped pend' (es.drop k) s' ∧
      Ready done' skipped pend' s'.nonoptStart s'.nonoptEnd ∧
      done' ++ pend' = done ++ pend ++ (e :: es.take k) := by
  have hold := hs.optind
  have htake : (es.take k).length = k := by rw [List.length_take, Nat.min_eq_left hk]
  have hsplit : es.take k ++ es.drop k = es := List.take_append_drop k es
  cases hm with
  | unset hskipped hpend hstart hend =>
      subst hskipped hpend
      refine ⟨done ++ (e :: es.take k), [], ⟨?_, ?_⟩, .unset rfl rfl ?_ ?_, by simp⟩
      · rw [hkeeps.nargv, hs.nargv]
        simp [hsplit]
      · rw [hoptind, hold]
        simp [htake]
        omega
      · rw [hkeeps.nonoptStart, hstart]
      · rw [hkeeps.nonoptEnd, hend]
  | closed hstart hend =>
      refine ⟨done, pend ++ (e :: es.take k), ⟨?_, ?_⟩, .closed (by simp) ?_ ?_, by simp⟩
      · rw [hkeeps.nargv, hs.nargv]
        simp [hsplit]
      · rw [hoptind, hold]
        simp [htake]
        omega
      · rw [hkeeps.nonoptStart, hstart]
      · rw [hkeeps.nonoptEnd, hend]

end Blocks

/-! ## Between two calls -/

/-- What a list of elements weighs: one for each character and one for each element. -/
def weight (es : List Text) : Nat := (es.map fun e => e.length + 1).sum

/-- What the scan still has to look at: the markers that go with it, its layout, and its weight. -/
inductive Ahead (r : Rules) (done skipped pend : List Text) (s : State) :
    List Text → Layout → Nat → Prop
  | element {rest : List Text} : s.place.text = [] →
      Ready done skipped pend s.nonoptStart s.nonoptEnd →
      Ahead r done skipped pend s rest (r.layout 0 rest) (weight rest)
  | inside {e : Text} {es : List Text} {off : Nat} : s.place = .inside e (off + 1) →
      e.drop (off + 1) ≠ [] → Marked done skipped pend s.nonoptStart s.nonoptEnd →
      Ahead r done skipped pend s (e :: es)
        ((r.layout (r.cluster es (e.drop (off + 1))) es).cons e true)
        ((e.drop (off + 1)).length + weight es)

/-- The lists make up the layout of the whole vector. -/
structure PartOf (total : Layout) (done skipped pend : List Text) (l : Layout) : Prop where
  consumed : total.consumed = done ++ pend ++ l.consumed
  operands : total.operands = skipped ++ l.operands
  behind : total.behind = l.behind

/-- **The invariant of a scan** of a vector with this layout, with this much still to come. -/
structure Scanning (c : Call) (r : Rules) (prog : Text) (total : Layout) (n : Nat) (s : State) :
    Prop where
  nargc : c.nargc = s.nargv.length
  optreset : s.optreset = 0
  posixlyCorrect : s.posixlyCorrect = -1 ∨ s.posixlyCorrect = 0
  parts : ∃ done skipped pend rest l, Shape prog done skipped pend rest s ∧
    Ahead r done skipped pend s rest l n ∧ PartOf total done skipped pend l

/-- What a call leaves: the end of the scan, or less to come. -/
def Advances (c : Call) (r : Rules) (prog : Text) (total : Layout) (n : Nat) (rc : Int)
    (s' : State) : Prop :=
  (rc = -1 ∧ Ended prog total.consumed total.operands total.behind s') ∨
    (rc ≠ -1 ∧ ∃ n' < n, Scanning c r prog total n' s')

section Steps

variable {h : Host} {c : Call} {r : Rules} {prog e t : Text} {total l : Layout}
  {done skipped pend rest es : List Text} {s : State} {ch : Letter} {off n : Nat}

theorem weight_cons (e : Text) (es : List Text) : weight (e :: es) = e.length + 1 + weight es :=
  List.sum_cons

theorem weight_drop (k : Nat) (es : List Text) : weight (es.drop k) ≤ weight es := by
  have hsplit : weight es = weight (es.take k) + weight (es.drop k) := by
    rw [weight, weight, weight, ← List.sum_append, ← List.map_append, List.take_append_drop]
  omega

theorem placeTakes_le (r : Rules) (es : List Text) (off : Nat) (ch : Letter) (t : Text) :
    r.placeTakes es off ch t (r.cluster es t) ≤ es.length := by
  have hletter := Rules.letterTakes_le r ch t (Rules.cluster_le r es t)
  rw [Rules.placeTakes]
  split
  · exact hletter
  · split
    · exact Rules.one_le es
    · exact Nat.zero_le _
    · exact hletter

theorem cluster_cons (r : Rules) (es : List Text) (hoff : off ≠ 0) (ch : Letter) (t : Text) :
    r.cluster es (ch :: t) = r.placeTakes es off ch t (r.cluster es t) := by
  rw [Rules.cluster, Rules.placeTakes]
  exact (if_neg hoff).symm

/-- The element at `optind`. -/
theorem Shape.facing (hs : Shape prog done skipped pend (e :: es) s)
    (hnargc : c.nargc = s.nargv.length) : Facing c s e es := by
  have hoptind := hs.optind
  have hnargv : s.nargv = (prog :: (done ++ skipped ++ pend)) ++ e :: es := by
    rw [hs.nargv]
    simp
  have hfront : s.optind = ((prog :: (done ++ skipped ++ pend)).length : Nat) := by
    rw [hoptind]
    simp
    omega
  generalize prog :: (done ++ skipped ++ pend) = front at hnargv hfront
  refine ⟨?_, fun j hj => ?_, ?_⟩
  · rw [State.arg, hfront, if_pos (Int.natCast_nonneg _), Int.toNat_natCast, hnargv]
    simp
  · have hidx : s.optind + 1 + j = ((front.length + (j + 1) : Nat) : Int) := by omega
    rw [State.arg, hidx, if_pos (Int.natCast_nonneg _), Int.toNat_natCast, hnargv,
      List.getElem?_append_right (by omega), Nat.add_sub_cancel_left, List.getElem?_cons_succ]
    cases hget : es[j]? with
    | some x => rfl
    | none =>
        have : es.length ≤ j := List.getElem?_eq_none_iff.mp hget
        exact if_pos (by simp; omega)
  · rw [hnargc, hfront, hnargv]
    simp
    omega

/-- The element is consumed, with those it takes. -/
theorem PartOf.consume {done' pend' : List Text} {k : Nat} (hk : k ≤ es.length)
    (hp : PartOf total done skipped pend ((r.layout k es).cons e true))
    (heq : done' ++ pend' = done ++ pend ++ (e :: es.take k)) :
    PartOf total done' skipped pend' (r.layout 0 (es.drop k)) := by
  have htakes := Rules.layout_takes r _ es hk
  refine ⟨?_, ?_, ?_⟩
  · rw [hp.consumed, heq, Layout.consumed_cons_true, htakes.consumed]
    simp
  · rw [hp.operands, Layout.operands_cons_true, htakes.operands]
  · rw [hp.behind, Layout.behind_cons, htakes.behind]

/-- **An option inside an element** leaves less to come. -/
theorem option_advances (ha : Agrees h c r) (hnargc : c.nargc = s.nargv.length)
    (hreset : s.optreset = 0) (hposix : s.posixlyCorrect = -1 ∨ s.posixlyCorrect = 0)
    (hoptarg : s.optarg = none)
    (hs : Shape prog done skipped pend (e :: es) s)
    (hm : Marked done skipped pend s.nonoptStart s.nonoptEnd)
    (hplace : s.place = .inside e off) (ht : e.drop off = ch :: t)
    (hp : PartOf total done skipped pend
      ((r.layout (r.placeTakes es off ch t (r.cluster es t)) es).cons e true))
    (hn : t.length + weight es < n) :
    ∃ rc s', option h c r.options r.longonly s = some (rc, s') ∧
      Advances c r prog total n rc s' := by
  obtain ⟨s', hrun, ⟨hkeeps, -⟩, hleaves⟩ := option_spec ha.reads (hs.facing hnargc) hplace ht
    hoptarg (h := h)
  refine ⟨_, s', hrun, Or.inr ⟨placeOutcome_rc_ne ha es off ch t, ?_⟩⟩
  have hnargc' : c.nargc = s'.nargv.length := by rw [hkeeps.nargv, hnargc]
  have hreset' : s'.optreset = 0 := hkeeps.optreset.trans hreset
  have hposix' : s'.posixlyCorrect = -1 ∨ s'.posixlyCorrect = 0 := by
    rwa [hkeeps.posixlyCorrect]
  have htail : e.drop (off + 1) = t := by rw [← List.tail_drop, ht, List.tail_cons]
  cases hleaves with
  | letter hne hplace' hoptind htakes =>
      refine ⟨t.length + weight es, hn, hnargc', hreset', hposix', done, skipped, pend, e :: es,
        _,
        ⟨hkeeps.nargv.trans hs.nargv, hoptind.trans hs.optind⟩, ?_, hp⟩
      rw [htakes]
      have hm' : Marked done skipped pend s'.nonoptStart s'.nonoptEnd := by
        cases hm with
        | unset hskipped hpend hstart hend =>
            exact .unset hskipped hpend (hkeeps.nonoptStart.trans hstart)
              (hkeeps.nonoptEnd.trans hend)
        | closed hstart hend =>
            exact .closed (hkeeps.nonoptStart.trans hstart) (hkeeps.nonoptEnd.trans hend)
      have hahead : Ahead r done skipped pend s' (e :: es) _ _ :=
        .inside hplace' (by rw [htail]; exact hne) hm'
      rwa [htail] at hahead
  | element hplace' hoptind =>
      have hk := placeTakes_le r es off ch t
      obtain ⟨done', pend', hs', hr', heq⟩ := hs.consume hm hk hkeeps
        (hoptind _ fun hnil => by rw [hnil]; rfl)
      exact ⟨_, Nat.lt_of_le_of_lt (Nat.le_trans (weight_drop _ es) (Nat.le_add_left _ _)) hn,
        hnargc', hreset', hposix', done', skipped, pend', _, _, hs', .element hplace' hr',
        hp.consume hk heq⟩

theorem Shape.length (hs : Shape prog done skipped pend rest s) :
    s.nargv.length = 1 + done.length + skipped.length + pend.length + rest.length := by
  rw [hs.nargv]
  simp
  omega

theorem Advances.mono {m : Nat} {rc : Int} {s' : State} (ha : Advances c r prog total m rc s')
    (hle : m ≤ n) : Advances c r prog total n rc s' :=
  ha.imp_right fun ⟨hrc, n', hlt, hinv⟩ => ⟨hrc, n', Nat.lt_of_lt_of_le hlt hle, hinv⟩

/-- The markers once an option element was found. -/
theorem Ready.marked (hs : Shape prog done skipped pend rest s)
    (hr : Ready done skipped pend s.nonoptStart s.nonoptEnd) :
    Marked done skipped pend (markEnd s).nonoptStart (markEnd s).nonoptEnd := by
  rw [markEnd]
  cases hr with
  | unset hskipped hpend hstart hend =>
      rw [if_neg fun h => h.1 hstart]
      exact .unset hskipped hpend hstart hend
  | skipping hpend hstart hend =>
      rw [if_pos ⟨by omega, hend⟩]
      refine .closed hstart ?_
      show s.optind = _
      rw [hs.optind, hpend]
      rfl
  | closed hpend hstart hend =>
      rw [if_neg fun h => by omega]
      exact .closed hstart hend

/-- An element that starts with `-` but is not `--`. -/
theorem layout_option (hop : isOperand r.options e = false) (hdash : isDashes e = false)
    (es : List Text) : r.layout 0 (e :: es) = (r.layout (r.takes es e) es).cons e true := by
  rw [Rules.layout, if_neg (by rw [hop]; decide), if_neg (by rw [hdash]; decide)]

/-- **An option element** leaves less to come. -/
theorem optionElement_advances (ha : Agrees h c r) (hnargc : c.nargc = s.nargv.length)
    (hreset : s.optreset = 0) (hposix : s.posixlyCorrect = -1 ∨ s.posixlyCorrect = 0)
    (hoptarg : s.optarg = none)
    (hs : Shape prog done skipped pend (e :: es) s)
    (hm : Marked done skipped pend s.nonoptStart s.nonoptEnd)
    (hop : isOperand r.options e = false)
    (hp : PartOf total done skipped pend (r.layout 0 (e :: es))) :
    ∃ rc s', optionElement h c r.options r.longonly e s = some (rc, s') ∧
      Advances c r prog total (weight (e :: es)) rc s' := by
  have hdash : deref e = 45 := by
    by_contra hne
    simp [isOperand, hne] at hop
  obtain ⟨d, t, rfl⟩ : ∃ d t, e = d :: t := by
    cases e with
    | nil => exact absurd hdash (by decide)
    | cons d t => exact ⟨d, t, rfl⟩
  rw [optionElement, List.tail_cons]
  cases t with
  | nil =>
      -- The element `-`, where `-` is an option letter.
      rw [layout_option hop (by rfl) es] at hp
      exact option_advances (s := { s with place := .inside [d] 0 }) ha hnargc hreset hposix
        hoptarg ⟨hs.nargv, hs.optind⟩ hm rfl rfl hp (by rw [weight_cons]; simp)
  | cons ch t =>
      rw [if_pos (show deref (ch :: t) ≠ 0 from ch.2)]
      by_cases hdashes : deref (ch :: t) = 45 ∧ deref (ch :: t).tail = 0
      · have hd : isDashes (d :: ch :: t) = true := decide_eq_true hdashes
        have hlayout : r.layout 0 ((d :: ch :: t) :: es) = ⟨[(d :: ch :: t, true)], es⟩ := by
          rw [Rules.layout, if_neg (by rw [hop]; decide), if_pos hd]
        rw [hlayout] at hp
        rw [if_pos hdashes]
        obtain ⟨s', hrun, hended, -⟩ := doubleDash_spec hs hm
        refine ⟨-1, s', hrun, Or.inl ⟨rfl, ?_⟩⟩
        rw [hp.consumed, hp.operands, hp.behind]
        simpa [Layout.consumed, Layout.operands] using hended
      · have hd : isDashes (d :: ch :: t) = false := decide_eq_false hdashes
        rw [layout_option hop hd es,
          show r.takes es (d :: ch :: t) = r.cluster es (ch :: t) from rfl,
          cluster_cons r es Nat.one_ne_zero] at hp
        rw [if_neg hdashes]
        exact option_advances (s := { s with place := .inside (d :: ch :: t) 1 }) ha hnargc hreset
          hposix hoptarg ⟨hs.nargv, hs.optind⟩ hm rfl rfl hp (by rw [weight_cons]; simp; omega)

/-- **The loop at the label `start`**, from one element to the next. -/
theorem start_advances (ha : Agrees h c r) :
    ∀ {rest : List Text} {fuel : Nat} {done skipped pend : List Text} {s : State},
      rest.length < fuel → c.nargc = s.nargv.length → s.optreset = 0 →
      (s.posixlyCorrect = -1 ∨ s.posixlyCorrect = 0) → s.optarg = none → s.place.text = [] →
      Shape prog done skipped pend rest s → Ready done skipped pend s.nonoptStart s.nonoptEnd →
      PartOf total done skipped pend (r.layout 0 rest) →
      ∃ rc s', start h c ⟨true, false, r.longonly⟩ r.options fuel s = some (rc, s') ∧
        Advances c r prog total (weight rest) rc s' := by
  intro rest
  induction rest with
  | nil =>
      intro fuel done skipped pend s hfuel hnargc hreset hposix hoptarg hplace hs hr hp
      obtain ⟨fuel, rfl⟩ : ∃ k, fuel = k + 1 := ⟨fuel - 1, by omega⟩
      have hsame : ({ s with optreset := 0 } : State) = s := by rw [← hreset]
      have hend : s.optind ≥ c.nargc := by
        rw [hnargc, hs.optind, hs.length]
        simp
      rw [start, if_pos (Or.inr hplace), hsame, element, if_pos hend]
      obtain ⟨s', hrun, hended, -⟩ := endOfVector_spec hs hr
      refine ⟨-1, s', hrun, Or.inl ⟨rfl, ?_⟩⟩
      rw [hp.consumed, hp.operands, hp.behind]
      simpa [Rules.layout, Layout.consumed, Layout.operands] using hended
  | cons e es ih =>
      intro fuel done skipped pend s hfuel hnargc hreset hposix hoptarg hplace hs hr hp
      obtain ⟨fuel, rfl⟩ : ∃ k, fuel = k + 1 := ⟨fuel - 1, by omega⟩
      have hsame : ({ s with optreset := 0 } : State) = s := by rw [← hreset]
      have hmore : ¬ s.optind ≥ c.nargc := by
        rw [hnargc, hs.optind, hs.length]
        simp
      have hhere : s.arg s.optind = some (some e) := (hs.facing hnargc).here
      rw [start, if_pos (Or.inr hplace), hsame, element, if_neg hmore, hhere]
      dsimp only
      cases hop : isOperand r.options e with
      | true =>
        -- an operand is passed over
        have hlayout : r.layout 0 (e :: es) = (r.layout 0 es).cons e false := by
          rw [Rules.layout, if_pos hop]
        rw [hlayout] at hp
        obtain ⟨s', hskip, hs', hr', hplace', hseen', hreset', hposix'⟩ :=
          skipOperand_spec (s := { s with place := .emsg }) ⟨hs.nargv, hs.optind⟩ hr
        obtain ⟨rc, s'', hrun, hadv⟩ := ih (by simpa using hfuel : es.length < fuel)
          (by rw [hnargc, hs.length, hs'.length]; simp; omega) (hreset'.trans hreset)
          (by rw [hposix']; exact hposix) ((congrArg Seen.optarg hseen').trans hoptarg)
          (by rw [hplace']; rfl) hs' hr'
          ⟨by rw [hp.consumed]; simp, by rw [hp.operands]; simp, hp.behind⟩
        refine ⟨rc, s'', ?_, hadv.mono ?_⟩
        · show (skipOperand _).bind _ = _
          rw [hskip]
          exact hrun
        · rw [weight_cons]
          omega
      | false =>
        -- an option: the block of operands in front of it ends here
        have hm := hr.marked hs
        have hmark : ∃ k, markEnd s = { s with nonoptEnd := k } := by
          rw [markEnd]
          split
          · exact ⟨_, rfl⟩
          · exact ⟨s.nonoptEnd, rfl⟩
        obtain ⟨k, hk⟩ := hmark
        rw [hk] at hm ⊢
        exact optionElement_advances ha hnargc hreset hposix hoptarg ⟨hs.nargv, hs.optind⟩ hm hop hp

end Steps

end LibrePortable.Getopt
