import LibrePortable.Getopt.Safety

/-!
# Every call goes further

A call that returns an option has read one more character of its element, or is done with
the element. Where the parser stands is therefore a pair that grows: the index of the
element, and the place in it. What is left to look at shrinks with every such call, and
that bounds their number; inside a call, every jump skips an element.
-/

namespace LibrePortable.Getopt

open Lib

/-! ## How far the parser has come -/

/-- How many characters of its element the scanning pointer is behind. -/
def Place.offset : Place → Nat
  | emsg => 0
  | inside _ off => off

/-- How far the parser has come: the index of the element, and how much of it was read. -/
def State.come (s : State) : Int × Nat :=
  (s.optind, if s.optreset ≠ 0 ∨ s.place.text = [] then 0 else s.place.offset)

/-- One more character of the element was read, or the element was left behind. -/
def Further (a b : Int × Nat) : Prop := a.1 < b.1 ∨ (a.1 = b.1 ∧ a.2 < b.2)

/-- The length of all strings of a vector, and their number. -/
def volume (nargv : List Text) : Nat := (nargv.map List.length).sum + nargv.length

/-- How much of the element that is being read was read. -/
def Pos.offset (p : Pos) : Nat :=
  match p.cur with
  | none => 0
  | some (_, off) => off

/-- How far a position is. -/
def Pos.come (p : Pos) : Int × Nat := (p.index, p.offset)

section Positions

variable {h : Host} {c : Call} {r : Rules} {m : Mode} {prog : Text} {p q : Pos} {s : State}
  {o : Outcome} {e t : Text} {off : Nat} {ch : Letter}

theorem weight_eq_volume (es : List Text) : weight es = volume es := by
  induction es with
  | nil => rfl
  | cons e es ih =>
      rw [weight_cons, ih, volume, volume, List.map_cons, List.sum_cons, List.length_cons]
      omega

/-- A reset is at the beginning of its element. -/
theorem settled_come (s : State) : (settled s).come = s.come := by
  rcases settled_cases s with heq | ⟨hreset, heq⟩
  · rw [heq]
  · have hplace : ({ s with optreset := 0, place := .emsg } : State).place.text = [] := rfl
    rw [heq, State.come, State.come, if_pos (Or.inl hreset), if_pos (Or.inr hplace)]

/-- The position says how far the parser has come. -/
theorem At.come (ha : At h c prog p s) : s.come = p.come := by
  have hplace := ha.place
  rw [State.come, Pos.come, ha.optind, Pos.offset]
  cases hcur : p.cur with
  | none =>
      rw [hcur] at hplace
      rw [if_pos (Or.inr hplace)]
  | some x =>
      obtain ⟨e, off⟩ := x
      rw [hcur] at hplace
      have hlook : ¬ (s.optreset ≠ 0 ∨ s.place.text = []) := by
        rw [hplace.1]
        exact not_or.mpr ⟨not_not.mpr ha.optreset, hplace.2⟩
      rw [if_neg hlook, hplace.1]
      rfl

theorem consume_index (p : Pos) (es : List Text) : (p.consume es).index = p.index + es.length := by
  rw [Pos.consume]
  split
  · simp only [Pos.index, List.length_append]
    omega
  · simp only [Pos.index, List.length_append]
    omega

/-- What is left is part of the vector. -/
theorem size_le_elements (p : Pos) : p.size ≤ weight p.elements := by
  have happend : ∀ es es' : List Text, weight (es ++ es') = weight es + weight es' := by
    intro es es'
    rw [weight, List.map_append, List.sum_append]
    rfl
  rw [Pos.size, Pos.elements, happend, happend, Pos.curElems]
  cases p.cur with
  | none =>
      dsimp only
      omega
  | some x =>
      have hcur : weight (Option.map Prod.fst (some x)).toList = x.1.length + 1 := by
        show weight [x.1] = _
        rw [weight_cons]
        rfl
      have hdrop : (x.1.drop x.2).length ≤ x.1.length := by
        rw [List.length_drop]
        omega
      rw [hcur]
      dsimp only
      omega

/-! ## One turn -/

/-- An option is behind the one before it. -/
theorem optionTurn_further (hcome : p.offset ≤ off) (hturn : r.optionTurn h p e off ch t =
    .shows o q) : Further p.come q.come := by
  rw [Rules.optionTurn] at hturn
  dsimp only at hturn
  split at hturn
  · -- the element goes on behind the letter
    cases hturn
    exact Or.inr ⟨rfl, Nat.lt_succ_of_le hcome⟩
  · cases hturn
    left
    show (p.index : Int) < (Pos.index _ : Int)
    rw [consume_index, List.length_cons]
    simp only [Pos.index]
    omega

/-- **A turn that looks at the next element** goes further. -/
theorem turnAt_further : ∀ {rest done skipped pend : List Text},
    r.turnAt h m done skipped pend rest = .shows o q →
      Further (Pos.come ⟨done, skipped, pend, none, rest⟩) q.come := by
  intro rest
  induction rest with
  | nil =>
      intro done skipped pend hturn
      cases hturn
  | cons e es ih =>
      intro done skipped pend hturn
      rw [Rules.turnAt.eq_def] at hturn
      cases hop : isOperand r.options e with
      | false =>
          simp only [hop, Bool.false_eq_true, if_false] at hturn
          split at hturn
          · cases hturn
          · obtain ⟨off, ch, t, -, heq, -⟩ :=
              elementTurn_eq (h := h) hop ⟨done, skipped, pend, none, es⟩
            rw [heq] at hturn
            show Further (Pos.come ⟨done, skipped, pend, none, es⟩) q.come
            exact optionTurn_further (Nat.zero_le off) hturn
      | true =>
          simp only [hop, if_true] at hturn
          cases m with
          | permute =>
              -- the operand was passed over
              have hstep : (Pos.come ⟨done ++ pend, skipped ++ [e], [], none, es⟩).1 =
                  (Pos.come ⟨done, skipped, pend, none, e :: es⟩).1 + 1 := by
                simp only [Pos.come, Pos.index, List.length_append, List.length_cons,
                  List.length_nil]
                omega
              left
              rcases ih hturn with hlt | ⟨heq, -⟩ <;> omega
          | stop => cases hturn
          | allargs =>
              cases hturn
              left
              show (Pos.index _ : Int) < (Pos.index _ : Int)
              rw [consume_index, List.length_singleton]
              simp only [Pos.index]
              omega

/-- **A turn that shows something** goes further. -/
theorem turn_further (hturn : r.turn h m p = .shows o q) : Further p.come q.come := by
  cases hcur : p.cur with
  | none =>
      rw [Rules.turn, hcur] at hturn
      have hcome : p.come = Pos.come ⟨p.done, p.skipped, p.pend, none, p.rest⟩ := by rw [← hcur]
      rw [hcome]
      exact turnAt_further hturn
  | some x =>
      obtain ⟨e, off⟩ := x
      obtain ⟨ch, t, -, hletter⟩ := turn_shows_letter hcur hturn
      refine optionTurn_further (Nat.le_of_eq ?_) hletter
      rw [Pos.offset, hcur]

end Positions

/-! ## Calls -/

section Calls

variable {h : Host} {c : Call} {flags : Flags} {options prog : Text} {p : Pos} {s s₁ s₀ : State}

/-- A value other than -1 comes from a turn that does not end the scan. -/
theorem Matches.goes_on {r : Rules} {m : Mode} {rc : Int} {s' : State}
    (hmatches : Matches h c r prog (r.turn h m p) rc s s') (hl : Lawful r m p) (hrc : rc ≠ -1) :
    ∃ o q, r.turn h m p = .shows o q ∧ Lawful r m q ∧ At h c prog q s' := by
  have hlawful := turn_lawful (h := h) hl
  have hat := hmatches.at_
  have hout := hmatches.rc
  cases hturn : r.turn h m p with
  | ends q =>
      rw [hturn] at hout
      exact absurd hout hrc
  | shows o q =>
      rw [hturn] at hat hlawful
      exact ⟨o, q, rfl, hlawful, hat⟩

/-- The turn that a call takes: the end of the scan, or an option further on. -/
theorem Labelled.further (hs : Labelled h c flags options prog s)
    (hoptions : c.options = some options) (hr : Reads c (rulesOf c flags options)) :
    ∃ rc s' n, start h c (modeFlags s.posixlyCorrect options flags) (skipMode options)
        (c.nargc.toNat + 1) s = some (rc, s') ∧ n ≤ volume s.nargv ∧
      (rc ≠ -1 → Further s.come s'.come ∧
        ∃ p, Lawful (rulesOf c flags options) (modeOf h flags options) p ∧
          At h c prog p s' ∧ p.size < n) := by
  obtain ⟨p, hl, ha, rc, s', hrun, hmatches⟩ := hs.turn hoptions hr
  have hsize : p.size ≤ volume s.nargv := by
    rw [← weight_eq_volume, ← (settled_same s).2.2, ha.nargv, weight_cons]
    exact Nat.le_trans (size_le_elements p) (by omega)
  refine ⟨rc, s', p.size, hrun, hsize, fun hrc => ?_⟩
  obtain ⟨o, q, hturn, hlawful, hat⟩ := hmatches.goes_on hl hrc
  refine ⟨?_, q, hlawful, hat, turn_size hturn⟩
  rw [← settled_come s, ha.come, hat.come]
  exact turn_further hturn

/-- **The calls come to an end**, after no more of them than there is to look at. -/
theorem scan_bounded (hoptions : c.options = some options)
    (hr : Reads c (rulesOf c flags options)) :
    ∀ {n : Nat} {p : Pos} {s : State},
      Lawful (rulesOf c flags options) (modeOf h flags options) p → At h c prog p s →
      p.size ≤ n → ∃ rets last, scan (getoptInternal h c flags) (n + 1) s = some (rets, last) ∧
        rets.length ≤ n := by
  intro n
  induction n with
  | zero =>
      intro p s hl ha hsize
      obtain ⟨rc, s', hcall, hmatches⟩ := internal_turn hoptions hr ha hl.mode
      cases hturn : (rulesOf c flags options).turn h (modeOf h flags options) p with
      | ends q =>
          have hrc := hmatches.rc
          rw [hturn] at hrc
          refine ⟨[], s', ?_, Nat.le_refl 0⟩
          rw [scan, hcall]
          exact if_pos hrc
      | shows o q =>
          have := turn_size hturn
          omega
  | succ n ih =>
      intro p s hl ha hsize
      obtain ⟨rc, s', hcall, hmatches⟩ := internal_turn hoptions hr ha hl.mode
      rw [scan, hcall, Option.bind_some]
      dsimp only
      by_cases hrc : rc = -1
      · rw [if_pos hrc]
        exact ⟨[], s', rfl, Nat.zero_le _⟩
      · rw [if_neg hrc]
        obtain ⟨o, q, hturn, hlawful, hat⟩ := hmatches.goes_on hl hrc
        have hlt := turn_size hturn
        obtain ⟨rets, last, hscan, hlen⟩ := ih hlawful hat (by omega)
        rw [hscan]
        exact ⟨(rc, s') :: rets, last, rfl, Nat.succ_le_succ hlen⟩

/-! ## Jumps -/

/-- A jump skips an element. -/
theorem jump_skips {s' : State} (hj : jump c flags options s = some s') :
    s'.optind = s.optind + 1 ∧ s.optind < c.nargc := by
  rw [jump] at hj
  split at hj
  · rename_i hboth
    refine ⟨?_, Int.not_le.mp hboth.2⟩
    split at hj
    · split at hj
      · rw [skipOperand] at hj
        dsimp only at hj
        split at hj
        · cases hj; rfl
        · split at hj
          · obtain ⟨l, -, rfl⟩ := Option.map_eq_some_iff.mp hj
            rfl
          · cases hj; rfl
      · cases hj
    · cases hj
  · cases hj

/-- **The jumps of one call** are fewer than the elements. -/
theorem jumps_lt {k : Nat} {y : Config} (hpos : 1 ≤ s.optind)
    (hpath : (machine h c flags options s₀).Path (.label s) (List.replicate k .jumped) y) :
    k = 0 ∨ (k : Int) < c.nargc := by
  have hall : ∀ {k : Nat} {s : State},
      (machine h c flags options s₀).Path (.label s) (List.replicate k .jumped) y →
      k = 0 ∨ s.optind + k ≤ c.nargc := by
    intro k
    induction k with
    | zero => exact fun _ => Or.inl rfl
    | succ k ih =>
        intro s hpath
        rw [List.replicate_succ] at hpath
        cases hpath with
        | cons hstep hrest =>
            cases hstep with
            | jump hj =>
                obtain ⟨hnext, hlt⟩ := jump_skips hj
                right
                rcases ih hrest with rfl | hle <;> omega
  rcases hall hpath with hzero | hle
  · exact Or.inl hzero
  · exact Or.inr (by omega)

/-! ## A vector without a program's name -/

/-- Nothing but the NULL, and nothing to exchange. -/
structure Bare (s : State) : Prop where
  nargv : s.nargv = []
  optind : s.optind = 1
  nonoptStart : s.nonoptStart = -1
  nonoptEnd : s.nonoptEnd = -1
  look : s.optreset ≠ 0 ∨ s.place.text = []

theorem Bare.enter (hb : Bare s) (hasks : Asks s s₁) : Bare (enter h s₁) := by
  have hkeep : ∀ s : State, Bare s → Bare (Getopt.enter h s) := by
    intro s hb
    obtain ⟨v, hprepare⟩ := prepare_of_ne h (s := s) (by rw [hb.optind]; decide)
    rw [Getopt.enter, hprepare]
    dsimp only
    split
    · exact ⟨hb.nargv, hb.optind, rfl, rfl, hb.look⟩
    · exact ⟨hb.nargv, hb.optind, hb.nonoptStart, hb.nonoptEnd, hb.look⟩
  have hlook : s₁.optreset = s.optreset → s₁.optreset ≠ 0 ∨ s₁.place.text = [] := by
    intro hreset
    rw [hreset, hasks.place]
    exact hb.look
  rcases hasks.reset with ⟨hoptind, hreset⟩ | hzero | ⟨-, hpos, hlast⟩
  · exact hkeep s₁ ⟨hasks.nargv.trans hb.nargv, hoptind.trans hb.optind,
      hasks.nonoptStart.trans hb.nonoptStart, hasks.nonoptEnd.trans hb.nonoptEnd, hlook hreset⟩
  · -- the reset with `optind` 0
    rw [Getopt.enter, prepare, if_pos hzero]
    dsimp only
    rw [if_pos (Or.inr Int.one_ne_zero), if_pos Int.one_ne_zero]
    exact ⟨hasks.nargv.trans hb.nargv, rfl, rfl, rfl, Or.inl Int.one_ne_zero⟩
  · rw [hb.nargv] at hlast
    simp only [List.length_nil] at hlast
    omega

/-- **Every call ends the scan.** -/
theorem Bare.start (flags : Flags) (options : Text) (hb : Bare s) (hnargc : c.nargc = 0) :
    ∃ s', start h c flags options (c.nargc.toNat + 1) s = some (-1, s') ∧ Bare s' := by
  have hend : s.optind ≥ c.nargc := by rw [hb.optind, hnargc]; decide
  have hstart : ¬ s.nonoptEnd ≠ -1 := not_not.mpr hb.nonoptEnd
  have hmark : ¬ s.nonoptStart ≠ -1 := not_not.mpr hb.nonoptStart
  refine ⟨{ s with optreset := 0, place := .emsg, nonoptStart := -1, nonoptEnd := -1 }, ?_,
    hb.nargv, hb.optind, rfl, rfl, Or.inr rfl⟩
  rw [Getopt.start, if_pos hb.look, element, if_pos hend, endOfVector]
  dsimp only
  rw [if_neg hstart, if_neg hmark]

theorem Bare.step {x y : Config} {e : Event} (hb : Bare x.state) (hnargc : c.nargc = 0)
    (hstep : MachineStep h c flags options x e y) : Bare y.state := by
  cases hstep with
  | call hasks => exact hb.enter hasks
  | jump hj =>
      have hlt := (jump_skips hj).2
      have hone : (Config.label _).state.optind = 1 := hb.optind
      rw [Config.state] at hone
      omega
  | returns hrun =>
      obtain ⟨s', hrun', hb'⟩ := Bare.start (h := h) (modeFlags _ options flags)
        (skipMode options) hb hnargc
      rw [hnargc] at hrun'
      obtain ⟨-, rfl⟩ := Prod.mk.inj (Option.some.inj (hrun'.symm.trans hrun))
      exact hb'

end Calls

/-! ## Runs -/

/-- What holds wherever a run of `parser` stops between two calls. -/
structure Progresses (h : Host) (c : Call) (parser : Parser) (options : Text) (s₀ s : State) :
    Prop where
  /-- The next call returns, after fewer jumps than there are elements; and it goes further than
  the place from which it starts, unless it returns -1. -/
  further {s₁ : State} : Asks s s₁ → ∃ rc s' k, parser.run h c s₁ = some (rc, s') ∧
    (machine h (parser.passed c) parser.flags options s₀).Path (.between s)
      (.called :: List.replicate k .jumped ++ [.returned rc]) (.between s') ∧
    (k = 0 ∨ (k : Int) < c.nargc) ∧ (rc ≠ -1 → Further (enter h s₁).come s'.come)
  /-- No more calls than the vector has characters and elements are made before one returns -1. -/
  ends {s₁ : State} : Asks s s₁ → ∃ rets last,
    scan (parser.run h c) (volume s.nargv + 1) s₁ = some (rets, last) ∧
      rets.length ≤ volume s.nargv

section Runs

variable {h : Host} {c : Call} {options prog : Text} {s s₀ : State}

theorem enter_nargv (h : Host) (s : State) : (enter h s).nargv = s.nargv := by
  have hprepare : (prepare h s).nargv = s.nargv := by
    by_cases hzero : s.optind = 0
    · rw [prepare, if_pos hzero]
      dsimp only
      rw [if_pos (Or.inr Int.one_ne_zero)]
    · obtain ⟨v, hv⟩ := prepare_of_ne h hzero
      rw [hv]
  rw [enter]
  dsimp only
  split <;> exact hprepare

/-- **Between two calls** that have gone well. -/
theorem Between.progresses {parser : Parser}
    (hb : Between h (parser.passed c) parser.flags options prog s)
    (hoptions : c.options = some options)
    (hval : ∀ table, c.longOptions = some table → ∀ o ∈ table, o.val ≠ -1) :
    Progresses h c parser options s₀ s := by
  have hpassed := passed_spec parser hoptions
  have hr := passed_reads options parser hval
  have hcall : ∀ {s₁ : State} {x : Int × State}, Getopt.start h (parser.passed c)
      (modeFlags (Getopt.enter h s₁).posixlyCorrect options parser.flags) (skipMode options)
      ((parser.passed c).nargc.toNat + 1) (Getopt.enter h s₁) = some x →
        parser.run h c s₁ = some x := by
    intro s₁ x hrun
    rw [parser.run_eq, getoptInternal_eq hpassed.2]
    exact hrun
  refine ⟨fun {s₁} hasks => ?_, fun {s₁} hasks => ?_⟩
  · have hlabel := Between.enter hb hasks
    obtain ⟨rc, s', n, hrun, -, hfurther⟩ := hlabel.further hpassed.2 hr
    obtain ⟨k, hpath⟩ := start_path s₀ hrun
    obtain ⟨y, hjumps, -⟩ := hpath.split
    refine ⟨rc, s', k, hcall hrun, .cons (.call hasks) hpath, ?_, fun hrc => (hfurther hrc).1⟩
    have hstands : Stands h (parser.passed c) parser.flags options prog
      (.label (Getopt.enter h s₁)) := hlabel
    rw [← hpassed.1]
    exact jumps_lt (Stands.inBounds hstands).optind.1 hjumps
  · obtain ⟨rc, s', n, hrun, hn, hfurther⟩ := (Between.enter hb hasks).further hpassed.2 hr
    rw [enter_nargv, hasks.nargv] at hn
    rw [scan, hcall hrun, Option.bind_some]
    dsimp only
    by_cases hrc : rc = -1
    · rw [if_pos hrc]
      exact ⟨[], s', rfl, Nat.zero_le _⟩
    · rw [if_neg hrc]
      obtain ⟨-, p, hl, ha, hsize⟩ := hfurther hrc
      obtain ⟨k, hk⟩ : ∃ k, volume s.nargv = k + 1 := ⟨volume s.nargv - 1, by omega⟩
      obtain ⟨rets, last, hscan, hlen⟩ := scan_bounded (n := k) hpassed.2 hr hl ha (by omega)
      have hparser : parser.run h c = getoptInternal h (parser.passed c) parser.flags :=
        funext (parser.run_eq h c)
      rw [hk, hparser, hscan]
      exact ⟨(rc, s') :: rets, last, rfl, Nat.succ_le_succ hlen⟩

/-- **Between two calls**, where there is nothing to look at. -/
theorem Bare.progresses {parser : Parser} (hb : Bare s) (hnargc : c.nargc = 0)
    (hoptions : c.options = some options) : Progresses h c parser options s₀ s := by
  have hpassed := passed_spec parser hoptions
  have hzero : (parser.passed c).nargc = 0 := hpassed.1.trans hnargc
  have hone : ∀ {s₁ : State}, Asks s s₁ → ∃ s', parser.run h c s₁ = some (-1, s') ∧
      (machine h (parser.passed c) parser.flags options s₀).Path (.label (Getopt.enter h s₁))
        [.returned (-1)] (.between s') := by
    intro s₁ hasks
    obtain ⟨s', hrun, -⟩ := Bare.start (h := h)
      (modeFlags (Getopt.enter h s₁).posixlyCorrect options parser.flags) (skipMode options)
      (hb.enter hasks) hzero
    refine ⟨s', ?_, .cons (.returns ?_) (.nil _)⟩
    · rw [parser.run_eq, getoptInternal_eq hpassed.2]
      exact hrun
    · rw [hzero] at hrun
      exact hrun
  refine ⟨fun {s₁} hasks => ?_, fun {s₁} hasks => ?_⟩
  · obtain ⟨s', hcall, hpath⟩ := hone hasks
    exact ⟨-1, s', 0, hcall, .cons (.call hasks) hpath, Or.inl rfl, fun hne => absurd rfl hne⟩
  · obtain ⟨s', hcall, -⟩ := hone hasks
    refine ⟨[], s', ?_, Nat.zero_le _⟩
    rw [scan, hcall]
    rfl

/-- **Every call makes progress**, in any run of calls and resets. -/
theorem parser_progresses (parser : Parser) (hoptions : c.options = some options)
    (hnargc : c.nargc = s₀.nargv.length) (hfresh : Fresh s₀)
    (hval : ∀ table, c.longOptions = some table → ∀ o ∈ table, o.val ≠ -1)
    (hs : (machine h (parser.passed c) parser.flags options s₀).Reachable (.between s)) :
    Progresses h c parser options s₀ s := by
  have hpassed := passed_spec parser hoptions
  cases hargs : s₀.nargv with
  | nil =>
      have hzero : c.nargc = 0 := by
        rw [hnargc, hargs]
        rfl
      have hbare : Bare (Config.between s).state := by
        refine hs.invariant (I := fun x => Bare x.state) ?_ fun _ _ _ _ hb hstep =>
          hb.step (hpassed.1.trans hzero) hstep
        intro x heq
        subst heq
        exact ⟨hargs, hfresh.optind, hfresh.nonoptStart, hfresh.nonoptEnd,
          Or.inr (by show s₀.place.text = []; rw [hfresh.place]; rfl)⟩
      exact Bare.progresses hbare hzero hoptions
  | cons prog args =>
      have hr := passed_reads options parser hval
      have hstands : Stands h (parser.passed c) parser.flags options prog (.between s) := by
        refine hs.invariant (I := Stands h (parser.passed c) parser.flags options prog) ?_
          fun _ _ _ _ hi hstep => hi.step hpassed.2 hr hstep
        intro x heq
        subst heq
        exact ⟨.begin args, finish_lawful .., hfresh.at_begin (hpassed.1.trans hnargc) hargs⟩
      exact Between.progresses hstands hoptions hval

/-- At the first call, for the sample vector. -/
theorem parser_progresses_sample :
    Progresses signedHost sampleCall .getoptLong sampleRules.options (freshState sampleArgs)
      (freshState sampleArgs) := by
  refine parser_progresses .getoptLong rfl rfl (freshState_fresh _) (fun table htable => ?_)
    (.init rfl)
  cases htable
  decide

end Runs

end LibrePortable.Getopt
