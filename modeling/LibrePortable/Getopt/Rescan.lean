import LibrePortable.Getopt.Plays

/-!
# Scanning the permuted vector again

What a scan shows depends on the elements that it consumes and on nothing else, as long as
no argument is missing. The vector that it leaves begins with just these, so a second scan
shows the same and has nothing to exchange, whether it would permute or stops in front of
the first operand.
-/

namespace LibrePortable.Getopt

/-! ## What an option depends on -/

/-- What an option shows in front of these elements, and how many of them it takes: only the ones
it takes matter, unless it misses one. -/
def Local (f : List Text → Outcome × Nat) : Prop :=
  ∀ rest, ¬ (f rest).1.Missing → ∀ behind, f (rest.take (f rest).2 ++ behind) = f rest

section Local

variable {h : Host} {r : Rules} {table : List LongOption} {text t : Text} {o : LongOption} {i : Nat}
  {off : Nat} {ch : Letter}

theorem Local.const {f : List Text → Outcome × Nat} (hf : ∀ rest, f rest = f []) : Local f :=
  fun _ _ _ => (hf _).trans (hf _).symm

theorem Local.congr {f g : List Text → Outcome × Nat} (hg : Local g)
    (hfg : ∀ rest, f rest = g rest) :
    Local f := by
  rwa [show f = g from funext hfg]

/-- The next element is the argument. -/
theorem Local.next {missing : Outcome} (hmissing : missing.Missing) (g : Text → Outcome) :
    Local fun rest => (match rest with | [] => missing | e :: _ => g e, Rules.one rest) := by
  intro rest hnot behind
  cases rest with
  | nil => exact absurd hmissing hnot
  | cons e es => simp [Rules.one]

/-- The next element is read, and those behind it may be. -/
theorem Local.cons {missing : Outcome} {f : Text → List Text → Outcome × Nat}
    (hmissing : missing.Missing) (hf : ∀ e, Local (f e)) :
    Local fun rest => match rest with
      | [] => (missing, 0)
      | e :: es => ((f e es).1, 1 + (f e es).2) := by
  intro rest hnot behind
  cases rest with
  | nil => exact absurd hmissing hnot
  | cons e es =>
      dsimp only at hnot ⊢
      rw [Nat.add_comm, List.take_succ_cons, List.cons_append]
      dsimp only
      rw [hf e es hnot behind, Nat.add_comm]

theorem missing_char (rc optopt : Int) (argument : Argument) :
    (Outcome.fail rc optopt recargchar argument).Missing := ⟨optopt, _, rfl, Or.inl rfl⟩

theorem missing_string (rc optopt : Int) (argument : Argument) :
    (Outcome.fail rc optopt recargstring argument).Missing := ⟨optopt, _, rfl, Or.inr rfl⟩

/-- An entry that was found. -/
theorem found_local (r : Rules) (text : Text) (i : Nat) (o : LongOption) :
    Local fun rest => (r.foundOutcome rest text i o,
      if o.hasArg = requiredArgument ∧ (splitEqual text).2 = none then Rules.one rest else 0) := by
  by_cases hreq : o.hasArg = requiredArgument ∧ (splitEqual text).2 = none
  · have hno : ¬ (o.hasArg = noArgument ∧ (splitEqual text).2.isSome = true) := by
      rw [hreq.2]
      exact fun hboth => Bool.false_ne_true hboth.2
    refine (Local.next (missing_string (badarg r.options) (optoptOf o) (.string text))
      fun e => ⟨if o.flag = none then o.val else 0, some e, some i, none⟩).congr fun rest => ?_
    rw [if_pos hreq, Rules.foundOutcome, if_neg hno, if_pos hreq.1, hreq.2]
    cases rest with
    | nil => exact congrArg (·, _) (if_pos ⟨hreq.1, rfl⟩)
    | cons e es => exact congrArg (·, _) (if_neg fun hboth => Option.some_ne_none _ hboth.2)
  · refine .const fun rest => ?_
    rw [if_neg hreq, if_neg hreq, Rules.foundOutcome, Rules.foundOutcome]
    by_cases hreq' : o.hasArg = requiredArgument
    · cases heq : (splitEqual text).2 with
      | none => exact absurd ⟨hreq', heq⟩ hreq
      | some v =>
          simp only [Option.some_or]
          rfl
    · simp only [hreq', if_false]

/-- A text that is read as a long option. -/
theorem long_local (r : Rules) (table : List LongOption) (text : Text) (shortToo : Bool) :
    Local fun rest => (r.longOutcome table rest text shortToo,
      if longTakes table r.longonly shortToo text = some true then Rules.one rest else 0) := by
  rw [longTakes]
  generalize hf : search table text shortToo r.longonly = f
  by_cases hamb : (!f.exactMatch) = true ∧ f.secondPartialMatch = true
  · refine .const fun rest => ?_
    simp only [Rules.longOutcome, hf, if_pos hamb, Option.some.injEq, Bool.false_eq_true, if_false]
  · cases hfound : f.found with
    | some p =>
        obtain ⟨i, o⟩ := p
        refine (found_local r text i o).congr fun rest => ?_
        simp only [Rules.longOutcome, hf, if_neg hamb, hfound, Option.some.injEq, decide_eq_true_eq]
    | none =>
        refine .const fun rest => ?_
        simp only [Rules.longOutcome, hf, if_neg hamb, hfound]
        cases shortToo <;> rfl

/-- `-W`. -/
theorem w_local (r : Rules) (table : List LongOption) (optchar : Int) (t : Text) :
    Local fun rest => (r.wOutcome table rest optchar t, r.wTakes table rest t) := by
  by_cases ht : t = []
  · refine (Local.cons (missing_char (badarg r.options) optchar (.char optchar))
      fun e => long_local r table e false).congr fun rest => ?_
    rw [Rules.wOutcome.eq_def, Rules.wTakes.eq_def, if_neg (not_not.mpr ht),
      if_neg (not_not.mpr ht)]
    cases rest <;> rfl
  · refine (long_local r table t false).congr fun rest => ?_
    rw [Rules.wOutcome.eq_def, Rules.wTakes.eq_def, if_pos ht, if_pos ht]

/-- A letter of the option string. -/
theorem known_local (r : Rules) (optchar : Int) (oli t : Text) :
    Local fun rest => (r.knownOutcome rest optchar oli t, Rules.knownTakes rest oli t 0) := by
  by_cases hcolon : deref oli.tail = colon
  · by_cases hself : t ≠ [] ∨ deref oli.tail.tail = colon
    · refine .const fun rest => ?_
      rw [Rules.knownOutcome.eq_def, Rules.knownOutcome.eq_def, Rules.knownTakes, Rules.knownTakes,
        if_pos hself, if_pos hself]
      by_cases ht : t = []
      · simp only [hself.resolve_left (not_not.mpr ht), if_true]
      · simp only [if_pos ht]
    · refine (Local.next (missing_char (badarg r.options) optchar (.char optchar))
        fun e => .option optchar (some e)).congr fun rest => ?_
      rewrite [Rules.knownOutcome.eq_def, Rules.knownTakes, if_neg (not_not.mpr hcolon),
        if_neg (not_not.mpr hcolon), if_neg hself, if_neg fun ht => hself (Or.inl ht),
        if_neg fun hopt => hself (Or.inr hopt)]
      cases rest <;> rfl
  · refine .const fun rest => ?_
    rw [Rules.knownOutcome.eq_def, Rules.knownOutcome.eq_def, Rules.knownTakes, Rules.knownTakes,
      if_pos hcolon, if_pos hcolon, if_pos hcolon, if_pos hcolon]

/-- A letter. -/
theorem letter_local (r : Rules) (h : Host) (ch : Letter) (t : Text) :
    Local fun rest => (r.letterOutcome h rest ch t, r.letterTakes rest ch t 0) := by
  cases hfind : (if ch.val = colon then none else strchr r.options ch.val) with
  | none =>
      refine .const fun rest => ?_
      simp only [Rules.letterOutcome, Rules.letterTakes, hfind]
  | some oli =>
      have hknown := known_local r (h.toInt ch.val) oli t
      cases hr : r.table with
      | none =>
          refine hknown.congr fun rest => ?_
          simp only [Rules.letterOutcome, Rules.letterTakes, hfind, hr]
      | some table =>
          by_cases hw : ch.val = 87 ∧ deref oli.tail = 59
          · refine (w_local r table (h.toInt ch.val) t).congr fun rest => ?_
            simp only [Rules.letterOutcome, Rules.letterTakes, hfind, hr, if_pos hw]
          · refine hknown.congr fun rest => ?_
            simp only [Rules.letterOutcome, Rules.letterTakes, hfind, hr, if_neg hw]

/-- **An option** shows what it does because of the elements that it takes. -/
theorem place_local (r : Rules) (h : Host) (off : Nat) (ch : Letter) (t : Text) :
    Local fun rest => (r.placeOutcome h rest off ch t, r.placeTakes rest off ch t 0) := by
  by_cases hnone : off = 0 ∨ r.long ch t = none
  · refine (letter_local r h ch t).congr fun rest => ?_
    rw [placeOutcome_letter hnone, placeTakes_none hnone]
  · obtain ⟨hoff, hlong⟩ := not_or.mp hnone
    obtain ⟨b, hb⟩ := Option.ne_none_iff_exists'.mp hlong
    cases hr : r.table with
    | none =>
        rw [Rules.long, hr] at hb
        cases hb
    | some table =>
        have htakes : ∀ rest, r.placeTakes rest off ch t 0 =
            if r.long ch t = some true then Rules.one rest else 0 := fun rest => by
          rw [Rules.placeTakes, if_neg hoff, hb]
          cases b <;> rfl
        have hlong' := hb
        rw [Rules.long, hr] at hlong'
        dsimp only at hlong'
        by_cases hdash : ch.val = 45
        · rw [if_pos hdash] at hlong'
          refine (long_local r table t false).congr fun rest => ?_
          rw [htakes, placeOutcome_long hoff hb hr, if_pos hdash, hb, hlong']
        · rw [if_neg hdash] at hlong'
          split at hlong'
          · refine (long_local r table (ch :: t)
              (ch.val ≠ colon ∧ (strchr r.options ch.val).isSome)).congr fun rest => ?_
            rw [htakes, placeOutcome_long hoff hb hr, if_neg hdash, hb, hlong']
          · cases hlong'

end Local

/-! ## The second scan -/

/-- What was consumed, with the element that is being read. -/
def Pos.taken (p : Pos) : List Text := p.done ++ p.pend ++ p.curElems

/-- The same place in the vector that the scan leaves: nothing was passed over. -/
def Pos.again (p : Pos) (rest : List Text) : Pos := ⟨p.done ++ p.pend, [], [], p.cur, rest⟩

section Again

variable {r : Rules} {h : Host} {m : Mode} {p p' q : Pos} {o : Outcome} {os : List Outcome}
  {e t : Text} {off : Nat} {ch : Letter} {done skipped pend rest : List Text}

/-- What an option shows and takes in front of the elements that it takes and any others. -/
theorem place_eq {k : Nat} (ho : ¬ (r.placeOutcome h rest off ch t).Missing)
    (hk : r.placeTakes rest off ch t 0 = k) (behind : List Text) :
    r.placeOutcome h (rest.take k ++ behind) off ch t = r.placeOutcome h rest off ch t ∧
      r.placeTakes (rest.take k ++ behind) off ch t 0 = k := by
  have heq := place_local r h off ch t rest ho behind
  dsimp only at heq
  rw [hk] at heq
  exact Prod.mk.inj heq

/-- **One option, again.** -/
theorem option_again (hl : Lawful r .permute p) (hcur : p.cur = some (e, off))
    (hturn : r.optionTurn h p e off ch t = .shows o p') (ho : ¬ o.Missing) :
    ∃ more, p'.taken = p.taken ++ more ∧
      ∀ behind, r.optionTurn h (p.again (more ++ behind)) e off ch t =
        .shows o (p'.again behind) := by
  have hshows : o = r.placeOutcome h p.rest off ch t := by
    obtain ⟨q, hq, -⟩ := optionTurn_shows r h p e off ch t
    rw [hturn] at hq
    exact (Turn.shows.inj hq).1
  rw [hshows] at ho
  by_cases halone : r.alone off ch t = true ∧ t ≠ []
  · rw [Rules.optionTurn, if_pos halone] at hturn
    cases hturn
    refine ⟨[], by simp [Pos.taken, Pos.curElems, hcur], fun behind => ?_⟩
    obtain ⟨hout, -⟩ := place_eq ho (placeTakes_alone halone.1 p.rest 0) behind
    rw [Rules.optionTurn, if_pos halone]
    exact congrArg (Turn.shows · _) hout
  · rw [Rules.optionTurn, if_neg halone] at hturn
    generalize hk : r.placeTakes p.rest off ch t 0 = k at hturn
    cases hturn
    have hle : k ≤ p.rest.length := hk ▸ placeTakes_zero_le ..
    have hlen : (p.rest.take k).length = k := by rw [List.length_take, Nat.min_eq_left hle]
    have htake : ∀ behind, (p.rest.take k ++ behind).take k = p.rest.take k := fun behind => by
      rw [List.take_append_of_le_length (Nat.le_of_eq hlen.symm), List.take_take, Nat.min_self]
    have hdrop : ∀ behind, (p.rest.take k ++ behind).drop k = behind := fun behind => by
      rw [List.drop_append_of_le_length (Nat.le_of_eq hlen.symm), List.drop_eq_nil_of_le
        (Nat.le_of_eq hlen), List.nil_append]
    refine ⟨p.rest.take k, ?_, fun behind => ?_⟩
    · rw [Pos.consume]
      by_cases hskipped : p.skipped = []
      · rw [if_pos hskipped]
        simp [Pos.taken, Pos.curElems, hcur, hl.pend hskipped]
      · rw [if_neg hskipped]
        simp [Pos.taken, Pos.curElems, hcur]
    · obtain ⟨hout, htakes⟩ := place_eq ho hk behind
      rw [Rules.optionTurn, if_neg halone]
      dsimp only [Pos.again]
      rw [hout, htakes, htake, hdrop]
      refine congrArg (Turn.shows _) ?_
      rw [Pos.consume, Pos.consume, if_pos rfl]
      by_cases hskipped : p.skipped = []
      · rw [if_pos hskipped, hl.pend hskipped]
        simp
      · rw [if_neg hskipped]
        simp

/-- In front of operands only, both kinds of scan end. -/
theorem turnAt_operands (hm : m ≠ .allargs) :
    ∀ {es done skipped : List Text}, (∀ e ∈ es, isOperand r.options e = true) →
      (m = .permute ∨ skipped = []) →
      r.turnAt h m done skipped [] es = .ends (.finish done (skipped ++ es)) := by
  intro es
  induction es with
  | nil =>
      intro done skipped _ _
      simp [Rules.turnAt]
  | cons e es ih =>
      intro done skipped hall hmode
      have hop := hall e List.mem_cons_self
      rw [Rules.turnAt.eq_def]
      dsimp only
      rw [if_pos hop]
      cases m with
      | permute =>
          have := @ih (done ++ []) (skipped ++ [e])
            (fun x hx => hall x (List.mem_cons_of_mem _ hx)) (Or.inl rfl)
          simpa using this
      | stop =>
          rw [hmode.resolve_left (by decide)]
          rfl
      | allargs => exact absurd rfl hm

/-- **A call that shows something, again.** -/
theorem turnAt_again : ∀ {rest done skipped pend : List Text},
    Lawful r .permute ⟨done, skipped, pend, none, rest⟩ →
    r.turnAt h .permute done skipped pend rest = .shows o p' → ¬ o.Missing →
    ∃ more, p'.taken = done ++ pend ++ more ∧ ∀ behind,
      r.turn h m (.finish (done ++ pend) (more ++ behind)) = .shows o (p'.again behind) := by
  intro rest
  induction rest with
  | nil =>
      intro done skipped pend _ hturn
      cases hturn
  | cons e es ih =>
      intro done skipped pend hl hturn ho
      cases hop : isOperand r.options e with
      | true =>
          rw [turnAt_pass hop] at hturn
          have := ih (hl.pass hop) hturn ho
          rwa [List.append_nil] at this
      | false =>
          obtain ⟨off, ch, t, ht, henter⟩ := turn_shows_enter hop hturn
          have hoff : e.drop off ≠ [] := by rw [ht]; exact List.cons_ne_nil ch t
          have hl' : Lawful r .permute ⟨done, skipped, pend, some (e, off), es⟩ :=
            ⟨hl.operands, hl.mode, hl.pend, fun e' off' hcur => by cases hcur; exact hoff⟩
          obtain ⟨more, htaken, hagain⟩ := option_again hl' rfl
            ((henter h .permute done skipped pend es).symm.trans hturn) ho
          refine ⟨e :: more, ?_, fun behind => ?_⟩
          · rw [htaken]
            simp [Pos.taken, Pos.curElems]
          · exact (henter ..).trans (hagain behind)

/-- **The call that ends the scan, again.** -/
theorem turnAt_end_again (hm : m ≠ .allargs) : ∀ {rest done skipped pend : List Text},
    Lawful r .permute ⟨done, skipped, pend, none, rest⟩ →
    r.turnAt h .permute done skipped pend rest = .ends q →
    ∃ more behind, q = .finish (done ++ pend ++ more) behind ∧
      r.turn h m (.finish (done ++ pend) (more ++ behind)) = .ends q := by
  intro rest
  induction rest with
  | nil =>
      intro done skipped pend hl hturn
      cases hturn
      exact ⟨[], skipped, by rw [List.append_nil], turnAt_operands hm hl.operands (Or.inr rfl)⟩
  | cons e es ih =>
      intro done skipped pend hl hturn
      cases hop : isOperand r.options e with
      | true =>
          rw [turnAt_pass hop] at hturn
          have := ih (hl.pass hop) hturn
          rwa [List.append_nil] at this
      | false =>
          cases hdashes : isDashes e with
          | true =>
              rw [turnAt_dashes hop hdashes] at hturn
              cases hturn
              refine ⟨[e], skipped ++ es, rfl, ?_⟩
              have := @turnAt_dashes r h m e (done ++ pend) [] [] hop hdashes (skipped ++ es)
              rwa [List.append_nil] at this
          | false =>
              obtain ⟨off, hoff, -, henter⟩ := turn_enter hop hdashes
              obtain ⟨ch, t, ht⟩ := List.exists_cons_of_ne_nil hoff
              have hletters := (henter h .permute done skipped pend es).trans (turn_letter rfl ht)
              obtain ⟨p', hp', -⟩ :=
                optionTurn_shows r h ⟨done, skipped, pend, some (e, off), es⟩ e off ch t
              cases hturn.symm.trans (hletters.trans hp')

/-- **A scan, again**: it shows the same in front of what the first scan left, and ends there. -/
theorem plays_again (hm : m ≠ .allargs) (hp : r.Plays h .permute p os q) :
    Lawful r .permute p → (∀ o ∈ os, ¬ o.Missing) →
      ∃ more behind, q = .finish (p.taken ++ more) behind ∧
        r.Plays h m (p.again (more ++ behind)) os q := by
  induction hp with
  | @ends p q hturn =>
      intro hl _
      cases hcur : p.cur with
      | none =>
          rw [Rules.turn, hcur] at hturn
          obtain ⟨more, behind, hq, hagain⟩ := turnAt_end_again hm
            ⟨hl.operands, hl.mode, hl.pend, fun _ _ hcur => by cases hcur⟩ hturn
          refine ⟨more, behind, ?_, .ends ?_⟩
          · rw [hq]
            simp [Pos.taken, Pos.curElems, hcur]
          · rw [Pos.again, hcur]
            exact hagain
      | some x =>
          obtain ⟨e, off⟩ := x
          obtain ⟨ch, t, ht⟩ := List.exists_cons_of_ne_nil (hl.cur e off hcur)
          obtain ⟨p', hp', -⟩ := optionTurn_shows r h p e off ch t
          cases hturn.symm.trans ((turn_letter hcur ht).trans hp')
  | @shows p p' q o os hturn _ ih =>
      intro hl hmissing
      have hl' := turn_lawful (h := h) hl
      rw [hturn] at hl'
      obtain ⟨more', behind, hq, hplays⟩ := ih hl' fun o ho =>
        hmissing o (List.mem_cons_of_mem _ ho)
      have ho := hmissing o List.mem_cons_self
      have hone : ∃ more, p'.taken = p.taken ++ more ∧ ∀ behind,
          r.turn h m (p.again (more ++ behind)) = .shows o (p'.again behind) := by
        cases hcur : p.cur with
        | none =>
            rw [Rules.turn, hcur] at hturn
            obtain ⟨more, htaken, hagain⟩ := turnAt_again (m := m)
              ⟨hl.operands, hl.mode, hl.pend, fun _ _ hcur => by cases hcur⟩ hturn ho
            refine ⟨more, ?_, fun behind => ?_⟩
            · rw [htaken]
              simp [Pos.taken, Pos.curElems, hcur]
            · rw [Pos.again, hcur]
              exact hagain behind
        | some x =>
            obtain ⟨e, off⟩ := x
            obtain ⟨ch, t, ht⟩ := List.exists_cons_of_ne_nil (hl.cur e off hcur)
            obtain ⟨more, htaken, hagain⟩ :=
              option_again hl hcur ((turn_letter hcur ht).symm.trans hturn) ho
            refine ⟨more, htaken, fun behind => ?_⟩
            have hcur' : (p.again (more ++ behind)).cur = some (e, off) := hcur
            exact (turn_letter hcur' ht).trans (hagain behind)
      obtain ⟨more, htaken, hagain⟩ := hone
      refine ⟨more ++ more', behind, ?_, .shows ?_ hplays⟩
      · rw [hq, htaken, List.append_assoc]
      · rw [List.append_assoc]
        exact hagain (more' ++ behind)

end Again

/-! ## Both scans -/

/-- What the caller looks at after a call. -/
def observe (x : Int × State) : Int × Option Text × Int := (x.1, x.2.optarg, x.2.idx)

/-- `getopt_long` or `getopt_long_only`, by a caller that clears `*idx` first. -/
def Rules.cleared (r : Rules) (h : Host) (c : Call) (s : State) : Option (Int × State) :=
  r.call h c { s with idx := -1 }

/-- The caller asks for another scan. -/
def State.rewind (s : State) : State := { s with optreset := 1, optind := 1 }

/-- `+`. -/
def plus : Letter := ⟨43, by decide⟩

/-- A scan of what another one left shows the same, and leaves the vector and `optind` as they
were. -/
def SameAgain (h : Host) (c : Call) (r : Rules) (rets : List (Int × State)) (last : State) : Prop :=
  ∃ fuel rets' last', scan (r.cleared h c) fuel last.rewind = some (rets', last') ∧
    rets'.map observe = rets.map observe ∧ last'.nargv = last.nargv ∧ last'.optind = last.optind

/-- The first scan shows these outcomes, and a second one shows the same, with the option string
as it is and with `+` in front of it. -/
def Rescans (h : Host) (c : Call) (r : Rules) (s : State) (os : List Outcome) : Prop :=
  ∃ fuel rets last, scan (r.cleared h c) fuel s = some (rets, last) ∧
    List.Forall₂ Showed os rets ∧ SameAgain h c r rets last ∧
    SameAgain h { c with options := some (plus :: r.options) } r rets last

/-- What is seen of an outcome by a caller that clears `*idx`. -/
structure Observed (hasIdx : Bool) (o : Outcome) (x : Int × State) : Prop extends Showed o x where
  idx : x.2.idx = match o.index with
    | some i => if hasIdx then (i : Int) else -1
    | none => -1

section Rescan

variable {h : Host} {c : Call} {r : Rules} {m : Mode} {prog : Text} {p q : Pos} {s last : State}
  {os : List Outcome} {options : Text} {es : List Text} {rets : List (Int × State)}

theorem observe_eq {hasIdx : Bool} (hall : List.Forall₂ (Observed hasIdx) os rets) :
    rets.map observe = os.map fun o => (o.rc, o.optarg, match o.index with
      | some i => if hasIdx then (i : Int) else -1
      | none => -1) := by
  induction hall with
  | nil => rfl
  | cons ho _ ih => exact congrArg₂ List.cons (by rw [observe, ho.rc, ho.optarg, ho.idx]) ih

/-- The call that the rules are for, with the option string that it passes. -/
structure Passes (h : Host) (c : Call) (r : Rules) (m : Mode) (options : Text) : Prop where
  string : c.options = some options
  skip : skipMode options = r.options
  mode : modeOf h ⟨true, false, r.longonly⟩ options = m
  reads : Reads c r

theorem Passes.rules (hp : Passes h c r m options) :
    rulesOf c ⟨true, false, r.longonly⟩ options = r := by
  rw [rulesOf, hp.skip, hp.reads.table]

theorem Matches.observed {u : Turn} {rc : Int} {s' : State}
    (hm : Matches h c r prog u rc { s with idx := -1 } s') :
    Observed c.hasIdx u.outcome (rc, s') where
  toShowed := hm.showed
  idx := hm.shows.idx

theorem cleared_follows (hp : Passes h c r m options) :
    Follows h c r m prog (Observed c.hasIdx) (r.cleared h c) := fun p s ha hl => by
  have hreads : Reads c (rulesOf c ⟨true, false, r.longonly⟩ options) := by
    rw [hp.rules]
    exact hp.reads
  have hat : At h c prog p { s with idx := -1 } := { ha with }
  have hcall := internal_turn hp.string hreads hat (hp.mode ▸ hl.mode)
  rw [hp.rules, hp.mode] at hcall
  obtain ⟨rc, s', hcall, hmatches⟩ := hcall
  exact ⟨rc, s', (call_eq r h c _).trans hcall, hmatches.rc, hmatches.observed, hmatches.at_⟩

theorem cleared_rewind (hp : Passes h c r m options) (hnargc : c.nargc = last.nargv.length)
    (hnargv : last.nargv = prog :: es) :
    Steps h c r m prog (Observed c.hasIdx) (r.cleared h c) (.begin es) last.rewind := by
  have hreads : Reads c (rulesOf c ⟨true, false, r.longonly⟩ options) := by
    rw [hp.rules]
    exact hp.reads
  have hcall := internal_restart (h := h) (s := { last.rewind with idx := -1 }) (i := 1)
    hp.string hreads hnargc hnargv ⟨Or.inr ⟨Int.one_ne_zero, rfl⟩, Nat.one_pos⟩
    (by
      rw [show ({ last.rewind with idx := -1 } : State).nargv = last.nargv from rfl, hnargv]
      simp)
  rw [hp.rules, hp.mode] at hcall
  obtain ⟨rc, s', hcall, hmatches⟩ := hcall
  exact ⟨rc, s', (call_eq r h c _).trans hcall, hmatches.rc, hmatches.observed, hmatches.at_⟩

/-- The option string as it is. -/
theorem passes_plain (ha : Agrees h c r) (hplain : Plain r.options)
    (henv : h.posixlyCorrect = false) : Passes h c r .permute r.options where
  string := ha.options
  skip := if_neg (not_or.mpr hplain)
  mode := by
    have hposix : ¬ (h.posix ≠ 0 ∨ deref r.options = 43) := by
      rw [Host.posix, henv]
      exact not_or.mpr ⟨not_not.mpr rfl, hplain.1⟩
    rw [modeOf, modeFlags, if_neg hplain.2, if_neg hposix]
    rfl
  reads := ha.reads

/-- The option string with `+` in front. -/
theorem passes_plus (h : Host) (hr : Reads c r) :
    Passes h { c with options := some (plus :: r.options) } r .stop (plus :: r.options) where
  string := rfl
  skip := if_pos (Or.inl rfl)
  mode := by
    have hdash : ¬ deref (plus :: r.options) = 45 := by
      show ¬ (43 : UInt8) = 45
      decide
    have hplus : h.posix ≠ 0 ∨ deref (plus :: r.options) = 43 := Or.inr rfl
    rw [modeOf, modeFlags, if_neg hdash, if_pos hplus]
    rfl
  reads := ⟨hr.table, hr.val⟩

/-- No turn shows the -1 that ends a scan, if no letter reads as that. -/
theorem turnAt_rc_ne (ha : Agrees h c r) (m : Mode) : ∀ {rest done skipped pend : List Text}
    {o : Outcome}, r.turnAt h m done skipped pend rest = .shows o q → o.rc ≠ -1 := by
  intro rest
  induction rest with
  | nil =>
      intro done skipped pend o hturn
      cases hturn
  | cons e es ih =>
      intro done skipped pend o hturn
      cases hop : isOperand r.options e with
      | true =>
          rw [Rules.turnAt.eq_def] at hturn
          dsimp only at hturn
          rw [if_pos hop] at hturn
          cases m with
          | permute => exact ih hturn
          | stop => cases hturn
          | allargs =>
              cases hturn
              exact show (1 : Int) ≠ -1 by decide
      | false =>
          obtain ⟨off, ch, t, ht, henter⟩ := turn_shows_enter hop hturn
          obtain ⟨p', hp', -⟩ :=
            optionTurn_shows r h ⟨done, skipped, pend, some (e, off), es⟩ e off ch t
          cases hturn.symm.trans ((henter h m done skipped pend es).trans hp')
          exact placeOutcome_rc_ne ha es off ch t

theorem plays_rc_ne (ha : Agrees h c r) (hp : r.Plays h m p os q) : ∀ o ∈ os, o.rc ≠ -1 := by
  induction hp with
  | ends => exact fun o ho => absurd ho List.not_mem_nil
  | @shows p p' q o os hturn _ ih =>
      intro o' ho
      rcases List.mem_cons.mp ho with rfl | ho
      · cases hcur : p.cur with
        | none =>
            rw [Rules.turn, hcur] at hturn
            exact turnAt_rc_ne ha m hturn
        | some x =>
            obtain ⟨e, off⟩ := x
            obtain ⟨ch, t, -, hletter⟩ := turn_shows_letter hcur hturn
            obtain ⟨p'', hp'', -⟩ := optionTurn_shows r h p e off ch t
            cases hletter.symm.trans hp''
            exact placeOutcome_rc_ne ha p.rest off ch t
      · exact ih o' ho

/-- **A second scan** from where the first one began. -/
theorem again_same (ha : Agrees h c r) {c' : Call} (hp : Passes h c' r m options)
    (hnargc : c'.nargc = last.nargv.length) (hidx : c'.hasIdx = c.hasIdx)
    (hnargv : last.nargv = prog :: es) (hplays : r.Plays h m (.begin es) os q)
    (helements : q.elements = es) (hoptind : last.optind = (q.index : Int))
    (hall : List.Forall₂ (Observed c.hasIdx) os rets) : SameAgain h c' r rets last := by
  obtain ⟨rets', last', hscan, hall', hat⟩ := hplays.scan (cleared_follows hp)
    (cleared_rewind hp hnargc hnargv) (finish_lawful ..) (plays_rc_ne ha hplays)
  rw [hidx] at hall'
  exact ⟨_, rets', last', hscan, (observe_eq hall').trans (observe_eq hall).symm,
    by rw [hat.nargv, helements, hnargv], by rw [hat.optind, hoptind]⟩

/-- A vector without a program's name is left alone again. -/
theorem again_empty (hp : Passes h c r m options) (hnargc : c.nargc = 0)
    (hoptind : last.optind = 1) : SameAgain h c r [] last := by
  obtain ⟨last', hcall, hnargv', hoptind', -⟩ := @internal_empty h c
    { last.rewind with idx := -1 } ⟨true, false, r.longonly⟩ _ hp.string hnargc rfl
    (Or.inl Int.one_ne_zero)
  have hscan : scan (r.cleared h c) 1 last.rewind = some ([], last') := by
    rw [scan, Rules.cleared, call_eq, hcall]
    rfl
  exact ⟨1, [], last', hscan, rfl, hnargv', hoptind'.trans hoptind.symm⟩

/-- **Permuting is idempotent**, and the options seen do not depend on how operands were mixed
among them. -/
theorem rescan_same (ha : Agrees h c r) (hplain : Plain r.options) (henv : h.posixlyCorrect = false)
    (hfresh : Fresh s) (hnargc : c.nargc = s.nargv.length)
    (hplays : r.Plays h .permute (.begin s.nargv.tail) os q) (hmissing : ∀ o ∈ os, ¬ o.Missing) :
    Rescans h c r s os := by
  have hpass := passes_plain ha hplain henv
  have hpass' := passes_plus h ha.reads
  cases hargs : s.nargv with
  | nil =>
      rw [hargs] at hplays
      obtain rfl : os = [] := by
        cases hplays with
        | ends => rfl
        | shows hturn => cases hturn
      have hzero : c.nargc = 0 := by rw [hnargc, hargs]; rfl
      obtain ⟨last, hcall, -, hoptind, -⟩ := @internal_empty h c
        { s with idx := -1 } ⟨true, false, r.longonly⟩ _ ha.options hzero
        hfresh.optind (Or.inr ⟨by rw [hfresh.place]; rfl, hfresh.nonoptStart, hfresh.nonoptEnd⟩)
      have hscan : scan (r.cleared h c) 1 s = some ([], last) := by
        rw [scan, Rules.cleared, call_eq, hcall]
        rfl
      exact ⟨1, [], last, hscan, .nil, again_empty hpass hzero hoptind,
        again_empty hpass' hzero hoptind⟩
  | cons prog args =>
      rw [hargs] at hplays
      have hbegin := hfresh.at_begin (h := h) (c := c) hnargc hargs
      have hlawful : Lawful r .permute (.begin args) := finish_lawful ..
      obtain ⟨rets, last, hscan, hall, hat⟩ := hplays.scan (cleared_follows hpass)
        (cleared_follows hpass _ _ hbegin hlawful) hlawful (plays_rc_ne ha hplays)
      have hagain : ∀ {m : Mode}, m ≠ .allargs →
          r.Plays h m (.begin q.elements) os q := fun {m} hm => by
        obtain ⟨more, behind, hq, hplays'⟩ := plays_again hm hplays hlawful hmissing
        rw [hq] at hplays' ⊢
        simpa [Pos.elements, Pos.finish, Pos.begin, Pos.again, Pos.taken, Pos.curElems]
          using hplays'
      refine ⟨_, rets, last, hscan, hall.imp fun _ _ ho => ho.toShowed, ?_, ?_⟩
      · exact again_same ha hpass hat.nargc rfl hat.nargv (hagain (by decide)) rfl hat.optind hall
      · exact again_same ha hpass' hat.nargc rfl hat.nargv (hagain (by decide)) rfl hat.optind hall

/-- `-a`, `-b y` and `--long w`. -/
def sampleOutcomes : List Outcome :=
  [.option 97 none, .option 98 (some (textOf [121])), ⟨108, some (textOf [119]), some 0, none⟩]

/-- `prog x -ab y z --long w -- -a`, scanned twice. -/
theorem rescan_same_sample :
    Rescans signedHost sampleCall sampleRules (freshState sampleArgs) sampleOutcomes := by
  refine rescan_same sample_agrees (by decide) rfl (freshState_fresh _) rfl
    (.shows rfl (.shows rfl (.shows rfl (.ends rfl)))) fun o ho => ?_
  have hnone : ∀ o ∈ sampleOutcomes, o.error = none := by decide
  intro h
  obtain ⟨v, m, herror, -⟩ := h
  rw [hnone o ho] at herror
  cases herror

/-- The option string is the byte 0xFF, and the table is empty. -/
def byteTable : Rules := { byteRules with table := some [] }

def byteTableCall : Call := { byteCall with longOptions := some [] }

/-- What the first call leaves. -/
def byteLast : State :=
  { freshState byteArgs with
    optind := 3
    place := .inside (textOf [45, 255]) 2
    nonoptStart := 1
    nonoptEnd := 2
    posixlyCorrect := 0
    idx := -1 }

/-- **An option letter that reads as -1** ends the first scan behind the operand, and the second
one, with `+`, in front of it. -/
theorem rescan_differs_at_byte :
    Plain byteTable.options ∧ (∀ table, byteTable.table = some table → ∀ o ∈ table, o.val ≠ -1) ∧
      signedHost.posixlyCorrect = false ∧ Fresh (freshState byteArgs) ∧
      byteTableCall.nargc = (freshState byteArgs).nargv.length ∧
      scan (byteTable.cleared signedHost byteTableCall) 1 (freshState byteArgs) =
        some ([], byteLast) ∧
      ¬ SameAgain signedHost { byteTableCall with options := some (plus :: byteTable.options) }
        byteTable [] byteLast := by
  refine ⟨by decide, fun table htable => ?_, rfl, freshState_fresh _, rfl, rfl, ?_⟩
  · cases htable
    decide
  intro h
  obtain ⟨fuel, rets', last', hscan, -, -, hoptind⟩ := h
  have hcall : (byteTable.cleared signedHost
      { byteTableCall with options := some (plus :: byteTable.options) } byteLast.rewind).map
      (fun x => (x.1, x.2.optind)) = some (-1, 1) := by decide
  obtain ⟨⟨rc, s'⟩, hrun, hret⟩ := Option.map_eq_some_iff.mp hcall
  obtain ⟨rfl, hone⟩ := Prod.mk.inj hret
  obtain rfl := scan_at_once hrun hscan
  exact absurd (hone.symm.trans hoptind) (by decide)

end Rescan

end LibrePortable.Getopt
