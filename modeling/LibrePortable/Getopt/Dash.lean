import LibrePortable.Getopt.Rescan

/-!
# Where long options are looked for

The table is only meant to be searched for an argument that starts with `--`. The code
looks at the scanning pointer instead, and this may stand at a `-` inside a cluster of
letters. Two tables make no difference exactly when the scan comes to no such `-`.
-/

namespace LibrePortable.Getopt

/-- `--` with a name behind it. -/
def isLong (e : Text) : Bool :=
  deref e = 45 ∧ deref e.tail = 45 ∧ deref e.tail.tail ≠ 0

/-- `W;`, which makes `-W` a long option. -/
def wLong : Text := [⟨87, by decide⟩, ⟨59, by decide⟩]

/-- What the caller sees of a scan. -/
structure View where
  shown : List (Int × Option Text)
  optind : Int
  nargv : List Text
  deriving DecidableEq

def view (x : List (Int × State) × State) : View :=
  ⟨x.1.map fun y => (y.1, y.2.optarg), x.2.optind, x.2.nargv⟩

/-- `getopt_long`, with this table. -/
def withTable (h : Host) (c : Call) (table : Option (List LongOption)) (s : State) :
    Option (Int × State) :=
  getoptLong h { c with longOptions := table } s

/-- A scan does not depend on the table. -/
def SameTables (h : Host) (c : Call) (s : State) : Prop :=
  ∀ table table' fuel, (scan (withTable h c (some table)) fuel s).map view =
    (scan (withTable h c (some table')) fuel s).map view

namespace Rules

/-- A letter of the option string that reads as the -1 that ends a scan. -/
def minusOne (r : Rules) (h : Host) (ch : Letter) : Bool :=
  (if ch.val = colon then none else strchr r.options ch.val).isSome && decide (h.toInt ch.val = -1)

/-- The letters that are read of a cluster: up to one that takes an argument or reads as -1. -/
def read (r : Rules) (h : Host) : Text → Text
  | [] => []
  | ch :: t => ch :: if r.alone 0 ch t && !r.minusOne h ch then r.read h t else []

/-- The letters of an option element. -/
def letters : Text → Text
  | [d] => [d]
  | e => e.tail

/-- The scan comes to a `-` behind the first of these letters, or else behind them. -/
def meetsFrom (r : Rules) (h : Host) (t : Text) (behind : Bool) : Bool :=
  (r.read h t).tail.any (fun ch => ch.val = 45) || (!(r.read h t).any (r.minusOne h) && behind)

/-- The scan comes to a `-` behind the first letter of an element; the first `k` elements are
arguments. -/
def meetsDash (r : Rules) (h : Host) (m : Mode) : Nat → List Text → Bool
  | _, [] => false
  | k + 1, _ :: es => r.meetsDash h m k es
  | 0, e :: es =>
      if isOperand r.options e then m ≠ .stop && r.meetsDash h m 0 es
      else if isDashes e then false
      else r.meetsFrom h (letters e) (r.meetsDash h m (r.takes es e) es)

end Rules

/-- The rules for an option string without long options. -/
def letterRules (options : Text) : Rules := ⟨skipMode options, none, false⟩

/-- What `getopt_long` does with an operand. -/
def longMode (h : Host) (options : Text) : Mode := modeOf h ⟨true, false, false⟩ options

/-! ## The table is not searched -/

section Unsearched

variable {h : Host} {c : Call} {options e : Text} {s : State} {p : Pos} {prog : Text}
  {table : List LongOption} {off : Nat}

/-- Where the option string has `W`, no `;` follows. -/
theorem no_wLong : ∀ {t oli : Text}, ¬ wLong <:+: t → strchr t 87 = some oli →
    deref oli.tail ≠ 59 := by
  intro t
  induction t with
  | nil =>
      intro oli _ hfind
      rw [strchr, if_neg (by decide)] at hfind
      cases hfind
  | cons c t ih =>
      intro oli hw hfind
      rw [strchr] at hfind
      by_cases hc : c.val = 87
      · rw [if_pos hc] at hfind
        obtain rfl := Option.some.inj hfind
        intro hsemi
        cases t with
        | nil => exact absurd hsemi (show ¬ (0 : UInt8) = 59 by decide)
        | cons d t =>
            refine hw ⟨[], t, ?_⟩
            rw [show c = ⟨87, by decide⟩ from Subtype.ext hc,
              show d = ⟨59, by decide⟩ from Subtype.ext hsemi]
            rfl
      · rw [if_neg hc] at hfind
        exact ih (fun hpart => hw (hpart.trans (List.suffix_cons c t).isInfix)) hfind

/-- A letter is read without the table. -/
theorem shortOption_table (hw : ¬ wLong <:+: options) :
    shortOption h { c with longOptions := some table } options false s =
      shortOption h { c with longOptions := none } options false s := by
  rw [shortOption, shortOption]
  dsimp only
  cases hfind : (if deref s.place.text = colon then none
      else strchr options (deref s.place.text)) with
  | none => rfl
  | some oli =>
      have hnot : ¬ (deref s.place.text = 87 ∧ deref oli.tail = 59) := by
        intro hboth
        obtain ⟨hletter, hsemi⟩ := hboth
        rw [hletter, if_neg (by decide)] at hfind
        exact no_wLong hw hfind hsemi
      dsimp only
      rw [if_neg hnot]
      rfl

/-- The option at the scanning pointer, unless that is a `-` behind the first place. -/
theorem option_table (hw : ¬ wLong <:+: options) (harg : s.arg s.optind = some (some e))
    (hplace : s.place = .inside e 0 ∨ deref s.place.text ≠ 45) :
    option h { c with longOptions := some table } options false s =
      option h { c with longOptions := none } options false s := by
  rw [option, option]
  dsimp only
  rw [harg, Option.bind_some, if_neg, shortOption_table hw]
  intro hboth
  obtain ⟨hne, hdash⟩ := hboth
  rcases hplace with hplace | hplace
  · exact hne e rfl hplace
  · exact hdash.elim hplace Bool.false_ne_true

/-- An option element without a long option. -/
theorem optionElement_table (hw : ¬ wLong <:+: options) (hlong : isLong e = false)
    (hop : isOperand options e = false) (harg : s.arg s.optind = some (some e)) :
    optionElement h { c with longOptions := some table } options false e s =
      optionElement h { c with longOptions := none } options false e s := by
  rw [optionElement, optionElement]
  by_cases hnil : deref e.tail = 0
  · rw [if_neg (not_not.mpr hnil), if_neg (not_not.mpr hnil)]
    exact option_table (s := { s with place := .inside e 0 }) hw harg (Or.inl rfl)
  · rw [if_pos hnil, if_pos hnil]
    by_cases hdashes : deref e.tail = 45 ∧ deref e.tail.tail = 0
    · rw [if_pos hdashes, if_pos hdashes]
    · rw [if_neg hdashes, if_neg hdashes]
      refine option_table (s := { s with place := .inside e 1 }) hw harg (Or.inr fun hdash => ?_)
      -- a `-` behind the first one would make the element a long option
      have hsecond : deref e.tail = 45 := by
        rw [← List.drop_one]
        exact hdash
      have hfirst : deref e = 45 := by
        by_contra hne
        simp [isOperand, hne] at hop
      exact of_decide_eq_false hlong ⟨hfirst, hsecond, fun hend => hdashes ⟨hsecond, hend⟩⟩

/-- **The loop at the label `start`** does not search the table. -/
theorem start_table (hw : ¬ wLong <:+: options) (flags : Flags) (hflags : flags.longonly = false) :
    ∀ {fuel : Nat} {p : Pos} {s : State}, At h c prog p s → p.cur = none →
      (∀ e ∈ p.rest, isLong e = false) →
      start h { c with longOptions := some table } flags options fuel s =
        start h { c with longOptions := none } flags options fuel s := by
  intro fuel
  induction fuel with
  | zero => exact fun _ _ _ => rfl
  | succ fuel ih =>
      intro p s ha hcur hlong
      have hplace := ha.place
      rw [hcur] at hplace
      have hsame : ({ s with optreset := 0 } : State) = s := by rw [← ha.optreset]
      have hshape := ha.shape
      rw [Pos.curElems, hcur] at hshape
      rw [start, start, if_pos (Or.inr hplace), if_pos (Or.inr hplace), hsame, element, element]
      cases hrest : p.rest with
      | nil =>
          rw [hrest] at hshape
          have hend : s.optind ≥ c.nargc := by
            rw [ha.nargc, hshape.optind, hshape.length]
            simp
          rw [if_pos hend, if_pos hend]
      | cons e es =>
          rw [hrest] at hshape hlong
          have hfacing : Facing c s e es := Shape.facing hshape ha.nargc
          have hmore : ¬ s.optind ≥ c.nargc := by
            rw [hfacing.nargc]
            omega
          rw [if_neg hmore, if_neg hmore, hfacing.here]
          dsimp only
          cases hop : isOperand options e with
          | false =>
              have hmark : (markEnd s).arg (markEnd s).optind = some (some e) := by
                rw [markEnd]
                split <;> exact hfacing.here
              rw [hflags]
              exact optionElement_table hw (hlong e List.mem_cons_self) hop hmark
          | true =>
              obtain ⟨s', hskip, -, hat⟩ := skipOperand_turn ha hcur hrest
              rw [if_pos rfl, if_pos rfl, hskip, Option.bind_some, Option.bind_some,
                ih hat rfl fun x hx => hlong x (List.mem_cons_of_mem _ hx)]

/-- No `-` is next inside an element, and no element in front is a long option. -/
structure Away (p : Pos) : Prop where
  cur : ∀ e off, p.cur = some (e, off) → deref (e.drop off) ≠ 45
  rest : ∀ e ∈ p.rest, isLong e = false

/-- **A call** does not search the table. -/
theorem call_table (hoptions : c.options = some options) (hw : ¬ wLong <:+: options)
    (ha : At h c prog p s) (hp : Away p) :
    withTable h c (some table) s = withTable h c none s := by
  have hw' : ¬ wLong <:+: skipMode options := by
    rw [skipMode]
    split
    · exact fun hpart => hw (hpart.trans (List.tail_suffix options).isInfix)
    · exact hw
  have hat : At h c prog p { s with posixlyCorrect := h.posix, optarg := none } :=
    { ha with posixlyCorrect := Or.inr rfl }
  have hstart : ∀ table, withTable h c table s =
      start h { c with longOptions := table } (modeFlags h.posix options ⟨true, false, false⟩)
        (skipMode options) (c.nargc.toNat + 1)
        { s with posixlyCorrect := h.posix, optarg := none } := fun table =>
    internal_start (c := { c with longOptions := table }) hoptions { ha with } ⟨true, false, false⟩
  rw [hstart, hstart]
  cases hcur : p.cur with
  | none =>
      exact start_table hw' (modeFlags h.posix options ⟨true, false, false⟩) (modeFlags_longonly ..)
        hat hcur hp.rest
  | some x =>
      obtain ⟨e, off⟩ := x
      have hplace := ha.place
      rw [hcur] at hplace
      have htext : ¬ (s.optreset ≠ 0 ∨ s.place.text = []) := by
        rw [hplace.1]
        exact not_or.mpr ⟨not_not.mpr ha.optreset, hplace.2⟩
      rw [start, start, if_neg htext, if_neg htext, modeFlags_longonly]
      refine option_table hw' (hat.facing hcur).here (Or.inr ?_)
      show deref s.place.text ≠ 45
      rw [hplace.1]
      exact hp.cur e off hcur

end Unsearched

/-! ## Coming to a `-` -/

section Meets

variable {r : Rules} {h : Host} {m : Mode} {p p' q : Pos} {o : Outcome} {e t : Text} {off : Nat}
  {ch : Letter} {es : List Text}

/-- The scan comes to a `-` from this position on. -/
def Rules.meets (r : Rules) (h : Host) (m : Mode) (p : Pos) : Bool :=
  match p.cur with
  | none => r.meetsDash h m 0 p.rest
  | some (e, off) =>
      deref (e.drop off) = 45 ||
        r.meetsFrom h (e.drop off) (r.meetsDash h m (r.cluster p.rest (e.drop off)) p.rest)

theorem meetsDash_nil (r : Rules) (h : Host) (m : Mode) (k : Nat) :
    r.meetsDash h m k [] = false := by
  cases k <;> rfl

theorem meetsDash_drop (r : Rules) (h : Host) (m : Mode) : ∀ (k : Nat) (es : List Text),
    r.meetsDash h m k es = r.meetsDash h m 0 (es.drop k)
  | 0, _ => rfl
  | _ + 1, [] => rfl
  | k + 1, _ :: es => meetsDash_drop r h m k es

/-- A letter that returns -1 reads as that. -/
theorem minusOne_of_rc (hr : r.table = none) (rest : List Text)
    (hrc : (r.letterOutcome h rest ch t).rc = -1) : r.minusOne h ch = true := by
  rw [Rules.letterOutcome] at hrc
  rw [Rules.minusOne]
  cases hfind : (if ch.val = colon then none else strchr r.options ch.val) with
  | none =>
      rw [hfind] at hrc
      exact absurd hrc badch_ne
  | some oli =>
      rw [hfind, hr] at hrc
      dsimp only at hrc
      have hletter : h.toInt ch.val = -1 := by
        rw [Rules.knownOutcome.eq_def] at hrc
        split at hrc
        · exact hrc
        · split at hrc
          · exact hrc
          · split at hrc
            · exact hrc
            · cases rest with
              | nil => exact absurd hrc (badarg_ne _)
              | cons e es => exact hrc
      rw [hletter]
      rfl

/-- A letter that reads as -1 returns that, unless it takes an argument and there is none. -/
theorem rc_of_minusOne (hr : r.table = none) (rest : List Text) (hone : r.minusOne h ch = true) :
    (r.letterOutcome h rest ch t).rc = -1 ∨ (rest = [] ∧ r.alone 0 ch t = false) := by
  rw [Rules.minusOne, Bool.and_eq_true] at hone
  obtain ⟨hknown, hletter⟩ := hone
  have hletter : h.toInt ch.val = -1 := of_decide_eq_true hletter
  rw [Rules.letterOutcome, Rules.alone]
  cases hfind : (if ch.val = colon then none else strchr r.options ch.val) with
  | none =>
      rw [hfind] at hknown
      cases hknown
  | some oli =>
      rw [hr]
      dsimp only
      rw [Rules.knownOutcome.eq_def]
      by_cases hcolon : deref oli.tail = colon
      · cases rest with
        | nil => exact Or.inr ⟨rfl, by simp [hcolon]⟩
        | cons e es =>
            refine Or.inl ?_
            split
            · exact hletter
            · split
              · exact hletter
              · split <;> exact hletter
      · rw [if_pos hcolon]
        exact Or.inl hletter

/-- What a cluster takes, from its first letter on. -/
theorem cluster_letters (hr : r.table = none) (rest : List Text) (off : Nat) (ch : Letter)
    (t : Text) : r.cluster rest (ch :: t) = r.placeTakes rest off ch t (r.cluster rest t) := by
  have hlong : r.long ch t = none := by rw [Rules.long, hr]
  rw [placeTakes_none (Or.inr hlong), Rules.cluster, hlong]

theorem alone_off (hr : r.table = none) (off : Nat) (ch : Letter) (t : Text) :
    r.alone off ch t = r.alone 0 ch t := by
  have hlong : r.long ch t = none := by rw [Rules.long, hr]
  rw [Rules.alone, Rules.alone, hlong]
  simp

/-- **One option** leads on, or ends the scan. -/
theorem option_meets (hr : r.table = none) (ht : e.drop off = ch :: t)
    (hturn : r.optionTurn h p e off ch t = .shows o p') :
    r.meetsFrom h (ch :: t) (r.meetsDash h m (r.cluster p.rest (ch :: t)) p.rest) =
      (decide (o.rc ≠ -1) && r.meets h m p') := by
  have htail : e.drop (off + 1) = t := by rw [← List.tail_drop, ht, List.tail_cons]
  have hlong : off = 0 ∨ r.long ch t = none := Or.inr (by rw [Rules.long, hr])
  have hout : o = r.letterOutcome h p.rest ch t := by
    obtain ⟨q, hq, -⟩ := optionTurn_shows r h p e off ch t
    rw [hturn, placeOutcome_letter hlong] at hq
    exact (Turn.shows.inj hq).1
  have hread : r.read h (ch :: t) =
      ch :: if r.alone off ch t && !r.minusOne h ch then r.read h t else [] := by
    rw [Rules.read, alone_off hr off]
  rw [Rules.optionTurn] at hturn
  by_cases hone : r.minusOne h ch = true
  · -- the scan ends here
    have hfrom : r.meetsFrom h (ch :: t) (r.meetsDash h m (r.cluster p.rest (ch :: t)) p.rest) =
        false := by
      rw [Rules.meetsFrom, hread, hone]
      simp [hone]
    rw [hfrom, hout]
    rcases rc_of_minusOne hr p.rest hone (t := t) with hrc | ⟨hrest, halone⟩
    · rw [hrc]
      rfl
    · rw [alone_off hr off, halone, if_neg fun hboth => Bool.false_ne_true hboth.1] at hturn
      cases hturn
      rw [Rules.meets.eq_def, consume_cur]
      dsimp only
      rw [consume_rest]
      dsimp only
      rw [hrest, List.drop_nil, meetsDash_nil, Bool.and_false]
  · have hrc : o.rc ≠ -1 := fun hrc => hone (minusOne_of_rc hr p.rest (hout ▸ hrc))
    rw [decide_eq_true hrc, Bool.true_and]
    by_cases halone : r.alone off ch t = true ∧ t ≠ []
    · -- the next letter of the element
      obtain ⟨c, t', rfl⟩ := List.exists_cons_of_ne_nil halone.2
      obtain ⟨more, hmore⟩ : ∃ more, r.read h (c :: t') = c :: more := ⟨_, rfl⟩
      rw [if_pos halone] at hturn
      cases hturn
      rw [Rules.meets.eq_def]
      dsimp only
      rw [htail, Rules.meetsFrom, Rules.meetsFrom, hread, halone.1, Bool.eq_false_iff.mpr hone,
        cluster_letters hr p.rest off, placeTakes_alone halone.1, hmore]
      simp [deref, Bool.eq_false_iff.mpr hone, Bool.or_assoc]
      rfl
    · -- the element is done with
      rw [if_neg halone] at hturn
      have hnone : (if r.alone off ch t && !r.minusOne h ch then r.read h t else []) = [] := by
        by_cases hnil : t = []
        · rw [hnil]
          split <;> rfl
        · rw [Bool.eq_false_iff.mpr fun ha => halone ⟨ha, hnil⟩]
          rfl
      have htakes : r.cluster p.rest (ch :: t) = r.placeTakes p.rest off ch t 0 := by
        rw [cluster_letters hr p.rest off]
        by_cases hnil : t = []
        · rw [hnil]
          rfl
        · exact placeTakes_const (Bool.eq_false_iff.mpr fun ha => halone ⟨ha, hnil⟩) ..
      cases hturn
      rw [Rules.meets.eq_def, consume_cur]
      dsimp only
      rw [consume_rest, Rules.meetsFrom, hread, hnone, htakes, meetsDash_drop]
      simp [Bool.eq_false_iff.mpr hone]

/-- The letters of an element, from the place where its first one stands. -/
theorem letters_eq (hoff : e.drop off ≠ []) (hplace : off = 0 ∧ e.tail = [] ∨ off = 1) :
    Rules.letters e = e.drop off := by
  match e, hoff, hplace with
  | [], hoff, _ => exact absurd List.drop_nil hoff
  | [d], hoff, hplace =>
      rcases hplace with ⟨rfl, -⟩ | rfl
      · rfl
      · exact absurd rfl hoff
  | d :: ch :: t, _, hplace =>
      rcases hplace with ⟨-, hnil⟩ | rfl
      · exact absurd hnil (List.cons_ne_nil _ _)
      · rfl

theorem takes_letters (hr : r.table = none) (rest : List Text) :
    ∀ e : Text, r.takes rest e = r.cluster rest (Rules.letters e)
  | [] => rfl
  | [dash] => by
      rw [Rules.letters, cluster_letters hr rest 0]
      exact (if_pos rfl).symm
  | _ :: _ :: _ => rfl

/-- **A call that looks at the next element** leads on, or ends the scan. -/
theorem turnAt_meets (hr : r.table = none) :
    ∀ {rest done skipped pend : List Text}, r.meetsDash h m 0 rest =
      match r.turnAt h m done skipped pend rest with
      | .ends _ => false
      | .shows o p' => decide (o.rc ≠ -1) && r.meets h m p' := by
  intro rest
  induction rest with
  | nil => exact rfl
  | cons e es ih =>
      intro done skipped pend
      rw [Rules.meetsDash]
      cases hop : isOperand r.options e with
      | true =>
          rw [if_pos rfl]
          cases m with
          | permute =>
              rw [turnAt_pass hop, ← ih]
              simp
          | stop => simp [Rules.turnAt, hop]
          | allargs =>
              have hrc : inorder ≠ -1 := by decide
              simp [Rules.turnAt, hop, Rules.meets, Outcome.option, hrc]
      | false =>
          rw [if_neg Bool.false_ne_true]
          cases hdashes : isDashes e with
          | true => rw [if_pos rfl, turnAt_dashes hop hdashes]
          | false =>
              obtain ⟨off, hoff, hplace, henter⟩ := turn_enter hop hdashes
              obtain ⟨ch, t, ht⟩ := List.exists_cons_of_ne_nil hoff
              have hturn : r.turnAt h m done skipped pend (e :: es) =
                  r.optionTurn h ⟨done, skipped, pend, some (e, off), es⟩ e off ch t :=
                (henter h m done skipped pend es).trans (turn_letter rfl ht)
              obtain ⟨q, hq, -⟩ :=
                optionTurn_shows r h ⟨done, skipped, pend, some (e, off), es⟩ e off ch t
              have hmeets := option_meets (m := m) hr ht hq
              rw [if_neg Bool.false_ne_true, takes_letters hr, letters_eq hoff hplace, ht, hturn,
                hq]
              exact hmeets

/-- **A call** leads on, or ends the scan, unless a `-` is next. -/
theorem turn_meets (hr : r.table = none) (hl : Lawful r m p) (hp : Away p) :
    r.meets h m p =
      match r.turn h m p with
      | .ends _ => false
      | .shows o p' => decide (o.rc ≠ -1) && r.meets h m p' := by
  cases hcur : p.cur with
  | none =>
      rw [Rules.meets, hcur, Rules.turn, hcur]
      exact turnAt_meets hr
  | some x =>
      obtain ⟨e, off⟩ := x
      obtain ⟨ch, t, ht⟩ := List.exists_cons_of_ne_nil (hl.cur e off hcur)
      obtain ⟨q, hq, -⟩ := optionTurn_shows r h p e off ch t
      have hmeets := option_meets (m := m) hr ht hq
      rw [turn_letter hcur ht, hq, Rules.meets, hcur]
      dsimp only
      rw [decide_eq_false (hp.cur e off hcur), Bool.false_or, ht]
      exact hmeets

/-- What a scan keeps on its way: no first letter is passed over, and no element is a long
option. -/
structure Clean (p : Pos) : Prop where
  cur : ∀ e off, p.cur = some (e, off) → off ≠ 0
  rest : ∀ e ∈ p.rest, isLong e = false

theorem Clean.away (hc : Clean p) (hmeets : r.meets h m p = false) : Away p := by
  refine ⟨fun e off hcur hdash => ?_, hc.rest⟩
  rw [Rules.meets, hcur] at hmeets
  dsimp only at hmeets
  rw [decide_eq_true hdash] at hmeets
  cases hmeets

theorem option_clean (hc : ∀ e ∈ p.rest, isLong e = false) :
    Clean (r.optionTurn h p e off ch t).pos := by
  rw [Rules.optionTurn]
  dsimp only
  split
  · exact ⟨fun e' off' hcur => by cases hcur; exact Nat.succ_ne_zero off, hc⟩
  · refine ⟨fun e' off' hcur => ?_, fun x hx => ?_⟩
    · rw [Turn.pos, consume_cur] at hcur
      cases hcur
    · rw [Turn.pos, consume_rest] at hx
      exact hc x (List.mem_of_mem_drop hx)

theorem turnAt_clean : ∀ {rest done skipped pend : List Text}, (∀ e ∈ rest, isLong e = false) →
    r.turnAt h m done skipped pend rest = .shows o p' → Clean p' := by
  intro rest
  induction rest with
  | nil =>
      intro done skipped pend _ hturn
      cases hturn
  | cons e es ih =>
      intro done skipped pend hlong hturn
      have hlong' : ∀ x ∈ es, isLong x = false := fun x hx => hlong x (List.mem_cons_of_mem _ hx)
      cases hop : isOperand r.options e with
      | true =>
          cases m with
          | permute => exact ih hlong' ((turnAt_pass hop es).symm.trans hturn)
          | stop => simp [Rules.turnAt, hop] at hturn
          | allargs =>
              rw [Rules.turnAt.eq_def] at hturn
              dsimp only at hturn
              rw [if_pos hop] at hturn
              cases hturn
              refine ⟨fun e' off' hcur => ?_, fun x hx => ?_⟩
              · rw [consume_cur] at hcur
                cases hcur
              · rw [consume_rest] at hx
                exact hlong' x hx
      | false =>
          obtain ⟨off, ch, t, ht, henter⟩ := turn_shows_enter hop hturn
          have hclean := @option_clean r h
            ⟨done, skipped, pend, some (e, off), es⟩ e t off ch hlong'
          rwa [← henter h m, show r.turn h m ⟨done, skipped, pend, none, e :: es⟩ = .shows o p'
            from hturn] at hclean

theorem turn_clean (hc : Clean p) (hturn : r.turn h m p = .shows o p') : Clean p' := by
  cases hcur : p.cur with
  | none =>
      rw [Rules.turn, hcur] at hturn
      exact turnAt_clean hc.rest hturn
  | some x =>
      obtain ⟨e, off⟩ := x
      obtain ⟨ch, t, -, hletter⟩ := turn_shows_letter hcur hturn
      have hclean := @option_clean r h p e t off ch hc.rest
      rwa [hletter] at hclean

end Meets

/-! ## Scans with two tables -/

section Scans

variable {h : Host} {c : Call} {options : Text} {s : State} {p : Pos} {prog : Text}
  {table : List LongOption}

theorem scan_mono {call : State → Option (Int × State)} : ∀ {fuel fuel' : Nat} {s : State}
    {x : List (Int × State) × State}, scan call fuel s = some x → fuel ≤ fuel' →
    scan call fuel' s = some x := by
  intro fuel
  induction fuel with
  | zero => exact fun hscan => absurd hscan (Option.some_ne_none _).symm
  | succ fuel ih =>
      intro fuel' s x hscan hle
      obtain ⟨fuel', rfl⟩ : ∃ k, fuel' = k + 1 := ⟨fuel' - 1, by omega⟩
      rw [scan] at hscan ⊢
      obtain ⟨⟨rc, s'⟩, hcall, hrest⟩ := Option.bind_eq_some_iff.mp hscan
      rw [hcall, Option.bind_some]
      dsimp only at hrest ⊢
      by_cases hrc : rc = -1
      · rw [if_pos hrc] at hrest ⊢
        exact hrest
      · rw [if_neg hrc] at hrest ⊢
        obtain ⟨y, hy, hx⟩ := Option.map_eq_some_iff.mp hrest
        rw [ih hy (Nat.le_of_succ_le_succ hle), Option.map_some, ← hx]

/-- The calls with a table do what its turns say. -/
theorem table_follows (hoptions : c.options = some options) {t : Option (List LongOption)}
    (hval : ∀ table, t = some table → ∀ o ∈ table, o.val ≠ -1) :
    Follows h { c with longOptions := t } ⟨skipMode options, t, false⟩ (longMode h options) prog
      Showed (withTable h c t) :=
  @internal_follows h { c with longOptions := t } prog ⟨true, false, false⟩ options hoptions
    ⟨rfl, hval⟩

/-- A call without a table, from a position. -/
theorem none_step (hoptions : c.options = some options) (ha : At h c prog p s)
    (hl : Lawful (letterRules options) (longMode h options) p) :
    ∃ rc s', withTable h c none s = some (rc, s') ∧
      rc = ((letterRules options).turn h (longMode h options) p).outcome.rc ∧
      At h c prog ((letterRules options).turn h (longMode h options) p).pos s' := by
  obtain ⟨rc, s', hcall, hrc, -, hat⟩ := @table_follows h c options prog hoptions
    none (fun _ htable => by cases htable) p s { ha with } hl
  exact ⟨rc, s', hcall, hrc, { hat with }⟩

/-- **A scan that comes to no such `-`** is the scan without a table. -/
theorem scan_table (hoptions : c.options = some options) (hw : ¬ wLong <:+: options) :
    ∀ {fuel : Nat} {p : Pos} {s : State}, At h c prog p s →
      Lawful (letterRules options) (longMode h options) p → Clean p →
      (letterRules options).meets h (longMode h options) p = false →
      scan (withTable h c (some table)) fuel s = scan (withTable h c none) fuel s := by
  intro fuel
  induction fuel with
  | zero => exact fun _ _ _ _ => rfl
  | succ fuel ih =>
      intro p s ha hl hc hmeets
      have haway := hc.away hmeets
      obtain ⟨rc, s', hcall, hrc, hat⟩ := none_step hoptions ha hl
      have hstep :=
        turn_meets (m := longMode h options) (h := h) (r := letterRules options) rfl hl haway
      have hlawful := turn_lawful (h := h) hl
      rw [scan, scan, call_table hoptions hw ha haway, hcall, Option.bind_some, Option.bind_some]
      dsimp only
      by_cases hend : rc = -1
      · rw [if_pos hend, if_pos hend]
      · rw [if_neg hend, if_neg hend]
        cases hturn : (letterRules options).turn h (longMode h options) p with
        | ends q =>
            rw [hturn] at hrc
            exact absurd hrc hend
        | shows o p' =>
            rw [hturn] at hrc hat hstep hlawful
            dsimp only at hstep
            have hne : o.rc ≠ -1 := fun ho => hend (hrc.trans ho)
            rw [hmeets, decide_eq_true hne, Bool.true_and] at hstep
            rw [ih hat hlawful (turn_clean hc hturn) hstep.symm]

/-- The calls with a table come to an end. -/
theorem scan_total {r : Rules} {m : Mode} {Φ : Outcome → Int × State → Prop} {c : Call}
    {call : State → Option (Int × State)} (hf : Follows h c r m prog Φ call) :
    ∀ {n : Nat} {p : Pos} {s : State}, p.size = n → At h c prog p s → Lawful r m p →
      ∃ fuel x, scan call fuel s = some x := by
  intro n
  induction n using Nat.strong_induction_on with
  | _ n ih =>
      intro p s hn ha hl
      obtain ⟨rc, s', hcall, hrc, -, hat⟩ := hf p s ha hl
      have hlawful := turn_lawful (h := h) hl
      by_cases hend : rc = -1
      · refine ⟨1, ([], s'), ?_⟩
        rw [scan, hcall]
        exact if_pos hend
      · cases hturn : r.turn h m p with
        | ends q =>
            rw [hturn] at hrc
            exact absurd hrc hend
        | shows o p' =>
            rw [hturn] at hat hlawful
            obtain ⟨fuel, x, hscan⟩ := ih p'.size (hn ▸ turn_size hturn) rfl hat hlawful
            refine ⟨fuel + 1, ((rc, s') :: x.1, x.2), ?_⟩
            rw [scan, hcall, Option.bind_some]
            dsimp only
            rw [if_neg hend, hscan]
            rfl

theorem strncmpEq_take : ∀ {n : Nat} {t : Text}, n ≤ t.length → strncmpEq t (t.take n) n = true
  | 0, [], _ => rfl
  | 0, _ :: _, _ => rfl
  | n + 1, [], hle => absurd hle (Nat.not_succ_le_zero n)
  | n + 1, a :: t, hle => by
      rw [List.take_succ_cons, strncmpEq, strncmpEq_take (Nat.le_of_succ_le_succ hle)]
      simp

/-- A long option of which this text is the name, with an argument perhaps. -/
def entryOf (t : Text) : LongOption := ⟨t.take (splitEqual t).1, optionalArgument, none, 1⟩

theorem splitEqual_le (t : Text) : (splitEqual t).1 ≤ t.length := by
  rw [splitEqual]
  split
  · exact Nat.sub_le _ _
  · exact Nat.le_refl _

/-- The entry is found. -/
theorem entryOf_outcome (r : Rules) (rest : List Text) (t : Text) :
    (r.longOutcome [entryOf t] rest t false).rc = 1 := by
  have hle := splitEqual_le t
  have hname : (entryOf t).name.length = (splitEqual t).1 := by
    rw [entryOf, List.length_take, Nat.min_eq_left hle]
  have hfound : search [entryOf t] t false r.longonly = ⟨some (0, entryOf t), true, false⟩ := by
    have hcmp : strncmpEq t (entryOf t).name (splitEqual t).1 = true := strncmpEq_take hle
    rw [search, findLong, hcmp, if_neg (by decide), if_pos hname]
  have hno : ¬ (entryOf t).hasArg = noArgument := show ¬ optionalArgument = noArgument by decide
  have hreq : ¬ (entryOf t).hasArg = requiredArgument :=
    show ¬ optionalArgument = requiredArgument by decide
  rw [Rules.longOutcome, hfound]
  dsimp only
  rw [if_neg (by decide), Rules.foundOutcome, if_neg fun hboth => hno hboth.1]
  dsimp only
  rw [if_neg fun hboth => hreq hboth.1]
  rfl

/-- What a call shows that meets a `-` inside an element. -/
theorem dash_step (hoptions : c.options = some options) (ha : At h c prog p s)
    (hl : Lawful (letterRules options) (longMode h options) p) (hval : ∀ o ∈ table, o.val ≠ -1)
    {e t : Text} {off : Nat} {ch : Letter} (hcur : p.cur = some (e, off)) (hoff : off ≠ 0)
    (ht : e.drop off = ch :: t) (hdash : ch.val = 45) :
    ∃ fuel rets last s', scan (withTable h c (some table)) fuel s =
      some ((((⟨skipMode options, some table, false⟩ : Rules).longOutcome table p.rest t false).rc,
        s') :: rets, last) := by
  have hreads : ∀ t, some table = some t → ∀ o ∈ t, o.val ≠ -1 := fun t htable => by
    cases htable
    exact hval
  have hf := @table_follows h c options prog hoptions _ hreads
  generalize hr : (⟨skipMode options, some table, false⟩ : Rules) = r at hf
  have htable : r.table = some table := by rw [← hr]
  have hl' : Lawful r (longMode h options) p := by
    rw [← hr]
    exact ⟨hl.operands, hl.mode, hl.pend, hl.cur⟩
  obtain ⟨b, hb⟩ := longTakes_forced table r.longonly t
  have hlong : r.long ch t = some b := by
    rw [Rules.long, htable]
    exact (if_pos hdash).trans hb
  have hout : r.placeOutcome h p.rest off ch t = r.longOutcome table p.rest t false := by
    rw [placeOutcome_long hoff hlong htable, if_pos hdash]
  obtain ⟨q, hq, -⟩ := optionTurn_shows r h p e off ch t
  have hturn := (turn_letter (m := longMode h options) hcur ht).trans hq
  obtain ⟨rc, s', hcall, hrc, -, hat⟩ := hf p s { ha with } hl'
  have hlawful := turn_lawful (h := h) hl'
  rw [hturn] at hrc hat hlawful
  have hrc' : rc = (r.longOutcome table p.rest t false).rc := hrc.trans (congrArg Outcome.rc hout)
  have hne : rc ≠ -1 := hrc' ▸ longOutcome_rc_ne hval r p.rest t false
  obtain ⟨fuel, x, hscan⟩ := scan_total hf rfl hat hlawful
  refine ⟨fuel + 1, x.1, x.2, s', ?_⟩
  rw [scan, hcall, Option.bind_some]
  dsimp only
  rw [if_neg hne, hscan, hrc']
  rfl

/-- **A scan that comes to such a `-`** depends on the table. -/
theorem scan_differs (hoptions : c.options = some options) (hw : ¬ wLong <:+: options) :
    ∀ {n : Nat} {p : Pos} {s : State}, p.size = n → At h c prog p s →
      Lawful (letterRules options) (longMode h options) p → Clean p →
      (letterRules options).meets h (longMode h options) p = true →
      ∃ table fuel, (scan (withTable h c (some [])) fuel s).map view ≠
        (scan (withTable h c (some table)) fuel s).map view := by
  intro n
  induction n using Nat.strong_induction_on with
  | _ n ih =>
      intro p s hn ha hl hc hmeets
      by_cases haway : ∀ e off, p.cur = some (e, off) → deref (e.drop off) ≠ 45
      · -- nothing of the table is seen yet
        have hp : Away p := ⟨haway, hc.rest⟩
        obtain ⟨rc, s', hcall, hrc, hat⟩ := none_step hoptions ha hl
        have hstep :=
          turn_meets (m := longMode h options) (h := h) (r := letterRules options) rfl hl hp
        have hlawful := turn_lawful (h := h) hl
        rw [hmeets] at hstep
        cases hturn : (letterRules options).turn h (longMode h options) p with
        | ends q =>
            rw [hturn] at hstep
            cases hstep
        | shows o p' =>
            rw [hturn] at hrc hat hstep hlawful
            dsimp only at hstep
            obtain ⟨hne, hmeets'⟩ := Bool.and_eq_true_iff.mp hstep.symm
            have hend : rc ≠ -1 := hrc ▸ of_decide_eq_true hne
            obtain ⟨table, fuel, hdiffer⟩ := ih p'.size (hn ▸ turn_size hturn) rfl hat hlawful
              (turn_clean hc hturn) hmeets'
            refine ⟨table, fuel + 1, fun heq => hdiffer ?_⟩
            rw [scan, scan, call_table hoptions hw ha hp, call_table hoptions hw ha hp, hcall,
              Option.bind_some, Option.bind_some] at heq
            dsimp only at heq
            rw [if_neg hend, if_neg hend] at heq
            have hcons : ∀ x : Option (List (Int × State) × State),
                (x.map fun y => ((rc, s') :: y.1, y.2)).map view =
                  (x.map view).map fun v => { v with shown := (rc, s'.optarg) :: v.shown } := by
              rintro (_ | x) <;> rfl
            rw [hcons, hcons] at heq
            refine Option.map_injective (fun v w hvw => ?_) heq
            cases v
            cases w
            obtain ⟨hrets, rfl, rfl⟩ := View.mk.inj hvw
            exact congrArg (View.mk · _ _) (List.cons.inj hrets).2
      · -- here the table is searched for what stands behind the `-`
        simp only [not_forall, not_not] at haway
        obtain ⟨e, off, hcur, hdash⟩ := haway
        obtain ⟨ch, t, ht⟩ := List.exists_cons_of_ne_nil (hl.cur e off hcur)
        rw [ht] at hdash
        have hoff := hc.cur e off hcur
        have hval : ∀ o ∈ [entryOf t], o.val ≠ -1 := fun o ho => by
          rw [List.mem_singleton.mp ho]
          exact show (1 : Int) ≠ -1 by decide
        obtain ⟨fuel, rets, last, s₁, hscan⟩ := dash_step hoptions ha hl
          (fun o ho => absurd ho List.not_mem_nil) hcur hoff ht hdash
        obtain ⟨fuel', rets', last', s₁', hscan'⟩ :=
          dash_step hoptions ha hl hval hcur hoff ht hdash
        refine ⟨[entryOf t], max fuel fuel', fun heq => ?_⟩
        rw [scan_mono hscan (Nat.le_max_left ..), scan_mono hscan' (Nat.le_max_right ..),
          entryOf_outcome] at heq
        have hrc := congrArg Prod.fst (List.cons.inj (congrArg View.shown (Option.some.inj heq))).1
        exact absurd hrc (show badch ≠ 1 by decide)

/-- **Two tables make no difference** exactly if the scan comes to no `-` behind the first letter
of a cluster. -/
theorem same_tables_iff (hoptions : c.options = some options) (hw : ¬ wLong <:+: options)
    (hlong : ∀ e ∈ s.nargv, isLong e = false) (hfresh : Fresh s)
    (hnargc : c.nargc = s.nargv.length) : SameTables h c s ↔
      (letterRules options).meetsDash h (longMode h options) 0 s.nargv.tail = false := by
  cases hargs : s.nargv with
  | nil =>
      have hzero : c.nargc = 0 := by rw [hnargc, hargs]; rfl
      have hend : ∀ t, ∃ last, withTable h c t s = some (-1, last) ∧ last.nargv = s.nargv ∧
          last.optind = 1 := fun t => by
        obtain ⟨last, hcall, hnargv, hoptind, -⟩ := @internal_empty h
          { c with longOptions := t } s ⟨true, false, false⟩ options hoptions hzero
          hfresh.optind (Or.inr ⟨by rw [hfresh.place]; rfl, hfresh.nonoptStart, hfresh.nonoptEnd⟩)
        exact ⟨last, hcall, hnargv, hoptind⟩
      refine ⟨fun _ => rfl, fun _ table table' fuel => ?_⟩
      obtain ⟨last, hcall, hnargv, hoptind⟩ := hend (some table)
      obtain ⟨last', hcall', hnargv', hoptind'⟩ := hend (some table')
      cases fuel with
      | zero => rfl
      | succ fuel =>
          rw [scan, scan, hcall, hcall']
          show some (View.mk [] last.optind last.nargv) = some (View.mk [] last'.optind last'.nargv)
          rw [hnargv, hnargv', hoptind, hoptind']
  | cons prog args =>
      have hat := hfresh.at_begin (h := h) (c := c) hnargc hargs
      have hlawful : Lawful (letterRules options) (longMode h options) (.begin args) :=
        finish_lawful ..
      have hclean : Clean (.begin args) :=
        ⟨fun _ _ hcur => (by cases hcur), fun e he =>
          hlong e (hargs ▸ List.mem_cons_of_mem _ he)⟩
      constructor
      · intro hsame
        by_contra hmeets
        obtain ⟨table, fuel, hdiffer⟩ := scan_differs hoptions hw rfl hat hlawful hclean
          (Bool.not_eq_false _ ▸ hmeets)
        exact hdiffer (hsame [] table fuel)
      · intro hmeets table table' fuel
        rw [scan_table hoptions hw hat hlawful hclean hmeets,
          scan_table hoptions hw hat hlawful hclean hmeets]

/-- `prog x -ab y -a -`. -/
def plainArgs : List Text :=
  [textOf [112], textOf [120], textOf [45, 97, 98], textOf [121], textOf [45, 97], textOf [45]]

/-- With the option string `ab:`, no `-` is a letter. -/
theorem same_tables_sample :
    SameTables signedHost ⟨plainArgs.length, some (textOf [97, 98, 58]), none, true⟩
      (freshState plainArgs) :=
  (same_tables_iff rfl (by decide) (by decide) (freshState_fresh _) rfl).mpr (by decide)

/-- `prog -a-foo`. -/
def dashArgs : List Text := [textOf [112], textOf [45, 97, 45, 102, 111, 111]]

/-- The option string is `a`. -/
def dashCall : Call := ⟨dashArgs.length, some (textOf [97]), none, true⟩

/-- The table has `--foo`. -/
def fooTable : List LongOption := [⟨textOf [102, 111, 111], noArgument, none, 1⟩]

/-- **A long option inside a cluster**: `-foo` behind the letter `a` is read as `--foo`. -/
theorem long_inside_cluster :
    (∀ e ∈ (freshState dashArgs).nargv, isLong e = false) ∧ ¬ wLong <:+: textOf [97] ∧
      Fresh (freshState dashArgs) ∧ dashCall.nargc = (freshState dashArgs).nargv.length ∧
      (scan (withTable signedHost dashCall (some [])) 3 (freshState dashArgs)).map view =
        some ⟨[(97, none), (63, none)], 2, dashArgs⟩ ∧
      (scan (withTable signedHost dashCall (some fooTable)) 3 (freshState dashArgs)).map view =
        some ⟨[(97, none), (1, none)], 2, dashArgs⟩ ∧
      ¬ SameTables signedHost dashCall (freshState dashArgs) := by
  have hempty : (scan (withTable signedHost dashCall (some [])) 3 (freshState dashArgs)).map view =
      some ⟨[(97, none), (63, none)], 2, dashArgs⟩ := by decide
  have hfoo : (scan (withTable signedHost dashCall (some fooTable)) 3
      (freshState dashArgs)).map view = some ⟨[(97, none), (1, none)], 2, dashArgs⟩ := by decide
  refine ⟨by decide, by decide, freshState_fresh _, rfl, hempty, hfoo, fun hsame => ?_⟩
  have heq := hsame [] fooTable 3
  rw [hempty, hfoo] at heq
  exact absurd heq (by decide)

end Scans

end LibrePortable.Getopt
