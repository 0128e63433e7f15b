import LibrePortable.Getopt.Outcome

/-!
# One option

A call that finds an option at the scanning pointer either moves on to the next letter of
the element, or is done with the element and with those that the option took. In both
cases it leaves the vector and the markers alone.
-/

namespace LibrePortable.Getopt

section Strings

variable {t u : Text} {c : Letter} {ch : UInt8}

theorem strchr_mem : ∀ {t u : Text}, ch ≠ 0 → strchr t ch = some u → ∃ l ∈ t, l.val = ch
  | [], u, hne, h => by
      rw [strchr, if_neg hne] at h
      cases h
  | c :: t, u, hne, h => by
      rw [strchr] at h
      by_cases hc : c.val = ch
      · exact ⟨c, List.mem_cons_self .., hc⟩
      · rw [if_neg hc] at h
        obtain ⟨l, hl, heq⟩ := strchr_mem hne h
        exact ⟨l, List.mem_cons_of_mem _ hl, heq⟩

end Strings

/-! ## What a call leaves alone -/

/-- The vector, the markers and the mode. -/
structure Kept where
  nargv : List Text
  nonoptStart : Int
  nonoptEnd : Int
  optreset : Int
  posixlyCorrect : Int

def State.kept (s : State) : Kept :=
  ⟨s.nargv, s.nonoptStart, s.nonoptEnd, s.optreset, s.posixlyCorrect⟩

/-- `s'` has the vector, the markers and the mode of `s`. -/
def Keeps (s s' : State) : Prop := s'.kept = s.kept

namespace Keeps

variable {s s' : State}

theorem nargv (h : Keeps s s') : s'.nargv = s.nargv := congrArg Kept.nargv h
theorem nonoptStart (h : Keeps s s') : s'.nonoptStart = s.nonoptStart :=
  congrArg Kept.nonoptStart h
theorem nonoptEnd (h : Keeps s s') : s'.nonoptEnd = s.nonoptEnd := congrArg Kept.nonoptEnd h
theorem optreset (h : Keeps s s') : s'.optreset = s.optreset := congrArg Kept.optreset h
theorem posixlyCorrect (h : Keeps s s') : s'.posixlyCorrect = s.posixlyCorrect :=
  congrArg Kept.posixlyCorrect h

end Keeps

theorem arg_of_nargv {s s' : State} (h : s'.nargv = s.nargv) (i : Int) : s'.arg i = s.arg i := by
  rw [State.arg, State.arg, h]

theorem badch_ne : badch ≠ -1 := by decide

theorem badarg_ne (options : Text) : badarg options ≠ -1 := by
  rw [badarg]
  split <;> decide

/-! ## Long options -/

/-- A call leaves the vector alone and shows this. -/
structure Yields (options : Text) (hasIdx : Bool) (o : Outcome) (s s' : State) : Prop where
  keeps : Keeps s s'
  shows : Shows options hasIdx o s s'

section Long

variable {table : List LongOption} {s : State} {text : Text} {o : LongOption} {i : Nat}
  {rest : List Text}

/-- The search finds an entry of the table. -/
theorem findLong_mem {len : Nat} {shortToo longonly : Bool} :
    ∀ {os : List LongOption} {i : Nat} {r : Found} {j : Nat} {o : LongOption},
      (findLong text len shortToo longonly i r os).found = some (j, o) →
      r.found = some (j, o) ∨ o ∈ os := by
  intro os
  induction os with
  | nil => exact fun h => Or.inl h
  | cons o' os ih =>
      intro i r j o h
      rw [findLong] at h
      have htail : ∀ {i : Nat} {r' : Found}, r'.found = r.found →
          (findLong text len shortToo longonly i r' os).found = some (j, o) →
          r.found = some (j, o) ∨ o ∈ o' :: os := fun hr h =>
        (ih h).imp hr.symm.trans (List.mem_cons_of_mem o')
      split at h
      · exact htail rfl h
      · split at h
        · cases h
          exact Or.inr (List.mem_cons_self ..)
        · split at h
          · exact htail rfl h
          · split at h
            · -- the first partial match
              rcases ih h with hr | hmem
              · cases hr
                exact Or.inr (List.mem_cons_self ..)
              · exact Or.inr (List.mem_cons_of_mem o' hmem)
            · split at h
              · exact htail (i := i + 1) (by rfl) h
              · exact htail rfl h

theorem search_mem {shortToo longonly : Bool} {j : Nat}
    (h : (search table text shortToo longonly).found = some (j, o)) : o ∈ table :=
  (findLong_mem h).resolve_left fun h => by cases h

/-- An error is reported in a state where `optarg` is NULL. -/
theorem shows_fail {options : Text} {hasIdx : Bool} {s₁ : State} (hseen : s₁.seen = s.seen)
    (hoptarg : s.optarg = none) (rc optopt : Int) (format : String) (argument : Argument) :
    Shows options hasIdx (.fail rc optopt format argument) s
      { s₁.warn options format argument with optopt := optopt } := by
  have h₁ : s₁.optarg = none := (congrArg Seen.optarg hseen).trans hoptarg
  have h₂ : s₁.idx = s.idx := congrArg Seen.idx hseen
  have h₃ : s₁.opterr = s.opterr := congrArg Seen.opterr hseen
  have h₄ : s₁.stderr = s.stderr := congrArg Seen.stderr hseen
  show Seen.mk s₁.optarg s₁.idx optopt s₁.opterr (s₁.stderr ++ if s₁.opterr ≠ 0 ∧ _ then _ else _) =
    Seen.mk none s.idx optopt s.opterr (s.stderr ++ if s.opterr ≠ 0 ∧ _ then _ else _)
  rw [h₁, h₂, h₃, h₄]
  rfl

/-- The end of `parse_long_options`. -/
theorem longReturn_spec (hasIdx : Bool) (i : Nat) (o : LongOption) (s : State) :
    ∃ s', longReturn hasIdx i o s = (if o.flag = none then o.val else 0, s') ∧ Keeps s s' ∧
      s'.optind = s.optind ∧ s'.seen = { s.seen with idx := if hasIdx then i else s.idx } := by
  rw [longReturn]
  cases hasIdx <;> cases o.flag <;> exact ⟨_, rfl, rfl, rfl, rfl⟩

/-- The argument of an option that was found, unless it must not have one. -/
theorem longArgument_spec (harg : s.arg s.optind = some rest.head?) (hoptarg : s.optarg = none)
    (o : LongOption) (hasEqual : Option Text) :
    longArgument o hasEqual s = some { s with
      optarg := if o.hasArg = requiredArgument then hasEqual.or rest.head?
        else if o.hasArg = optionalArgument then hasEqual else none
      optind := s.optind + if o.hasArg = requiredArgument ∧ hasEqual = none then 1 else 0 } := by
  have hsame : ({ s with optarg := none, optind := s.optind + 0 } : State) = s := by
    rw [Int.add_zero, ← hoptarg]
  by_cases hreq : o.hasArg = requiredArgument
  · rw [longArgument.eq_def, if_pos (Or.inl hreq)]
    cases hasEqual with
    | some e => simp only [hreq, if_true, Option.some_or, reduceCtorEq, and_false, if_false,
        Int.add_zero]
    | none => simp only [hreq, if_true, harg, Option.none_or, and_true, Option.map_some]
  · by_cases hopt : o.hasArg = optionalArgument
    · have hne : ¬ optionalArgument = requiredArgument := by decide
      rw [longArgument.eq_def, if_pos (Or.inr hopt)]
      cases hasEqual with
      | some e => simp only [hopt, hne, if_true, if_false, false_and, Int.add_zero]
      | none => simp only [hopt, hne, if_true, if_false, false_and, hsame]
    · rw [longArgument.eq_def, if_neg (not_or.mpr ⟨hreq, hopt⟩)]
      simp only [hreq, hopt, if_false, false_and, hsame]

/-- **An option that was found** takes the next element if it must have an argument, has none
of its own, and there is an element. -/
theorem longFound_spec (r : Rules) (hasIdx : Bool) (text : Text) (i : Nat) (o : LongOption)
    (harg : s.arg s.optind = some rest.head?) (hoptarg : s.optarg = none) :
    ∃ s', longFound r.options hasIdx text i o s = some ((r.foundOutcome rest text i o).rc, s') ∧
      Yields r.options hasIdx (r.foundOutcome rest text i o) s s' ∧ s'.optind = s.optind +
        (if o.hasArg = requiredArgument ∧ (splitEqual text).2 = none then Rules.one rest
          else 0 : Nat) := by
  rw [longFound, Rules.foundOutcome]
  obtain ⟨len, hasEqual⟩ := splitEqual text
  dsimp only
  by_cases hno : o.hasArg = noArgument ∧ hasEqual.isSome
  · rw [if_pos hno, if_pos hno]
    have hne : ¬ (o.hasArg = requiredArgument ∧ hasEqual = none) := by
      intro hboth
      obtain ⟨h, -⟩ := hboth
      rw [hno.1] at h
      exact absurd h (by decide)
    rw [if_neg hne]
    exact ⟨_, rfl, ⟨rfl, shows_fail rfl hoptarg ..⟩, (Int.add_zero _).symm⟩
  · rw [if_neg hno, if_neg hno, longArgument_spec harg hoptarg, Option.map_some]
    -- what `optarg` is before the test for a missing argument
    generalize harg' : (if o.hasArg = requiredArgument then hasEqual.or rest.head?
      else if o.hasArg = optionalArgument then hasEqual else none) = arg
    by_cases hmissing : o.hasArg = requiredArgument ∧ arg = none
    · obtain ⟨hreq, rfl⟩ := hmissing
      rw [if_pos hreq] at harg'
      obtain ⟨rfl, hrest⟩ := Option.or_eq_none_iff.mp harg'
      obtain rfl : rest = [] := List.head?_eq_none_iff.mp hrest
      rw [if_pos ⟨hreq, rfl⟩, if_pos ⟨hreq, rfl⟩, if_pos ⟨hreq, rfl⟩, if_pos ⟨hreq, rfl⟩]
      refine ⟨_, rfl, ⟨rfl, rfl⟩, ?_⟩
      show s.optind + 1 - 1 = _
      simp [Rules.one]
    · rw [if_neg hmissing, if_neg hmissing]
      obtain ⟨s', hret, hkeeps, hoptind, hseen⟩ := longReturn_spec hasIdx i o { s with
        optarg := arg
        optind := s.optind + if o.hasArg = requiredArgument ∧ hasEqual = none then 1 else 0 }
      refine ⟨s', congrArg some hret, ⟨hkeeps, hseen⟩, ?_⟩
      rw [hoptind]
      show _ + _ = _
      by_cases hreq : o.hasArg = requiredArgument ∧ hasEqual = none
      · obtain ⟨hreq, rfl⟩ := hreq
        rw [if_pos hreq, Option.none_or] at harg'
        cases rest with
        | nil => exact absurd ⟨hreq, harg'.symm⟩ hmissing
        | cons e es => rw [if_pos ⟨hreq, rfl⟩, if_pos ⟨hreq, rfl⟩]; rfl
      · rw [if_neg hreq, if_neg hreq]
        rfl

/-- **`parse_long_options`** leaves everything as it was, or is done with the element and with the
one behind it if the option takes it. -/
theorem parseLongOptions_spec (r : Rules) (table : List LongOption) (hasIdx shortToo : Bool)
    (harg : s.arg (s.optind + 1) = some rest.head?) (hoptarg : s.optarg = none) :
    match longTakes table r.longonly shortToo s.place.text with
    | none => parseLongOptions r.options table hasIdx shortToo r.longonly s = some (-1, s)
    | some b => ∃ s', parseLongOptions r.options table hasIdx shortToo r.longonly s =
          some ((r.longOutcome table rest s.place.text shortToo).rc, s') ∧
        Yields r.options hasIdx (r.longOutcome table rest s.place.text shortToo) s s' ∧
        s'.optind = s.optind + 1 + (if b = true then Rules.one rest else 0 : Nat) := by
  rw [parseLongOptions, longTakes, Rules.longOutcome]
  dsimp only
  generalize hr : search table s.place.text shortToo r.longonly = f
  by_cases hamb : (!f.exactMatch) = true ∧ f.secondPartialMatch = true
  · rw [if_pos hamb, if_pos hamb, if_pos hamb]
    exact ⟨_, rfl, ⟨rfl, shows_fail rfl hoptarg ..⟩, (Int.add_zero _).symm⟩
  · rw [if_neg hamb, if_neg hamb, if_neg hamb]
    cases hfound : f.found with
    | some p =>
        obtain ⟨i, o⟩ := p
        have harg' : State.arg { s with optind := s.optind + 1 } (s.optind + 1) =
            some rest.head? := by
          rw [← harg]
          exact arg_of_nargv rfl _
        obtain ⟨s', hrun, hyields, hoptind⟩ :=
          longFound_spec r hasIdx s.place.text i o harg' hoptarg
        refine ⟨s', hrun, ⟨hyields.keeps, hyields.shows⟩, ?_⟩
        rw [hoptind]
        simp
    | none =>
        cases shortToo with
        | true =>
            refine (if_pos rfl).trans ?_
            show some (-1, { s with optind := s.optind + 1 - 1 }) = _
            rw [Int.add_sub_cancel]
        | false =>
            exact ⟨_, if_neg Bool.false_ne_true, ⟨rfl, shows_fail rfl hoptarg ..⟩,
              (Int.add_zero _).symm⟩

/-- Text that is not also a letter is always read as a long option. -/
theorem longTakes_forced (table : List LongOption) (longonly : Bool) (text : Text) :
    ∃ b, longTakes table longonly false text = some b := by
  rw [longTakes]
  split
  · exact ⟨_, rfl⟩
  · split
    · exact ⟨_, rfl⟩
    · exact ⟨_, if_neg Bool.false_ne_true⟩

theorem parseLongOptions_forced (r : Rules) (table : List LongOption) (hasIdx : Bool)
    (harg : s.arg (s.optind + 1) = some rest.head?) (hoptarg : s.optarg = none) :
    ∃ s', parseLongOptions r.options table hasIdx false r.longonly s =
        some ((r.longOutcome table rest s.place.text false).rc, s') ∧
      Yields r.options hasIdx (r.longOutcome table rest s.place.text false) s s' ∧
      s'.optind = s.optind + 1 + (if longTakes table r.longonly false s.place.text = some true
        then Rules.one rest else 0 : Nat) := by
  have hres := parseLongOptions_spec r table hasIdx false harg hoptarg
  obtain ⟨b, hb⟩ := longTakes_forced table r.longonly s.place.text
  rw [hb] at hres ⊢
  obtain ⟨s', hrun, hyields, hoptind⟩ := hres
  refine ⟨s', hrun, hyields, ?_⟩
  rw [hoptind]
  simp only [Option.some.injEq]

theorem foundOutcome_rc_ne (hval : o.val ≠ -1) (r : Rules) (rest : List Text) (text : Text)
    (i : Nat) : (r.foundOutcome rest text i o).rc ≠ -1 := by
  rw [Rules.foundOutcome]
  by_cases hno : o.hasArg = noArgument ∧ (splitEqual text).2.isSome
  · rw [if_pos hno]
    exact badarg_ne _
  · rw [if_neg hno]
    dsimp only
    generalize (if o.hasArg = requiredArgument then (splitEqual text).2.or rest.head?
      else if o.hasArg = optionalArgument then (splitEqual text).2 else none) = arg
    by_cases hmissing : o.hasArg = requiredArgument ∧ arg = none
    · rw [if_pos hmissing]
      exact badarg_ne _
    · rw [if_neg hmissing]
      dsimp only
      split
      · exact hval
      · decide

/-- A long option does not return the -1 that ends a scan. -/
theorem longOutcome_rc_ne (hval : ∀ o ∈ table, o.val ≠ -1) (r : Rules) (rest : List Text)
    (text : Text) (shortToo : Bool) : (r.longOutcome table rest text shortToo).rc ≠ -1 := by
  rw [Rules.longOutcome]
  split
  · exact badch_ne
  · cases hfound : (search table text shortToo r.longonly).found with
    | some p => exact foundOutcome_rc_ne (hval p.2 (search_mem hfound)) r rest text p.1
    | none => exact badch_ne

end Long

/-! ## Letters -/

section Letters

variable {h : Host} {c : Call} {r : Rules} {oli : Text} {table : List LongOption} {s : State}
  {elem t : Text} {off : Nat} {rest : List Text} {ch : Letter} {optchar : Int}

/-- `optind` stands at an element, and these are the elements behind it. -/
structure Facing (c : Call) (s : State) (elem : Text) (rest : List Text) : Prop where
  here : s.arg s.optind = some (some elem)
  next : ∀ j : Nat, j ≤ rest.length → s.arg (s.optind + 1 + j) = some rest[j]?
  nargc : c.nargc = s.optind + 1 + rest.length

theorem Facing.next_zero (hf : Facing c s elem rest) : s.arg (s.optind + 1) = some rest.head? := by
  have := hf.next 0 (Nat.zero_le _)
  rwa [Int.natCast_zero, Int.add_zero, ← List.head?_eq_getElem?] at this

/-- Whether there is a next element. -/
theorem Facing.nargc_le (hf : Facing c s elem rest) : s.optind + 1 ≥ c.nargc ↔ rest = [] := by
  rw [hf.nargc, ← List.length_eq_zero_iff]
  omega

theorem Facing.next_one {e : Text} (hf : Facing c s elem (e :: rest)) :
    s.arg (s.optind + 1 + 1) = some rest.head? := by
  have := hf.next 1 (by simp)
  rwa [Int.natCast_one, List.getElem?_cons_succ, ← List.head?_eq_getElem?] at this

/-- The call passes what the rules say, and no long option returns the -1 that ends a scan. -/
structure Reads (c : Call) (r : Rules) : Prop where
  table : c.longOptions = r.table
  val : ∀ table, r.table = some table → ∀ o ∈ table, o.val ≠ -1

/-- The call passes what the rules say, and no value that an option returns is the -1 that ends
a scan. -/
structure Agrees (h : Host) (c : Call) (r : Rules) : Prop where
  options : c.options = some r.options
  table : c.longOptions = r.table
  val : ∀ table, r.table = some table → ∀ o ∈ table, o.val ≠ -1
  letters : ∀ l ∈ r.options, h.toInt l.val ≠ -1

theorem Agrees.reads (ha : Agrees h c r) : Reads c r := ⟨ha.table, ha.val⟩

/-- What an option leaves behind, when `t` follows in its element and the element is number
`optind`: the pointer is one letter further, or the element is done with and as many are taken
as the rules say. -/
inductive Leaves (elem : Text) (off : Nat) (t : Text) (takes : Nat → Nat) (optind : Int)
    (s' : State) : Prop
  | letter : t ≠ [] → s'.place = .inside elem (off + 1) → s'.optind = optind →
      (∀ more, takes more = more) → Leaves elem off t takes optind s'
  | element : s'.place.text = [] →
      (∀ more, (t = [] → more = 0) → s'.optind = optind + 1 + takes more) →
      Leaves elem off t takes optind s'

/-- The letter was the whole of an option. -/
theorem leaves_alone {s' : State} {takes : Nat → Nat} {optind : Int}
    (hplace : s'.place = .inside elem (off + 1)) (ht : elem.drop (off + 1) = t)
    (hoptind : s'.optind = if t = [] then optind + 1 else optind)
    (htakes : ∀ more, takes more = more) : Leaves elem off t takes optind s' := by
  by_cases hnil : t = []
  · refine .element (by rw [hplace]; exact ht.trans hnil) fun more hmore => ?_
    rw [htakes, hmore hnil, hoptind, if_pos hnil]
    exact (Int.add_zero _).symm
  · rw [if_neg hnil] at hoptind
    exact .letter hnil hplace hoptind htakes

/-- **`-W`.** -/
theorem wOption_spec (r : Rules) (table : List LongOption) (optchar : Int)
    (hf : Facing c s elem rest) (hplace : s.place.text = t) (hoptarg : s.optarg = none) :
    ∃ s', wOption c r.options table r.longonly optchar s =
        some ((r.wOutcome table rest optchar t).rc, s') ∧
      Yields r.options c.hasIdx (r.wOutcome table rest optchar t) s s' ∧ s'.place.text = [] ∧
      s'.optind = s.optind + 1 + r.wTakes table rest t := by
  by_cases ht : t = []
  · rw [wOption, if_neg (by rw [hplace]; exact not_not.mpr ht), Rules.wOutcome.eq_def,
      if_neg (not_not.mpr ht), Rules.wTakes.eq_def, if_neg (not_not.mpr ht)]
    cases rest with
    | nil =>
        rw [if_pos (hf.nargc_le.mpr rfl)]
        exact ⟨_, rfl, ⟨rfl, shows_fail rfl hoptarg ..⟩, rfl, (Int.add_zero _).symm⟩
    | cons e es =>
        have hnext : s.arg (s.optind + 1) = some (some e) := hf.next_zero
        have hhere : State.arg { s with optind := s.optind + 1 } (s.optind + 1) = some (some e) :=
          hnext
        rw [if_neg (fun hle => by cases hf.nargc_le.mp hle)]
        obtain ⟨s', hrun, hyields, hoptind⟩ := parseLongOptions_forced
          (s := { s with optind := s.optind + 1, place := .inside e 0 }) r table c.hasIdx
          hf.next_one hoptarg
        refine ⟨{ s' with place := .emsg }, ?_, ⟨hyields.keeps, hyields.shows⟩, rfl, ?_⟩
        · dsimp only
          rw [hhere]
          show Option.map _ (parseLongOptions _ _ _ _ _ _) = _
          rw [hrun]
          rfl
        · show s'.optind = _
          rw [hoptind]
          simp only [Place.text, List.drop_zero]
          omega
  · rw [wOption, if_pos (by rw [hplace]; exact ht), Rules.wOutcome.eq_def, if_pos ht,
      Rules.wTakes.eq_def, if_pos ht]
    obtain ⟨s', hrun, hyields, hoptind⟩ :=
      parseLongOptions_forced r table c.hasIdx hf.next_zero hoptarg
    rw [hplace] at hrun hyields hoptind
    refine ⟨{ s' with place := .emsg }, ?_, ⟨hyields.keeps, hyields.shows⟩, rfl, hoptind⟩
    show Option.map _ (parseLongOptions _ _ _ _ _ _) = _
    rw [hrun]
    rfl

/-- **The argument of a letter**, from the first colon on. -/
theorem letterArgument_spec (r : Rules) (hcolon : deref oli.tail = colon)
    (hf : Facing c s elem rest) (hplace : s.place.text = t) :
    ∃ s', letterArgument c r.options oli.tail optchar s =
        some ((r.knownOutcome rest optchar oli t).rc, s') ∧
      Yields r.options c.hasIdx (r.knownOutcome rest optchar oli t) s s' ∧ s'.place.text = [] ∧
      s'.optind = s.optind + 1 +
        ((if t ≠ [] ∨ deref oli.tail.tail = colon then 0 else Rules.one rest : Nat) : Int) := by
  rw [letterArgument, Rules.knownOutcome.eq_def, if_neg (not_not.mpr hcolon)]
  by_cases ht : t = []
  · rw [if_neg (by show ¬ s.place.text ≠ []; rw [hplace]; exact not_not.mpr ht),
      if_neg (not_not.mpr ht)]
    by_cases hopt : deref oli.tail.tail = colon
    · rw [if_neg (not_not.mpr hopt), if_pos (Or.inr hopt), if_pos hopt]
      exact ⟨_, rfl, ⟨rfl, rfl⟩, rfl, (Int.add_zero _).symm⟩
    · rw [if_pos hopt, if_neg (not_or.mpr ⟨not_not.mpr ht, hopt⟩), if_neg hopt]
      cases rest with
      | nil =>
          rw [if_pos (hf.nargc_le.mpr rfl)]
          exact ⟨_, rfl, ⟨rfl, rfl⟩, rfl, (Int.add_zero _).symm⟩
      | cons e es =>
          rw [if_neg (fun hle => by cases hf.nargc_le.mp hle)]
          have hnext : s.arg (s.optind + 1) = some (some e) := hf.next_zero
          refine ⟨{ s with optarg := some e, optind := s.optind + 1 + 1, place := .emsg }, ?_,
            ⟨rfl, rfl⟩, rfl, by simp [Rules.one]⟩
          show Option.map _ (s.arg (s.optind + 1)) = _
          rw [hnext]
          rfl
  · rw [if_pos (by show s.place.text ≠ []; rw [hplace]; exact ht), if_pos (Or.inl ht), if_pos ht]
    refine ⟨_, rfl, ⟨rfl, ?_⟩, rfl, (Int.add_zero _).symm⟩
    show Seen.mk (some s.place.text) _ _ _ _ = _
    rw [hplace]
    rfl

/-- **A letter of the option string.** -/
theorem knownLetter_spec (r : Rules) (oli : Text) (optchar : Int) (hf : Facing c s elem rest)
    (hplace : s.place = .inside elem (off + 1)) (ht : elem.drop (off + 1) = t)
    (hoptarg : s.optarg = none) :
    ∃ s', knownLetter c r.options oli optchar s =
        some ((r.knownOutcome rest optchar oli t).rc, s') ∧
      Yields r.options c.hasIdx (r.knownOutcome rest optchar oli t) s s' ∧
      Leaves elem off t (Rules.knownTakes rest oli t) s.optind s' := by
  have htext : s.place.text = t := by rw [hplace]; exact ht
  rw [knownLetter]
  by_cases hcolon : deref oli.tail = colon
  · rw [if_neg (not_not.mpr hcolon)]
    obtain ⟨s', hrun, hyields, hdone, hoptind⟩ :=
      @letterArgument_spec c oli s elem t rest optchar r hcolon hf htext
    refine ⟨s', hrun, hyields, .element hdone fun more _ => ?_⟩
    rw [hoptind, Rules.knownTakes, if_neg (not_not.mpr hcolon)]
  · rw [if_pos hcolon, Rules.knownOutcome.eq_def, if_pos hcolon]
    refine ⟨_, rfl, ⟨?_, ?_⟩, leaves_alone ?_ ht ?_ fun more => ?_⟩
    · split <;> rfl
    · have hseen : s.seen = (Outcome.option optchar none).shown r.options c.hasIdx s.seen := by
        show Seen.mk s.optarg _ _ _ _ = _
        rw [hoptarg]
        rfl
      split <;> exact hseen
    · split <;> exact hplace
    · rw [htext]
      split <;> rfl
    · rw [Rules.knownTakes, if_pos hcolon]

/-- **`shortOption`** does with a letter what the rules say. -/
theorem shortOption_spec (htable : c.longOptions = r.table) (hf : Facing c s elem rest)
    (hplace : s.place = .inside elem off) (ht : elem.drop off = ch :: t)
    (hoptarg : s.optarg = none) :
    ∃ s', shortOption h c r.options r.longonly s = some ((r.letterOutcome h rest ch t).rc, s') ∧
      Yields r.options c.hasIdx (r.letterOutcome h rest ch t) s s' ∧
      Leaves elem off t (r.letterTakes rest ch t) s.optind s' := by
  have htail : elem.drop (off + 1) = t := by
    rw [← List.tail_drop, ht, List.tail_cons]
  have hderef : deref s.place.text = ch.val := by
    rw [hplace]
    exact congrArg deref ht
  have hsucc : s.place.succ = .inside elem (off + 1) := by rw [hplace]; rfl
  -- the state with the pointer behind the letter
  have hf1 : Facing c { s with place := .inside elem (off + 1) } elem rest :=
    ⟨hf.here, hf.next, hf.nargc⟩
  have htext1 : (Place.inside elem (off + 1)).text = t := htail
  rw [shortOption, hderef, hsucc]
  cases hfind : (if ch.val = colon then none else strchr r.options ch.val) with
  | none =>
      have hout : r.letterOutcome h rest ch t =
          .fail badch (h.toInt ch.val) illoptchar (.char (h.toInt ch.val)) := by
        rw [Rules.letterOutcome, hfind]
      rw [hout]
      refine ⟨_, rfl, ⟨?_, ?_⟩, leaves_alone ?_ htail ?_ fun more => ?_⟩
      · split <;> rfl
      · split
        · exact @shows_fail s _ _ { s with place := _, optind := s.optind + 1 } rfl hoptarg ..
        · exact @shows_fail s _ _ { s with place := _ } rfl hoptarg ..
      · split <;> rfl
      · rw [htext1]
        split <;> rfl
      · rw [Rules.letterTakes, hfind]
  | some oli =>
      obtain ⟨s', hrun, hyields, hleaves⟩ :=
        knownLetter_spec r oli (h.toInt ch.val) hf1 rfl htail hoptarg
      have hknown : ∃ s', knownLetter c r.options oli (h.toInt ch.val)
            { s with place := .inside elem (off + 1) } =
            some ((r.knownOutcome rest (h.toInt ch.val) oli t).rc, s') ∧
          Yields r.options c.hasIdx (r.knownOutcome rest (h.toInt ch.val) oli t) s s' ∧
          Leaves elem off t (Rules.knownTakes rest oli t) s.optind s' :=
        ⟨s', hrun, ⟨hyields.keeps, hyields.shows⟩, hleaves⟩
      dsimp only
      rw [htable]
      cases hr : r.table with
      | none =>
          have htakes : r.letterTakes rest ch t = Rules.knownTakes rest oli t := by
            funext more
            rw [Rules.letterTakes, hfind, hr]
          have hout : r.letterOutcome h rest ch t =
              r.knownOutcome rest (h.toInt ch.val) oli t := by
            rw [Rules.letterOutcome, hfind, hr]
          rw [htakes, hout]
          exact hknown
      | some table =>
          dsimp only
          by_cases hw : ch.val = 87 ∧ deref oli.tail = 59
          · have hout : r.letterOutcome h rest ch t =
                r.wOutcome table rest (h.toInt ch.val) t := by
              rw [Rules.letterOutcome, hfind, hr]
              exact if_pos hw
            obtain ⟨s', hrun, hyields, hdone, hoptind⟩ :=
              wOption_spec r table (h.toInt ch.val) hf1 htext1 hoptarg
            rw [if_pos hw, hout]
            refine ⟨s', hrun, ⟨hyields.keeps, hyields.shows⟩, .element hdone fun more _ => ?_⟩
            rw [hoptind, Rules.letterTakes, hfind, hr]
            simp only [if_pos hw]
          · have htakes : r.letterTakes rest ch t = Rules.knownTakes rest oli t := by
              funext more
              rw [Rules.letterTakes, hfind, hr]
              exact if_neg hw
            have hout : r.letterOutcome h rest ch t =
                r.knownOutcome rest (h.toInt ch.val) oli t := by
              rw [Rules.letterOutcome, hfind, hr]
              exact if_neg hw
            rw [if_neg hw, htakes, hout]
            exact hknown

/-- What an option at place `off` of its element takes. The `-` of the element `-` is only ever
a letter. -/
def Rules.placeTakes (r : Rules) (rest : List Text) (off : Nat) (ch : Letter) (t : Text)
    (more : Nat) : Nat :=
  if off = 0 then r.letterTakes rest ch t more
  else
    match r.long ch t with
    | some true => Rules.one rest
    | some false => 0
    | none => r.letterTakes rest ch t more

theorem placeTakes_none {r : Rules} (h : off = 0 ∨ r.long ch t = none) :
    r.placeTakes rest off ch t = r.letterTakes rest ch t := by
  funext more
  rw [Rules.placeTakes]
  rcases h with h | h
  · rw [if_pos h]
  · rw [h]
    exact ite_self _

theorem placeOutcome_letter {r : Rules} (hnone : off = 0 ∨ r.long ch t = none) :
    r.placeOutcome h rest off ch t = r.letterOutcome h rest ch t := if_pos hnone

theorem placeOutcome_long {r : Rules} (hoff : off ≠ 0) {b : Bool} (hlong : r.long ch t = some b)
    (hr : r.table = some table) : r.placeOutcome h rest off ch t =
      if ch.val = 45 then r.longOutcome table rest t false
      else r.longOutcome table rest (ch :: t)
        (ch.val ≠ colon ∧ (strchr r.options ch.val).isSome) := by
  rw [Rules.placeOutcome, if_neg, hr]
  intro h
  rcases h with h | h
  · exact hoff h
  · rw [hlong] at h
    cases h

/-- A long option is done with its element. -/
theorem leaves_long {r : Rules} {s' : State} {b : Bool} {optind : Int} (hoff : off ≠ 0)
    (hlong : r.long ch t = some b) (hplace : s'.place.text = [])
    (hoptind : s'.optind = optind + 1 + (if b = true then Rules.one rest else 0 : Nat)) :
    Leaves elem off t (r.placeTakes rest off ch t) optind s' := by
  refine .element hplace fun more _ => ?_
  rw [hoptind, Rules.placeTakes, if_neg hoff, hlong]
  cases b <;> rfl

/-- **The option at the scanning pointer.** -/
theorem option_spec (ha : Reads c r) (hf : Facing c s elem rest)
    (hplace : s.place = .inside elem off) (ht : elem.drop off = ch :: t)
    (hoptarg : s.optarg = none) :
    ∃ s', option h c r.options r.longonly s =
        some ((r.placeOutcome h rest off ch t).rc, s') ∧
      Yields r.options c.hasIdx (r.placeOutcome h rest off ch t) s s' ∧
      Leaves elem off t (r.placeTakes rest off ch t) s.optind s' := by
  have hletter : off = 0 ∨ r.long ch t = none →
      ∃ s', shortOption h c r.options r.longonly s =
          some ((r.placeOutcome h rest off ch t).rc, s') ∧
        Yields r.options c.hasIdx (r.placeOutcome h rest off ch t) s s' ∧
        Leaves elem off t (r.placeTakes rest off ch t) s.optind s' := fun hnone => by
    rw [placeOutcome_letter hnone, placeTakes_none hnone]
    exact shortOption_spec ha.table hf hplace ht hoptarg
  have hderef : deref s.place.text = ch.val := by
    rw [hplace]
    exact congrArg deref ht
  rw [option, ha.table]
  cases hr : r.table with
  | none => exact hletter (Or.inr (by rw [Rules.long, hr]))
  | some table =>
      dsimp only
      rw [hf.here, Option.bind_some, hderef]
      by_cases hcond : off ≠ 0 ∧ (ch.val = 45 ∨ r.longonly = true)
      · obtain ⟨hoff, hcase⟩ := hcond
        have hcond' : (∀ t, some elem = some t → s.place ≠ .inside t 0) ∧
            (ch.val = 45 ∨ r.longonly = true) := by
          refine ⟨fun t' ht' he => hoff ?_, hcase⟩
          rw [hplace] at he
          cases he
          rfl
        rw [if_pos hcond']
        by_cases hdash : ch.val = 45
        · -- `--name`, or a `-` inside a cluster
          simp only [hdash, decide_true, if_true, Bool.not_true, Bool.false_and]
          have htext : s.place.succ.text = t := by
            rw [hplace]
            show elem.drop (off + 1) = t
            rw [← List.tail_drop, ht, List.tail_cons]
          obtain ⟨s', hrun, hyields, hoptind⟩ := parseLongOptions_forced
            (s := { s with place := s.place.succ }) r table c.hasIdx hf.next_zero hoptarg
          obtain ⟨b, hb⟩ := longTakes_forced table r.longonly t
          have hlong : r.long ch t = some b := by
            rw [Rules.long, hr]
            exact (if_pos hdash).trans hb
          rw [hrun, Option.bind_some, htext, placeOutcome_long hoff hlong hr, if_pos hdash]
          dsimp only
          rw [htext] at hyields hoptind
          rw [if_pos (longOutcome_rc_ne (ha.val table hr) _ _ _ _)]
          refine ⟨{ s' with place := .emsg }, rfl, ⟨hyields.keeps, hyields.shows⟩,
            leaves_long hoff hlong rfl ?_⟩
          show s'.optind = _
          rw [hoptind, hb]
          simp only [Option.some.injEq]
        · -- a text that may also be read as letters
          have honly : r.longonly = true := hcase.resolve_left hdash
          have hres := parseLongOptions_spec r table c.hasIdx
            (decide (ch.val ≠ colon ∧ (strchr r.options ch.val).isSome)) hf.next_zero hoptarg
          have htext : s.place.text = ch :: t := by rw [hplace]; exact ht
          have hlong : r.long ch t = longTakes table r.longonly
              (decide (ch.val ≠ colon ∧ (strchr r.options ch.val).isSome)) s.place.text := by
            rw [Rules.long, hr, htext]
            exact (if_neg hdash).trans (if_pos honly)
          have hboth : (!decide (ch.val = 45) && decide (ch.val ≠ colon) &&
              (strchr r.options ch.val).isSome)
              = decide (ch.val ≠ colon ∧ (strchr r.options ch.val).isSome) := by
            simp [hdash]
          rw [hboth, if_neg (by simpa using hdash)]
          rw [← hlong] at hres
          cases hl : r.long ch t with
          | none =>
              rw [hl] at hres
              rw [hres, Option.bind_some]
              exact hletter (Or.inr hl)
          | some b =>
              rw [hl] at hres
              obtain ⟨s', hrun, hyields, hoptind⟩ := hres
              rw [hrun, Option.bind_some, placeOutcome_long hoff hl hr, if_neg hdash, ← htext]
              dsimp only
              rw [if_pos (longOutcome_rc_ne (ha.val table hr) _ _ _ _)]
              exact ⟨{ s' with place := .emsg }, rfl, ⟨hyields.keeps, hyields.shows⟩,
                leaves_long hoff hl rfl hoptind⟩
      · have hnone : off = 0 ∨ r.long ch t = none := by
          by_cases hoff : off = 0
          · exact Or.inl hoff
          · have hno := not_or.mp fun h => hcond ⟨hoff, h⟩
            refine Or.inr ?_
            rw [Rules.long, hr]
            exact (if_neg hno.1).trans (if_neg hno.2)
        rw [if_neg]
        · exact hletter hnone
        · intro hpair
          obtain ⟨hne, hcase⟩ := hpair
          refine hcond ⟨fun hoff => hne elem rfl ?_, hcase⟩
          rw [hplace, hoff]

/-- No option returns the -1 that ends a scan, if no letter does. -/
theorem placeOutcome_rc_ne (ha : Agrees h c r) (rest : List Text) (off : Nat) (ch : Letter)
    (t : Text) : (r.placeOutcome h rest off ch t).rc ≠ -1 := by
  have hletter : (r.letterOutcome h rest ch t).rc ≠ -1 := by
    rw [Rules.letterOutcome]
    cases hfind : (if ch.val = colon then none else strchr r.options ch.val) with
    | none => exact badch_ne
    | some oli =>
        have hne : h.toInt ch.val ≠ -1 := by
          by_cases hc : ch.val = colon
          · rw [if_pos hc] at hfind
            cases hfind
          · rw [if_neg hc] at hfind
            obtain ⟨l, hl, heq⟩ := strchr_mem ch.2 hfind
            exact heq ▸ ha.letters l hl
        have hknown : (r.knownOutcome rest (h.toInt ch.val) oli t).rc ≠ -1 := by
          rw [Rules.knownOutcome.eq_def]
          split
          · exact hne
          · split
            · exact hne
            · split
              · exact hne
              · cases rest with
                | nil => exact badarg_ne _
                | cons e es => exact hne
        dsimp only
        cases hr : r.table with
        | none => exact hknown
        | some table =>
            dsimp only
            split
            · rw [Rules.wOutcome.eq_def]
              split
              · exact longOutcome_rc_ne (ha.val table hr) _ _ _ _
              · cases rest with
                | nil => exact badarg_ne _
                | cons e es => exact longOutcome_rc_ne (ha.val table hr) _ _ _ _
            · exact hknown
  rw [Rules.placeOutcome]
  split
  · exact hletter
  · cases hr : r.table with
    | none => exact hletter
    | some table =>
        dsimp only
        split <;> exact longOutcome_rc_ne (ha.val table hr) _ _ _ _

end Letters

end LibrePortable.Getopt
