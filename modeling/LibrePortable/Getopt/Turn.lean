import LibrePortable.Getopt.Order

/-!
# The parser as a machine on lists

What a call does, with the position given by the elements themselves: those that were
consumed before the operands, the block of operands, those consumed since, the element
that is being read, and the rest. One turn of this machine is one call, from any state
between two calls and in every mode.
-/

namespace LibrePortable.Getopt

/-- What a call does with an operand. -/
inductive Mode where
  | permute
  | stop
  | allargs
  deriving DecidableEq

def Flags.mode (flags : Flags) : Mode :=
  if flags.allargs then .allargs else if flags.permute then .permute else .stop

/-- The elements behind the program's name, with a position among them. -/
structure Pos where
  done : List Text
  skipped : List Text
  pend : List Text
  /-- The element at `optind`, when it is being read, and the place in it. -/
  cur : Option (Text × Nat)
  rest : List Text

namespace Pos

/-- The element that is being read. -/
def curElems (p : Pos) : List Text := (p.cur.map Prod.fst).toList

/-- All elements. -/
def elements (p : Pos) : List Text := p.done ++ p.skipped ++ p.pend ++ p.curElems ++ p.rest

/-- `optind`. -/
def index (p : Pos) : Nat := 1 + p.done.length + p.skipped.length + p.pend.length

/-- `nonopt_start`. -/
def startMark (p : Pos) : Int := if p.skipped = [] then -1 else ((1 + p.done.length : Nat) : Int)

/-- `nonopt_end`. -/
def endMark (p : Pos) : Int :=
  if p.skipped = [] ∨ (p.pend = [] ∧ p.cur = none) then -1
  else ((1 + p.done.length + p.skipped.length : Nat) : Int)

/-- These elements were consumed. -/
def consume (p : Pos) (es : List Text) : Pos :=
  if p.skipped = [] then { p with done := p.done ++ es, cur := none }
  else { p with pend := p.pend ++ es, cur := none }

/-- The elements, with nothing consumed and nothing passed over. -/
def begin (es : List Text) : Pos := ⟨[], [], [], none, es⟩

/-- The position behind the elements that a scan consumed. -/
def finish (consumed rest : List Text) : Pos := ⟨consumed, [], [], none, rest⟩

end Pos

/-- What a call comes to: something to show, or the end of the scan. -/
inductive Turn where
  | shows (o : Outcome) (p : Pos)
  | ends (p : Pos)

namespace Turn

def outcome : Turn → Outcome
  | shows o _ => o
  | ends _ => .option (-1) none

def pos : Turn → Pos
  | shows _ p => p
  | ends p => p

end Turn

namespace Rules

variable (r : Rules) (h : Host)

/-- The letter `ch` at place `off` of the element `e`, in front of `t`. -/
def optionTurn (p : Pos) (e : Text) (off : Nat) (ch : Letter) (t : Text) : Turn :=
  let o := r.placeOutcome h p.rest off ch t
  if r.alone off ch t ∧ t ≠ [] then .shows o { p with cur := some (e, off + 1) }
  else
    let k := r.placeTakes p.rest off ch t 0
    .shows o (Pos.consume { p with rest := p.rest.drop k } (e :: p.rest.take k))

/-- An element that starts with `-` but is not `--`. -/
def elementTurn (p : Pos) (e : Text) : Turn :=
  match e with
  | [] => .ends p
  | [dash] => r.optionTurn h p e 0 dash []
  | _ :: ch :: t => r.optionTurn h p e 1 ch t

/-- A call that looks at the next element. -/
def turnAt (m : Mode) (done skipped pend : List Text) : List Text → Turn
  | [] => .ends (.finish (done ++ pend) skipped)
  | e :: es =>
      if isOperand r.options e then
        match m with
        | .permute => turnAt m (done ++ pend) (skipped ++ [e]) [] es
        | .stop => .ends ⟨done, skipped, pend, none, e :: es⟩
        | .allargs =>
            .shows (.option inorder (some e)) (Pos.consume ⟨done, skipped, pend, none, es⟩ [e])
      else if isDashes e then .ends (.finish (done ++ pend ++ [e]) (skipped ++ es))
      else r.elementTurn h ⟨done, skipped, pend, none, es⟩ e

/-- A call. -/
def turn (m : Mode) (p : Pos) : Turn :=
  match p.cur with
  | none => r.turnAt h m p.done p.skipped p.pend p.rest
  | some (e, off) =>
      match e.drop off with
      | [] => .ends p
      | ch :: t => r.optionTurn h p e off ch t

end Rules

/-! ## What a state says about the position -/

/-- The value that `getenv` gives the variable. -/
def Host.posix (h : Host) : Int := if h.posixlyCorrect then 1 else 0

/-- **Where the parser stands** between two calls, or at the label `start`. -/
structure At (h : Host) (c : Call) (prog : Text) (p : Pos) (s : State) : Prop where
  nargc : c.nargc = s.nargv.length
  nargv : s.nargv = prog :: p.elements
  optind : s.optind = (p.index : Int)
  nonoptStart : s.nonoptStart = p.startMark
  nonoptEnd : s.nonoptEnd = p.endMark
  /-- Elements are only kept apart from those before them if operands stand between. -/
  pend : p.skipped = [] → p.pend = []
  optreset : s.optreset = 0
  posixlyCorrect : s.posixlyCorrect = -1 ∨ s.posixlyCorrect = h.posix
  place : match p.cur with
    | none => s.place.text = []
    | some (e, off) => s.place = .inside e off ∧ e.drop off ≠ []

/-- The call returned `rc` and did what the turn says. -/
structure Matches (h : Host) (c : Call) (r : Rules) (prog : Text) (u : Turn) (rc : Int)
    (s s' : State) : Prop where
  rc : rc = u.outcome.rc
  shows : Shows r.options c.hasIdx u.outcome s s'
  at_ : At h c prog u.pos s'

section Positions

variable {h : Host} {c : Call} {r : Rules} {prog : Text} {p : Pos} {s s' : State}
  {e t : Text} {es : List Text} {off : Nat} {ch : Letter}

theorem At.shape (ha : At h c prog p s) :
    Shape prog p.done p.skipped p.pend (p.curElems ++ p.rest) s :=
  ⟨by rw [ha.nargv, Pos.elements, List.append_assoc], ha.optind⟩

theorem At.ready (ha : At h c prog p s) (hcur : p.cur = none) :
    Ready p.done p.skipped p.pend s.nonoptStart s.nonoptEnd := by
  rw [ha.nonoptStart, ha.nonoptEnd, Pos.startMark, Pos.endMark]
  by_cases hskipped : p.skipped = []
  · rw [if_pos hskipped, if_pos (Or.inl hskipped)]
    exact .unset hskipped (ha.pend hskipped) rfl rfl
  · rw [if_neg hskipped]
    by_cases hpend : p.pend = []
    · rw [if_pos (Or.inr ⟨hpend, hcur⟩)]
      exact .skipping hpend rfl rfl
    · rw [if_neg (not_or.mpr ⟨hskipped, fun hboth => hpend hboth.1⟩)]
      exact .closed hpend rfl rfl

theorem At.facing (ha : At h c prog p s) (hcur : p.cur = some (e, off)) :
    Facing c s e p.rest := by
  have hshape := ha.shape
  rw [Pos.curElems, hcur] at hshape
  exact Shape.facing hshape ha.nargc

end Positions

/-! ## One option -/

section Option

variable {h : Host} {c : Call} {r : Rules} {prog : Text} {p : Pos} {s s' : State}
  {e t : Text} {es rest : List Text} {off : Nat} {ch : Letter}

/-- A letter that stands alone leaves what its element takes to the letters behind it. -/
theorem placeTakes_alone (halone : r.alone off ch t = true) (rest : List Text) (more : Nat) :
    r.placeTakes rest off ch t more = more := by
  rw [Rules.alone, Bool.and_eq_true] at halone
  obtain ⟨hnone, hletter⟩ := halone
  rw [placeTakes_none (of_decide_eq_true hnone), Rules.letterTakes]
  cases hfind : (if ch.val = colon then none else strchr r.options ch.val) with
  | none => rfl
  | some oli =>
      rw [hfind] at hletter
      obtain ⟨hcolon, hw⟩ := of_decide_eq_true hletter
      have hknown : Rules.knownTakes rest oli t more = more := by
        rw [Rules.knownTakes, if_pos hcolon]
      cases hr : r.table with
      | none => exact hknown
      | some table =>
          dsimp only
          rw [if_neg fun hboth => hw ⟨by rw [hr]; rfl, hboth⟩]
          exact hknown

/-- Any other option takes the same whatever stands behind it in its element. -/
theorem placeTakes_const (halone : r.alone off ch t = false) (rest : List Text) (a b : Nat) :
    r.placeTakes rest off ch t a = r.placeTakes rest off ch t b := by
  by_cases hnone : off = 0 ∨ r.long ch t = none
  · rw [placeTakes_none hnone, Rules.letterTakes, Rules.letterTakes]
    rw [Rules.alone, decide_eq_true hnone, Bool.true_and] at halone
    cases hfind : (if ch.val = colon then none else strchr r.options ch.val) with
    | none =>
        rw [hfind] at halone
        cases halone
    | some oli =>
        rw [hfind] at halone
        have hknown : deref oli.tail = colon →
            Rules.knownTakes rest oli t a = Rules.knownTakes rest oli t b := fun hcolon => by
          rw [Rules.knownTakes, Rules.knownTakes, if_neg (not_not.mpr hcolon),
            if_neg (not_not.mpr hcolon)]
        cases hr : r.table with
        | none =>
            refine hknown (by_contra fun hcolon => of_decide_eq_false halone ⟨hcolon, ?_⟩)
            rw [hr]
            exact fun hw => Bool.false_ne_true hw.1
        | some table =>
            dsimp only
            by_cases hw : ch.val = 87 ∧ deref oli.tail = 59
            · rw [if_pos hw, if_pos hw]
            · rw [if_neg hw, if_neg hw]
              exact hknown (by_contra fun hcolon => of_decide_eq_false halone
                ⟨hcolon, fun hboth => hw hboth.2⟩)
  · rw [Rules.placeTakes, Rules.placeTakes, if_neg fun hoff => hnone (Or.inl hoff),
      if_neg fun hoff => hnone (Or.inl hoff)]
    cases hlong : r.long ch t with
    | none => exact absurd (Or.inr hlong) hnone
    | some b => cases b <;> rfl

theorem placeTakes_zero_le (r : Rules) (rest : List Text) (off : Nat) (ch : Letter) (t : Text) :
    r.placeTakes rest off ch t 0 ≤ rest.length := by
  cases halone : r.alone off ch t with
  | true => rw [placeTakes_alone halone]; exact Nat.zero_le _
  | false =>
      rw [placeTakes_const halone rest 0 (r.cluster rest t)]
      exact placeTakes_le r rest off ch t

theorem At.of_keeps (ha : At h c prog p s) (hkeeps : Keeps s s') {q : Pos}
    (helements : q.elements = p.elements) (hoptind : s'.optind = (q.index : Int))
    (hstart : q.startMark = p.startMark) (hend : q.endMark = p.endMark)
    (hpend : q.skipped = [] → q.pend = [])
    (hplace : match q.cur with
      | none => s'.place.text = []
      | some (e, off) => s'.place = .inside e off ∧ e.drop off ≠ []) : At h c prog q s' where
  nargc := by rw [hkeeps.nargv, ha.nargc]
  nargv := by rw [hkeeps.nargv, ha.nargv, helements]
  optind := hoptind
  nonoptStart := by rw [hkeeps.nonoptStart, ha.nonoptStart, hstart]
  nonoptEnd := by rw [hkeeps.nonoptEnd, ha.nonoptEnd, hend]
  pend := hpend
  optreset := hkeeps.optreset.trans ha.optreset
  posixlyCorrect := by rw [hkeeps.posixlyCorrect]; exact ha.posixlyCorrect
  place := hplace

/-- The element is done with, and `k` of those behind it. -/
theorem At.consume (ha : At h c prog p s) (hcur : p.cur = some (e, off)) (hkeeps : Keeps s s')
    {k : Nat} (hk : k ≤ p.rest.length) (hplace : s'.place.text = [])
    (hoptind : s'.optind = s.optind + 1 + k) :
    At h c prog (Pos.consume { p with rest := p.rest.drop k } (e :: p.rest.take k)) s' := by
  have hold := ha.optind
  have hlen : (p.rest.take k).length = k := by rw [List.length_take, Nat.min_eq_left hk]
  have hrest : p.rest.take k ++ p.rest.drop k = p.rest := List.take_append_drop k p.rest
  rw [Pos.consume]
  by_cases hskipped : p.skipped = []
  · have hpend := ha.pend hskipped
    rw [if_pos hskipped]
    refine ha.of_keeps hkeeps ?_ ?_ ?_ ?_ ha.pend hplace
    · simp [Pos.elements, Pos.curElems, hcur, hskipped, hpend, hrest]
    · rw [hoptind, hold]
      simp [Pos.index, hskipped, hpend, hlen]
      omega
    · simp [Pos.startMark, hskipped]
    · simp [Pos.endMark, hskipped]
  · rw [if_neg hskipped]
    refine ha.of_keeps hkeeps ?_ ?_ rfl ?_ (fun hnil => absurd hnil hskipped) hplace
    · simp [Pos.elements, Pos.curElems, hcur, hrest]
    · rw [hoptind, hold]
      simp [Pos.index, hlen]
      omega
    · simp [Pos.endMark, hskipped, hcur]

/-- **The option at the scanning pointer.** -/
theorem option_turn (ha : At h c prog p s) (hr : Reads c r) (hoptarg : s.optarg = none)
    (hcur : p.cur = some (e, off)) (ht : e.drop off = ch :: t) :
    ∃ rc s', option h c r.options r.longonly s = some (rc, s') ∧
      Matches h c r prog (r.optionTurn h p e off ch t) rc s s' := by
  have hplace := ha.place
  rw [hcur] at hplace
  obtain ⟨s', hrun, ⟨hkeeps, hshows⟩, hleaves⟩ :=
    option_spec (h := h) hr (ha.facing hcur) hplace.1 ht hoptarg
  have htail : e.drop (off + 1) = t := by rw [← List.tail_drop, ht, List.tail_cons]
  refine ⟨_, s', hrun, ?_⟩
  rw [Rules.optionTurn]
  cases hleaves with
  | letter hne hplace' hoptind htakes =>
      -- what it takes depends on the letters behind it, so it stands alone
      have halone : r.alone off ch t = true := by
        by_contra hnot
        have := placeTakes_const (Bool.eq_false_iff.mpr hnot) p.rest 0 1
        rw [htakes, htakes] at this
        omega
      rw [if_pos ⟨halone, hne⟩]
      refine ⟨rfl, hshows, ha.of_keeps hkeeps ?_ ?_ rfl ?_ ha.pend ⟨hplace', by rwa [htail]⟩⟩
      · simp [Turn.pos, Pos.elements, Pos.curElems, hcur]
      · rw [hoptind, ha.optind]
        rfl
      · simp [Turn.pos, Pos.endMark, hcur]
  | element hplace' hoptind =>
      have hnot : ¬ (r.alone off ch t = true ∧ t ≠ []) := by
        intro hboth
        obtain ⟨halone, hne⟩ := hboth
        have h0 := hoptind 0 fun hnil => absurd hnil hne
        have h1 := hoptind 1 fun hnil => absurd hnil hne
        rw [placeTakes_alone halone] at h0 h1
        omega
      rw [if_neg hnot]
      exact ⟨rfl, hshows, ha.consume hcur hkeeps (placeTakes_zero_le ..) hplace'
        (hoptind 0 fun _ => rfl)⟩

end Option

/-! ## The next element -/

section Element

variable {h : Host} {c : Call} {r : Rules} {prog : Text} {p : Pos} {s s' : State}
  {e t : Text} {es : List Text} {off : Nat}

/-- The state once an option element was found. -/
theorem At.enter (ha : At h c prog p s) (hcur : p.cur = none) (hrest : p.rest = e :: es)
    (ht : e.drop off ≠ []) :
    At h c prog { p with cur := some (e, off), rest := es }
      { markEnd s with place := .inside e off } := by
  have hstart := ha.nonoptStart
  have hend := ha.nonoptEnd
  have hoptind := ha.optind
  have hkeep : ∀ k : Int, (k = Pos.endMark { p with cur := some (e, off), rest := es }) →
      At h c prog { p with cur := some (e, off), rest := es }
        { s with nonoptEnd := k, place := .inside e off } := fun k hk =>
    { nargc := ha.nargc
      nargv := by rw [ha.nargv]; simp [Pos.elements, Pos.curElems, hcur, hrest]
      optind := hoptind
      nonoptStart := hstart
      nonoptEnd := hk
      pend := ha.pend
      optreset := ha.optreset
      posixlyCorrect := ha.posixlyCorrect
      place := ⟨rfl, ht⟩ }
  rw [markEnd]
  by_cases hskipped : p.skipped = []
  · rw [if_neg (by simp [hstart, Pos.startMark, hskipped])]
    exact hkeep _ (by rw [hend]; simp [Pos.endMark, hskipped])
  · by_cases hpend : p.pend = []
    · have hmarks : s.nonoptStart ≠ -1 ∧ s.nonoptEnd = -1 := by
        simp [hstart, hend, Pos.startMark, Pos.endMark, hskipped, hpend, hcur]
        omega
      rw [if_pos hmarks]
      refine hkeep _ ?_
      rw [hoptind]
      simp [Pos.endMark, Pos.index, hskipped, hpend]
    · have hmarks : ¬ (s.nonoptStart ≠ -1 ∧ s.nonoptEnd = -1) := by
        simp [hend, Pos.endMark, hskipped, hpend]
        omega
      rw [if_neg hmarks]
      exact hkeep _ (by rw [hend]; simp [Pos.endMark, hskipped, hpend])

/-- The position after a scan. -/
theorem At.ended {consumed operands behind : List Text} (ha : At h c prog p s)
    (hlen : s'.nargv.length = s.nargv.length) (hended : Ended prog consumed operands behind s')
    (hforgets : Forgets s s') : At h c prog (.finish consumed (operands ++ behind)) s' where
  nargc := by rw [hlen, ha.nargc]
  nargv := by rw [hended.nargv]; simp [Pos.elements, Pos.curElems, Pos.finish]
  optind := by rw [hended.optind]; simp [Pos.index, Pos.finish]
  nonoptStart := hforgets.nonoptStart
  nonoptEnd := hforgets.nonoptEnd
  pend := fun _ => rfl
  optreset := hforgets.optreset.trans ha.optreset
  posixlyCorrect := by rw [hforgets.posixlyCorrect]; exact ha.posixlyCorrect
  place := by
    show s'.place.text = []
    rw [hforgets.place]
    rfl

/-- A call that ends the scan shows nothing. -/
theorem shows_end {options : Text} {hasIdx : Bool} (hseen : s'.seen = s.seen)
    (hoptarg : s.optarg = none) : Shows options hasIdx (.option (-1) none) s s' := by
  show s'.seen = Seen.mk none _ _ _ _
  rw [hseen, ← hoptarg]
  rfl

/-- **The end of the vector.** -/
theorem endOfVector_turn (ha : At h c prog p s) (hcur : p.cur = none) (hrest : p.rest = [])
    (hoptarg : s.optarg = none) :
    ∃ s', endOfVector s = some (-1, s') ∧
      Matches h c r prog (.ends (.finish (p.done ++ p.pend) p.skipped)) (-1) s s' := by
  have hshape := ha.shape
  rw [Pos.curElems, hcur, hrest] at hshape
  obtain ⟨s', hrun, hended, hforgets⟩ := endOfVector_spec hshape (ha.ready hcur)
  have hlen : s'.nargv.length = s.nargv.length := by
    rw [hended.nargv, hshape.nargv]
    simp
    omega
  have hat := ha.ended hlen hended hforgets
  rw [List.append_nil] at hat
  exact ⟨s', hrun, rfl, shows_end hforgets.seen hoptarg, hat⟩

theorem markEnd_cases (s : State) : ∃ k, markEnd s = { s with nonoptEnd := k } := by
  rw [markEnd]
  split
  · exact ⟨_, rfl⟩
  · exact ⟨s.nonoptEnd, rfl⟩

/-- **The element `--`.** -/
theorem doubleDash_turn (ha : At h c prog p s) (hcur : p.cur = none) (hrest : p.rest = e :: es)
    (hoptarg : s.optarg = none) :
    ∃ s', doubleDash (markEnd s) = some (-1, s') ∧
      Matches h c r prog (.ends (.finish (p.done ++ p.pend ++ [e]) (p.skipped ++ es)))
        (-1) s s' := by
  have hshape := ha.shape
  rw [Pos.curElems, hcur, hrest] at hshape
  have hmarked := (ha.ready hcur).marked hshape
  obtain ⟨k, hk⟩ := markEnd_cases s
  rw [hk] at hmarked ⊢
  obtain ⟨s', hrun, hended, hforgets⟩ :=
    doubleDash_spec (s := { s with nonoptEnd := k }) ⟨hshape.nargv, hshape.optind⟩ hmarked
  have hlen : s'.nargv.length = s.nargv.length := by
    rw [hended.nargv, hshape.nargv]
    simp
    omega
  have hforgets' : Forgets s s' :=
    ⟨⟨hforgets.seen, hforgets.optreset, hforgets.posixlyCorrect⟩, hforgets.place,
      hforgets.nonoptStart, hforgets.nonoptEnd⟩
  exact ⟨s', hrun, rfl, shows_end hforgets'.seen hoptarg, ha.ended hlen hended hforgets'⟩

/-- **An element that starts with `-`.** -/
theorem optionElement_turn (ha : At h c prog p s) (hr : Reads c r) (hcur : p.cur = none)
    (hrest : p.rest = e :: es) (hoptarg : s.optarg = none) (hop : isOperand r.options e = false) :
    ∃ rc s', optionElement h c r.options r.longonly e (markEnd s) = some (rc, s') ∧
      Matches h c r prog
        (if isDashes e then .ends (.finish (p.done ++ p.pend ++ [e]) (p.skipped ++ es))
          else r.elementTurn h { p with rest := es } e) rc s s' := by
  have hmark : (markEnd s).optarg = none ∧ (markEnd s).seen = s.seen := by
    obtain ⟨k, hk⟩ := markEnd_cases s
    rw [hk]
    exact ⟨hoptarg, rfl⟩
  have hoption : ∀ {off : Nat} {ch : Letter} {t : Text}, e.drop off = ch :: t →
      ∃ rc s', option h c r.options r.longonly { markEnd s with place := .inside e off } =
          some (rc, s') ∧
        Matches h c r prog (r.optionTurn h { p with rest := es } e off ch t) rc s s' := by
    intro off ch t ht
    have hoff : e.drop off ≠ [] := by rw [ht]; exact List.cons_ne_nil _ _
    obtain ⟨rc, s', hrun, hrc, hshows, hat⟩ :=
      option_turn (ha.enter hcur hrest hoff) hr hmark.1 rfl ht
    refine ⟨rc, s', hrun, hrc, ?_, hat⟩
    show s'.seen = Outcome.shown _ _ _ s.seen
    rw [← hmark.2]
    exact hshows
  rw [optionElement]
  cases e with
  | nil => simp [isOperand, deref] at hop
  | cons d t =>
      rw [List.tail_cons]
      cases t with
      | nil => exact hoption rfl
      | cons ch t =>
          rw [if_pos (show deref (ch :: t) ≠ 0 from ch.2)]
          by_cases hdashes : deref (ch :: t) = 45 ∧ deref (ch :: t).tail = 0
          · obtain ⟨s', hrun, hmatches⟩ := doubleDash_turn (r := r) ha hcur hrest hoptarg
            rw [if_pos hdashes, if_pos (show isDashes (d :: ch :: t) = true from
              decide_eq_true hdashes)]
            exact ⟨-1, s', hrun, hmatches⟩
          · rw [if_neg hdashes, if_neg (show ¬ isDashes (d :: ch :: t) = true by
              rw [show isDashes (d :: ch :: t) = false from decide_eq_false hdashes]; decide)]
            exact hoption rfl

/-- An operand that is passed over. -/
theorem skipOperand_turn (ha : At h c prog p s) (hcur : p.cur = none) (hrest : p.rest = e :: es) :
    ∃ s', skipOperand { s with place := .emsg } = some s' ∧ s'.seen = s.seen ∧
      At h c prog ⟨p.done ++ p.pend, p.skipped ++ [e], [], none, es⟩ s' := by
  have hshape := ha.shape
  rw [Pos.curElems, hcur, hrest] at hshape
  obtain ⟨s', hrun, hshape', hready, hplace, hseen, hreset, hposix⟩ :=
    skipOperand_spec (s := { s with place := .emsg }) ⟨hshape.nargv, hshape.optind⟩ (ha.ready hcur)
  have hne : p.skipped ++ [e] ≠ [] := by simp
  refine ⟨s', hrun, hseen, ?_, ?_, hshape'.optind, ?_, ?_, fun hnil => absurd hnil hne,
    hreset.trans ha.optreset, by rw [hposix]; exact ha.posixlyCorrect, ?_⟩
  · rw [ha.nargc, hshape.length, hshape'.length]
    simp
    omega
  · rw [hshape'.nargv]
    simp [Pos.elements, Pos.curElems]
  · cases hready with
    | unset hnil => exact absurd hnil hne
    | skipping _ hstart _ => rw [hstart]; simp [Pos.startMark]
    | closed hnil => exact absurd rfl hnil
  · cases hready with
    | unset hnil => exact absurd hnil hne
    | skipping _ _ hend => rw [hend]; simp [Pos.endMark]
    | closed hnil => exact absurd rfl hnil
  · show s'.place.text = []
    rw [hplace]
    rfl

end Element

/-! ## A call -/

section Call

variable {h : Host} {c : Call} {r : Rules} {prog : Text} {p : Pos} {s s' : State}
  {flags : Flags} {options : Text}

/-- A new element replaces the old scanning pointer. -/
theorem element_place (h : Host) (c : Call) (flags : Flags) (options : Text)
    (again : State → Option (Int × State)) (s : State) (place : Place) :
    element h c flags options again { s with place := place } =
      element h c flags options again s := by
  have hmark : ∀ place : Place, { markEnd { s with place := place } with place := .emsg } =
      ({ markEnd s with place := .emsg } : State) := fun place => by
    rw [markEnd, markEnd]
    dsimp only
    split <;> rfl
  have hdash : ∀ s : State, doubleDash s = doubleDash { s with place := .emsg } := fun _ => rfl
  have hoption : ∀ elem : Text, optionElement h c options flags.longonly elem
        (markEnd { s with place := place }) =
      optionElement h c options flags.longonly elem (markEnd s) := fun elem => by
    have hput : ∀ place' : Place, { markEnd { s with place := place } with place := place' } =
        ({ markEnd s with place := place' } : State) := fun place' =>
      congrArg (fun s : State => { s with place := place' }) (hmark place)
    rw [optionElement, optionElement, hput, hput, hdash, hmark, ← hdash]
  rw [element, element]
  have harg : State.arg { s with place := place } s.optind = s.arg s.optind := arg_of_nargv rfl _
  dsimp only
  rw [harg]
  simp only [hoption]
  rfl

/-- A reset drops the scanning pointer. -/
theorem start_reset {fuel : Nat} (hreset : s.optreset ≠ 0) :
    start h c flags options (fuel + 1) s =
      start h c flags options (fuel + 1) { s with optreset := 0, place := .emsg } := by
  have hempty : ({ s with optreset := 0, place := .emsg } : State).place.text = [] := rfl
  rw [start, start, if_pos (Or.inl hreset), if_pos (Or.inr hempty)]
  exact (element_place ..).symm

/-- **The loop at the label `start`**, from one element to the next. -/
theorem start_turn (hr : Reads c r) (hlongonly : flags.longonly = r.longonly) :
    ∀ {rest : List Text} {fuel : Nat} {p : Pos} {s : State}, p.rest = rest → rest.length < fuel →
      At h c prog p s → p.cur = none → (flags.mode = .permute ∨ p.skipped = []) →
      s.optarg = none →
      ∃ rc s', start h c flags r.options fuel s = some (rc, s') ∧
        Matches h c r prog (r.turnAt h flags.mode p.done p.skipped p.pend rest) rc s s' := by
  intro rest
  induction rest with
  | nil =>
      intro fuel p s hrest hfuel ha hcur _ hoptarg
      obtain ⟨fuel, rfl⟩ : ∃ k, fuel = k + 1 := ⟨fuel - 1, by omega⟩
      have hplace := ha.place
      rw [hcur] at hplace
      have hsame : ({ s with optreset := 0 } : State) = s := by rw [← ha.optreset]
      have hshape := ha.shape
      rw [Pos.curElems, hcur, hrest] at hshape
      have hend : s.optind ≥ c.nargc := by
        rw [ha.nargc, hshape.optind, hshape.length]
        simp
      obtain ⟨s', hrun, hmatches⟩ := endOfVector_turn (r := r) ha hcur hrest hoptarg
      rw [start, if_pos (Or.inr hplace), hsame, element, if_pos hend]
      exact ⟨-1, s', hrun, hmatches⟩
  | cons e es ih =>
      intro fuel p s hrest hfuel ha hcur hmode hoptarg
      obtain ⟨fuel, rfl⟩ : ∃ k, fuel = k + 1 := ⟨fuel - 1, by omega⟩
      have hplace := ha.place
      rw [hcur] at hplace
      have hsame : ({ s with optreset := 0 } : State) = s := by rw [← ha.optreset]
      have hshape := ha.shape
      rw [Pos.curElems, hcur, hrest] at hshape
      have hfacing : Facing c s e es := Shape.facing hshape ha.nargc
      have hmore : ¬ s.optind ≥ c.nargc := by
        rw [hfacing.nargc]
        omega
      rw [start, if_pos (Or.inr hplace), hsame, element, if_neg hmore, hfacing.here,
        Rules.turnAt.eq_def]
      dsimp only
      cases hop : isOperand r.options e with
      | false =>
          rw [if_neg Bool.false_ne_true, if_neg Bool.false_ne_true, hlongonly]
          have hturn := optionElement_turn ha hr hcur hrest hoptarg hop
          rw [show ({ p with rest := es } : Pos) = ⟨p.done, p.skipped, p.pend, none, es⟩ by
            rw [← hcur]] at hturn
          exact hturn
      | true =>
          rw [if_pos rfl, if_pos rfl, Flags.mode]
          by_cases hall : flags.allargs = true
          · -- an operand in its place
            have hskipped : p.skipped = [] := hmode.resolve_left (by
              rw [Flags.mode, if_pos hall]
              decide)
            have hpend := ha.pend hskipped
            rw [if_pos hall, if_pos hall]
            refine ⟨_, _, rfl, rfl, rfl, ?_⟩
            rw [Turn.pos, Pos.consume, if_pos hskipped]
            refine ⟨ha.nargc, ?_, ?_, ?_, ?_, ha.pend, ha.optreset, ha.posixlyCorrect, rfl⟩
            · rw [ha.nargv]
              simp [Pos.elements, Pos.curElems, hcur, hrest, hskipped, hpend]
            · show s.optind + 1 = _
              rw [ha.optind]
              simp [Pos.index, hskipped, hpend]
              omega
            · exact ha.nonoptStart.trans (by simp [Pos.startMark, hskipped])
            · exact ha.nonoptEnd.trans (by simp [Pos.endMark, hskipped])
          · rw [if_neg hall, if_neg hall]
            cases hperm : flags.permute with
            | false =>
                -- the scan ends in front of the operand
                refine ⟨-1, _, rfl, rfl, shows_end rfl hoptarg, ?_⟩
                refine ⟨ha.nargc, ?_, ha.optind, ha.nonoptStart, ?_, ha.pend, ha.optreset,
                  ha.posixlyCorrect, rfl⟩
                · rw [ha.nargv]
                  simp [Turn.pos, Pos.elements, Pos.curElems, hcur, hrest]
                · exact ha.nonoptEnd.trans (by simp [Turn.pos, Pos.endMark, hcur])
            | true =>
                have hflags : flags.mode = .permute := by rw [Flags.mode, if_neg hall, if_pos hperm]
                obtain ⟨s₁, hskip, hseen, hat⟩ := skipOperand_turn ha hcur hrest
                obtain ⟨rc, s', hrun, hrc, hshows, hat'⟩ := @ih fuel _ _ rfl
                  (by simpa using hfuel) hat rfl (Or.inl hflags)
                  ((congrArg Seen.optarg hseen).trans hoptarg)
                rw [hflags] at hrc hshows hat'
                refine ⟨rc, s', ?_, hrc, ?_, hat'⟩
                · show (skipOperand _).bind _ = _
                  rw [hskip]
                  exact hrun
                · show s'.seen = Outcome.shown _ _ _ s.seen
                  rw [← hseen]
                  exact hshows

/-- The rules that a call of `getopt_internal` follows. -/
def rulesOf (c : Call) (flags : Flags) (options : Text) : Rules :=
  ⟨skipMode options, c.longOptions, flags.longonly⟩

/-- What it does with an operand. -/
def modeOf (h : Host) (flags : Flags) (options : Text) : Mode :=
  (modeFlags h.posix options flags).mode

theorem modeFlags_longonly (posixlyCorrect : Int) (options : Text) (flags : Flags) :
    (modeFlags posixlyCorrect options flags).longonly = flags.longonly := by
  rw [modeFlags]
  split
  · rfl
  · split <;> rfl

/-- Between two calls, only the environment is looked at first. -/
theorem At.prepare (ha : At h c prog p s) : prepare h s = { s with posixlyCorrect := h.posix } := by
  have hoptind : ¬ s.optind = 0 := by
    rw [ha.optind, Pos.index]
    omega
  rw [Getopt.prepare, if_neg hoptind]
  rcases ha.posixlyCorrect with hp | hp
  · rw [if_pos (Or.inl hp)]
    rfl
  · by_cases hunset : s.posixlyCorrect = -1
    · rw [if_pos (Or.inl hunset)]
      rfl
    · rw [if_neg (not_or.mpr ⟨hunset, not_not.mpr ha.optreset⟩), ← hp]

/-- The part before the label `start`, between two calls. -/
theorem internal_start (hoptions : c.options = some options) (ha : At h c prog p s)
    (flags : Flags) : getoptInternal h c flags s =
      start h c (modeFlags h.posix options flags) (skipMode options) (c.nargc.toNat + 1)
        { s with posixlyCorrect := h.posix, optarg := none } := by
  rw [getoptInternal, hoptions]
  dsimp only
  rw [ha.prepare, if_neg (not_not.mpr ha.optreset)]

/-- **A call between two others.** -/
theorem internal_turn (hoptions : c.options = some options)
    (hr : Reads c (rulesOf c flags options)) (ha : At h c prog p s)
    (hmode : modeOf h flags options = .permute ∨ p.skipped = []) :
    ∃ rc s', getoptInternal h c flags s = some (rc, s') ∧
      Matches h c (rulesOf c flags options) prog
        ((rulesOf c flags options).turn h (modeOf h flags options) p) rc s s' := by
  have hat : At h c prog p { s with posixlyCorrect := h.posix, optarg := none } :=
    { ha with posixlyCorrect := Or.inr rfl }
  rw [internal_start hoptions ha, Rules.turn.eq_def]
  cases hcur : p.cur with
  | none =>
      have hlen : p.rest.length < c.nargc.toNat + 1 := by
        rw [ha.nargc, ha.shape.length, Pos.curElems, hcur]
        simp
        omega
      obtain ⟨rc, s', hrun, hmatches⟩ := start_turn (r := rulesOf c flags options) hr
        (modeFlags_longonly ..) rfl hlen hat hcur hmode rfl
      exact ⟨rc, s', hrun, hmatches.rc, hmatches.shows, hmatches.at_⟩
  | some x =>
      obtain ⟨e, off⟩ := x
      have hplace := ha.place
      rw [hcur] at hplace
      obtain ⟨ch, t, ht⟩ := List.exists_cons_of_ne_nil hplace.2
      have htext : ¬ (s.optreset ≠ 0 ∨ s.place.text = []) := by
        rw [hplace.1]
        exact not_or.mpr ⟨not_not.mpr ha.optreset, hplace.2⟩
      rw [start, if_neg htext, modeFlags_longonly]
      dsimp only
      rw [ht]
      obtain ⟨rc, s', hrun, hmatches⟩ :=
        option_turn (r := rulesOf c flags options) hat hr rfl hcur ht
      exact ⟨rc, s', hrun, hmatches.rc, hmatches.shows, hmatches.at_⟩

/-- The caller asks the parser to start over at element number `i`. -/
structure Restarts (s : State) (i : Nat) : Prop where
  optind : (s.optind = 0 ∧ i = 1) ∨ (s.optreset ≠ 0 ∧ s.optind = (i : Int))
  pos : 0 < i

/-- The position at element number `i`. -/
def Pos.start (es : List Text) (i : Nat) : Pos := .finish (es.take (i - 1)) (es.drop (i - 1))

theorem Restarts.prepare {i : Nat} (hs : Restarts s i) (h : Host) : ∃ v : Int, v ≠ 0 ∧
    Getopt.prepare h s = { s with optind := i, optreset := v, posixlyCorrect := h.posix } := by
  have hpos := hs.pos
  rw [Getopt.prepare]
  rcases hs.optind with ⟨hzero, rfl⟩ | ⟨hreset, hoptind⟩
  · rw [if_pos hzero, if_pos (Or.inr Int.one_ne_zero)]
    exact ⟨1, Int.one_ne_zero, rfl⟩
  · have hne : ¬ s.optind = 0 := by omega
    rw [if_neg hne, if_pos (Or.inr hreset), ← hoptind]
    exact ⟨s.optreset, hreset, rfl⟩

/-- What the label `start` makes of it. -/
theorem at_restarted {es : List Text} {i : Nat} (hnargc : c.nargc = s.nargv.length)
    (hnargv : s.nargv = prog :: es) (hpos : 0 < i) (hi : i ≤ s.nargv.length) :
    At h c prog (.start es i) { s with
      optind := i, optreset := 0, posixlyCorrect := h.posix, optarg := none, place := .emsg,
      nonoptStart := -1, nonoptEnd := -1 } where
  nargc := hnargc
  nargv := by rw [hnargv]; simp [Pos.elements, Pos.start, Pos.finish, Pos.curElems]
  optind := by
    rw [hnargv] at hi
    simp only [List.length_cons] at hi
    simp only [Pos.index, Pos.start, Pos.finish, List.length_take, List.length_nil]
    omega
  nonoptStart := rfl
  nonoptEnd := rfl
  pend := fun _ => rfl
  optreset := rfl
  posixlyCorrect := Or.inr rfl
  place := rfl

/-- **A call that starts over**, whatever the position was. -/
theorem internal_restart {es : List Text} {i : Nat} (hoptions : c.options = some options)
    (hr : Reads c (rulesOf c flags options)) (hnargc : c.nargc = s.nargv.length)
    (hnargv : s.nargv = prog :: es) (hs : Restarts s i) (hi : i ≤ s.nargv.length) :
    ∃ rc s', getoptInternal h c flags s = some (rc, s') ∧
      Matches h c (rulesOf c flags options) prog
        ((rulesOf c flags options).turn h (modeOf h flags options) (.start es i)) rc s s' := by
  obtain ⟨v, hv, hprepare⟩ := hs.prepare h
  have hat := at_restarted (h := h) (s := s) hnargc hnargv hs.pos hi
  have hlen : (es.drop (i - 1)).length < c.nargc.toNat + 1 := by
    rw [hnargc, hnargv, List.length_drop, List.length_cons]
    omega
  obtain ⟨rc, s', hrun, hmatches⟩ := @start_turn h c (rulesOf c flags options) prog
    (modeFlags h.posix options flags) hr (modeFlags_longonly ..) _ _ _ _ rfl hlen hat rfl
    (Or.inr rfl) rfl
  refine ⟨rc, s', ?_, ⟨hmatches.rc, hmatches.shows, hmatches.at_⟩⟩
  rw [getoptInternal, hoptions]
  dsimp only
  rw [hprepare, if_pos hv, start_reset hv]
  exact hrun

end Call

end LibrePortable.Getopt
