import LibrePortable.Getopt.Plays

/-!
# `getopt` as a parser

What `getopt` says of a vector, by plain recursion on the list of its elements and on the
letters of each, with no position kept anywhere. The calls give these answers one by one.
-/

namespace LibrePortable.Getopt

namespace Posix

/-- How an option letter takes an argument. -/
inductive Arity where
  | alone
  | required
  | optional

/-- What the colons behind a letter say. -/
def colons : Text → Arity
  | [] => .alone
  | [c] => if c.val = colon then .required else .alone
  | c :: d :: _ => if c.val ≠ colon then .alone else if d.val = colon then .optional else .required

/-- The letter in the option string. -/
def arity : Text → Letter → Option Arity
  | [], _ => none
  | c :: t, ch => if c = ch then some (colons t) else arity t ch

/-- `-`. -/
def dash : Letter := ⟨45, by decide⟩

/-- What one call answers: `optopt` goes with an error. -/
structure Reply where
  rc : Int
  optarg : Option Text
  optopt : Option Int
  deriving DecidableEq

/-- The letters of an element, in front of the element `next`, and whether they take it. -/
def cluster (h : Host) (options : Text) (next : Option Text) : Text → List Reply × Bool
  | [] => ([], false)
  | ch :: t =>
      let c := h.toInt ch.val
      match if ch.val = colon then none else arity options ch with
      | none =>
          let (replies, taken) := cluster h options next t
          (⟨badch, none, some c⟩ :: replies, taken)
      | some .alone =>
          let (replies, taken) := cluster h options next t
          (⟨c, none, none⟩ :: replies, taken)
      | some .optional => ([⟨c, if t = [] then none else some t, none⟩], false)
      | some .required =>
          if t ≠ [] then ([⟨c, some t, none⟩], false)
          else
            match next with
            | none => ([⟨badarg options, none, some c⟩], false)
            | some e => ([⟨c, some e, none⟩], true)

/-- An element that is not an option. -/
def operand (options : Text) : Text → Bool
  | [] => true
  | [d] => d ≠ dash ∨ dash ∉ options
  | d :: _ => d ≠ dash

/-- The letters of an element that is one. -/
def letters : Text → Text
  | [d] => [d]
  | e => e.tail

/-- **The parser**: its answers, and how many elements it reads. -/
def parse (h : Host) (options : Text) : List Text → List Reply × Nat
  | [] => ([], 0)
  | e :: es =>
      if operand options e then ([], 0)
      else if e = [dash, dash] then ([], 1)
      else
        match cluster h options es.head? (letters e), es with
        | (replies, true), _ :: rest =>
            let (more, used) := parse h options rest
            (replies ++ more, used + 2)
        | (replies, _), es =>
            let (more, used) := parse h options es
            (replies ++ more, used + 1)

/-- What a call returned, with the variables it left, is this answer. -/
structure Answers (x : Int × State) (a : Reply) : Prop where
  rc : x.1 = a.rc
  optarg : x.2.optarg = a.optarg
  optopt : ∀ v, a.optopt = some v → x.2.optopt = v

/-- **The calls of `getopt` are the parser**: one answer each, then -1 with `optind` behind what
was read, and the vector as it was. -/
def Parses (h : Host) (c : Call) (options : Text) (s : State) : Prop :=
  ∃ rets s' last,
    calls (getopt h c) (parse h options s.nargv.tail).1.length s = some (rets, s') ∧
      List.Forall₂ Answers rets (parse h options s.nargv.tail).1 ∧
      (∀ x ∈ rets, x.2.nargv = s.nargv) ∧
      getopt h c s' = some (-1, last) ∧ last.optarg = none ∧ last.nargv = s.nargv ∧
      last.optind = ((1 + (parse h options s.nargv.tail).2 : Nat) : Int)

/-! ## Letters -/

section Letters

variable {h : Host} {options e t : Text} {ch : Letter} {off : Nat} {es done : List Text}
  {o : Outcome}

/-- `getopt` has no long options. -/
def rules (options : Text) : Rules := ⟨options, none, false⟩

/-- The answer that an outcome is. -/
def reply (o : Outcome) : Reply := ⟨o.rc, o.optarg, o.error.map Prod.fst⟩

theorem colons_eq (t : Text) : colons t =
    if deref t ≠ colon then .alone else if deref t.tail = colon then .optional else .required := by
  match t with
  | [] => rfl
  | [c] =>
      by_cases hc : c.val = colon
      · exact (if_pos hc).trans ((if_neg (not_not.mpr hc)).trans
        (if_neg (show ¬ (0 : UInt8) = colon by decide))).symm
      · exact (if_neg hc).trans (if_pos hc).symm
  | c :: d :: t => rfl

theorem arity_eq (ch : Letter) : ∀ options : Text,
    arity options ch = (strchr options ch.val).map fun oli => colons oli.tail
  | [] => by rw [arity, strchr, if_neg ch.2]; rfl
  | c :: t => by
      rw [arity, strchr]
      by_cases hc : c = ch
      · rw [if_pos hc, if_pos (congrArg Subtype.val hc)]
        rfl
      · rw [if_neg hc, if_neg fun hval => hc (Subtype.ext hval)]
        exact arity_eq ch t

/-- The letter in the option string, as the parser and as the rules find it. -/
theorem find_eq (options : Text) (ch : Letter) :
    (if ch.val = colon then none else arity options ch) =
      (if ch.val = colon then none else strchr options ch.val).map fun oli => colons oli.tail := by
  split
  · rfl
  · exact arity_eq ch options

/-- Inside an element, unless it has no letters left. -/
def inside (done : List Text) (e : Text) (off : Nat) (es : List Text) : Pos :=
  if e.drop off = [] then .finish (done ++ [e]) es else ⟨done, [], [], some (e, off), es⟩

theorem turn_inside (ht : e.drop off = ch :: t) :
    (rules options).turn h .stop (inside done e off es) =
    (rules options).optionTurn h ⟨done, [], [], some (e, off), es⟩ e off ch t := by
  rw [inside, if_neg (by rw [ht]; exact List.cons_ne_nil _ _), Rules.turn]
  dsimp only
  rw [ht]

/-- A letter that stands alone is followed by the next one. -/
theorem turn_alone (ht : e.drop off = ch :: t) (halone : (rules options).alone off ch t = true)
    (hout : (rules options).letterOutcome h es ch t = o) :
    (rules options).turn h .stop (inside done e off es) =
      .shows o (inside done e (off + 1) es) := by
  have htail : e.drop (off + 1) = t := by rw [← List.tail_drop, ht, List.tail_cons]
  rw [turn_inside ht, Rules.optionTurn, placeOutcome_letter (Or.inr rfl), hout, inside, htail]
  by_cases hnil : t = []
  · rw [if_neg fun hboth => hboth.2 hnil, if_pos hnil, placeTakes_alone halone]
    rfl
  · rw [if_pos ⟨halone, hnil⟩, if_neg hnil]

/-- Any other letter ends its element, and takes the next one if it must. -/
theorem turn_last {k : Nat} (ht : e.drop off = ch :: t)
    (halone : (rules options).alone off ch t = false)
    (hout : (rules options).letterOutcome h es ch t = o)
    (htakes : (rules options).letterTakes es ch t 0 = k) :
    (rules options).turn h .stop (inside done e off es) =
      .shows o (.finish (done ++ e :: es.take k) (es.drop k)) := by
  have hnot : ¬ ((rules options).alone off ch t = true ∧ t ≠ []) := fun hboth => by
    rw [halone] at hboth
    exact Bool.false_ne_true hboth.1
  rw [turn_inside ht, Rules.optionTurn, placeOutcome_letter (Or.inr rfl), hout, if_neg hnot,
    placeTakes_none (Or.inr rfl), htakes]
  rfl

/-- From the place `off` in the element, the turns give these answers and then go on behind the
element, and behind the next one if that was taken. -/
def Continues (h : Host) (options : Text) (done : List Text) (e : Text) (off : Nat) (es : List Text)
    (x : List Reply × Bool) : Prop :=
  ∃ os : List Outcome, os.map reply = x.1 ∧ ∀ {os' : List Outcome} {q : Pos},
    (rules options).Plays h .stop (.finish (done ++ e :: es.take x.2.toNat) (es.drop x.2.toNat))
      os' q → (rules options).Plays h .stop (inside done e off es) (os ++ os') q

theorem Continues.nil (ht : e.drop off = []) : Continues h options done e off es ([], false) :=
  ⟨[], rfl, fun hplays => by rw [inside, if_pos ht]; exact hplays⟩

theorem Continues.alone {x : List Reply × Bool} (ht : e.drop off = ch :: t)
    (halone : (rules options).alone off ch t = true)
    (hout : (rules options).letterOutcome h es ch t = o)
    (hx : Continues h options done e (off + 1) es x) :
    Continues h options done e off es (reply o :: x.1, x.2) := by
  obtain ⟨os, hos, hrest⟩ := hx
  exact ⟨o :: os, congrArg (reply o :: ·) hos,
    fun hplays => .shows (turn_alone ht halone hout) (hrest hplays)⟩

theorem Continues.last (taken : Bool) (ht : e.drop off = ch :: t)
    (halone : (rules options).alone off ch t = false)
    (hout : (rules options).letterOutcome h es ch t = o)
    (htakes : (rules options).letterTakes es ch t 0 = taken.toNat) :
    Continues h options done e off es ([reply o], taken) :=
  ⟨[o], rfl, fun hplays => .shows (turn_last ht halone hout htakes) hplays⟩

/-- **The letters of an element** are what the parser says. -/
theorem plays_cluster (h : Host) (options : Text) (done es : List Text) (e : Text) :
    ∀ {t : Text} {off : Nat}, e.drop off = t →
      Continues h options done e off es (cluster h options es.head? t)
  | [], off, ht => .nil ht
  | ch :: t, off, ht => by
      have htail : e.drop (off + 1) = t := by rw [← List.tail_drop, ht, List.tail_cons]
      have hrest := plays_cluster h options done es e htail
      rw [cluster.eq_def]
      dsimp only
      rw [find_eq]
      cases holi : (if ch.val = colon then none else strchr options ch.val) with
      | none =>
          have halone : (rules options).alone off ch t = true := by
            simp only [Rules.alone, rules, Rules.long, holi, or_true, decide_true, Bool.true_and]
          have hout : (rules options).letterOutcome h es ch t =
              .fail badch (h.toInt ch.val) illoptchar (.char (h.toInt ch.val)) := by
            simp only [Rules.letterOutcome, rules, holi]
          exact hrest.alone ht halone hout
      | some oli =>
          have hout : (rules options).letterOutcome h es ch t =
              (rules options).knownOutcome es (h.toInt ch.val) oli t := by
            simp only [Rules.letterOutcome, rules, holi]
          have htakes : (rules options).letterTakes es ch t 0 = Rules.knownTakes es oli t 0 := by
            simp only [Rules.letterTakes, rules, holi]
          have halone : (rules options).alone off ch t = decide (deref oli.tail ≠ colon) := by
            simp [Rules.alone, rules, Rules.long, holi]
          rw [Rules.knownOutcome.eq_def] at hout
          rw [Rules.knownTakes] at htakes
          rw [Option.map_some, colons_eq]
          by_cases hcolon : deref oli.tail = colon
          · rw [if_neg (not_not.mpr hcolon)] at hout htakes ⊢
            rw [decide_eq_false (not_not.mpr hcolon)] at halone
            by_cases hopt : deref oli.tail.tail = colon
            · rw [if_pos (Or.inr hopt)] at htakes
              rw [if_pos hopt] at hout ⊢
              by_cases hnil : t = []
              · rw [if_neg (not_not.mpr hnil)] at hout
                dsimp only
                rw [if_pos hnil]
                exact .last false ht halone hout htakes
              · rw [if_pos hnil] at hout
                dsimp only
                rw [if_neg hnil]
                exact .last false ht halone hout htakes
            · rw [if_neg hopt] at hout ⊢
              dsimp only
              by_cases hnil : t = []
              · rw [if_neg (not_not.mpr hnil)] at hout ⊢
                rw [if_neg (not_or.mpr ⟨not_not.mpr hnil, hopt⟩)] at htakes
                cases es with
                | nil => exact .last false ht halone hout htakes
                | cons e' es =>
                    refine .last true ht halone hout (htakes.trans ?_)
                    simp [Rules.one]
              · rw [if_pos hnil] at hout ⊢
                rw [if_pos (Or.inl hnil)] at htakes
                exact .last false ht halone hout htakes
          · rw [if_pos hcolon] at hout ⊢
            rw [decide_eq_true hcolon] at halone
            exact hrest.alone ht halone hout

end Letters

/-! ## Elements -/

section Elements

variable {h : Host} {options e : Text} {s : State} {c : Call}

theorem strchr_eq_none (ch : Letter) : ∀ t : Text, strchr t ch.val = none ↔ ch ∉ t
  | [] => by rw [strchr, if_neg ch.2]; simp
  | c :: t => by
      rw [strchr, List.mem_cons, not_or]
      by_cases hc : c = ch
      · rw [if_pos (congrArg Subtype.val hc)]
        exact ⟨fun hnone => absurd hnone (Option.some_ne_none _), fun hne => absurd hc.symm hne.1⟩
      · rw [if_neg fun hval => hc (Subtype.ext hval), strchr_eq_none ch t]
        exact ⟨fun hmem => ⟨fun heq => hc heq.symm, hmem⟩, And.right⟩

theorem operand_eq (options : Text) : ∀ e : Text, operand options e = isOperand options e
  | [] => rfl
  | [d] => by
      have hd : d = dash ↔ d.val = 45 := Subtype.ext_iff
      have hmem : strchr options 45 = none ↔ dash ∉ options := strchr_eq_none dash options
      rw [operand, isOperand, decide_eq_decide]
      simp only [deref, List.tail_cons, true_and, hmem, ne_eq, hd]
  | d :: ch :: t => by
      have hd : d = dash ↔ d.val = 45 := Subtype.ext_iff
      rw [operand, isOperand, decide_eq_decide]
      · simp only [deref, List.tail_cons, ch.2, false_and, or_false, ne_eq, hd]
      · exact List.cons_ne_nil _ _

theorem isDashes_iff (hop : isOperand options e = false) :
    isDashes e = true ↔ e = [dash, dash] := by
  constructor
  · intro hdashes
    obtain ⟨hfst, hsnd⟩ := of_decide_eq_true hdashes
    have hdash : deref e = 45 := by
      by_contra hne
      simp [isOperand, hne] at hop
    rcases e with _ | ⟨d, _ | ⟨d', _ | ⟨x, t⟩⟩⟩
    · exact absurd hdash (by decide)
    · exact absurd hfst (show ¬ (0 : UInt8) = 45 by decide)
    · rw [show d = dash from Subtype.ext hdash, show d' = dash from Subtype.ext hfst]
    · exact absurd hsnd x.2
  · intro heq
    subst heq
    rfl

/-- The parser reads no more elements than there are. -/
theorem parse_le (h : Host) (options : Text) (es : List Text) :
    (parse h options es).2 ≤ es.length := by
  match es with
  | [] => exact Nat.le_refl _
  | e :: es =>
      rw [parse.eq_def]
      dsimp only
      split
      · exact Nat.zero_le _
      · split
        · exact Nat.succ_le_succ (Nat.zero_le _)
        · cases hcluster : cluster h options es.head? (letters e) with
          | mk replies taken =>
              cases taken with
              | false => exact Nat.succ_le_succ (parse_le h options es)
              | true =>
                  cases es with
                  | nil => exact Nat.le_refl _
                  | cons e' es => exact Nat.succ_le_succ (Nat.succ_le_succ (parse_le h options es))
termination_by es.length

/-- **The turns from a position are the parser** of the elements behind it. -/
theorem plays_parse (h : Host) (options : Text) (es done : List Text) :
    ∃ os : List Outcome, os.map reply = (parse h options es).1 ∧
      (rules options).Plays h .stop (.finish done es) os
        (.finish (done ++ es.take (parse h options es).2) (es.drop (parse h options es).2)) := by
  cases es with
  | nil => exact ⟨[], rfl, .ends rfl⟩
  | cons e es =>
      rw [parse.eq_def]
      dsimp only
      rw [operand_eq]
      cases hop : isOperand options e with
      | true =>
          refine ⟨[], rfl, .ends ?_⟩
          simp [Rules.turn, Rules.turnAt, Pos.finish, rules, hop]
      | false =>
          rw [if_neg Bool.false_ne_true]
          cases hdashes : isDashes e with
          | true =>
              rw [if_pos ((isDashes_iff hop).mp hdashes)]
              refine ⟨[], rfl, .ends ?_⟩
              simp [Rules.turn, Rules.turnAt, Pos.finish, rules, hop, hdashes]
          | false =>
              rw [if_neg fun he => by rw [(isDashes_iff hop).mpr he] at hdashes; cases hdashes]
              obtain ⟨off, hoff, hplace, hturn⟩ := turn_enter (r := rules options) hop hdashes
              have hletters : e.drop off = letters e := by
                rcases hplace with ⟨rfl, htail⟩ | rfl
                · obtain ⟨d, t, rfl⟩ := exists_cons_of_option (r := rules options) hop
                  obtain rfl : t = [] := htail
                  rfl
                · rcases e with _ | ⟨d, _ | ⟨ch, t⟩⟩
                  · exact absurd rfl hoff
                  · exact absurd rfl hoff
                  · rfl
              have hinside : inside done e off es = ⟨done, [], [], some (e, off), es⟩ :=
                if_neg hoff
              -- what the element's letters show, and then what the rest shows
              have hjoin : ∀ {replies more : List Reply} {taken : Bool} {used : Nat}
                  {os : List Outcome}, cluster h options es.head? (letters e) = (replies, taken) →
                  os.map reply = more →
                  (rules options).Plays h .stop
                    (.finish (done ++ e :: es.take taken.toNat) (es.drop taken.toNat)) os
                    (.finish (done ++ (e :: es).take used) ((e :: es).drop used)) →
                  ∃ os : List Outcome, os.map reply = replies ++ more ∧
                    (rules options).Plays h .stop (.finish done (e :: es)) os
                      (.finish (done ++ (e :: es).take used) ((e :: es).drop used)) := by
                intro replies more taken used os' hcluster hos' hplays'
                obtain ⟨os, hos, hrest⟩ := plays_cluster h options done es e hletters
                rw [hcluster] at hos hrest
                have hplays := hrest hplays'
                rw [hinside] at hplays
                exact ⟨os ++ os', by rw [List.map_append, hos, hos'],
                  hplays.congr (hturn h .stop done [] [] es)⟩
              cases hcluster : cluster h options es.head? (letters e) with
              | mk replies taken =>
                  cases taken with
                  | false =>
                      obtain ⟨os, hos, hplays⟩ := plays_parse h options es (done ++ [e])
                      refine hjoin hcluster hos ?_
                      simpa using hplays
                  | true =>
                      cases es with
                      | nil =>
                          obtain ⟨os, hos, hplays⟩ := plays_parse h options [] (done ++ [e])
                          refine hjoin hcluster hos ?_
                          simpa using hplays
                      | cons e' es =>
                          obtain ⟨os, hos, hplays⟩ := plays_parse h options es (done ++ [e, e'])
                          refine hjoin hcluster hos ?_
                          simpa using hplays
termination_by es.length

end Elements

/-! ## Calls -/

section Calls

variable {h : Host} {c : Call} {options : Text} {s : State}

/-- What `getopt` passes on. -/
def getoptCall (c : Call) : Call := { c with longOptions := none, hasIdx := false }

theorem getopt_follows (hoptions : c.options = some options) (hplain : Plain options)
    (prog : Text) : Follows h (getoptCall c) (rules options) .stop prog Showed (getopt h c) := by
  have hskip : skipMode options = options := if_neg (not_or.mpr hplain)
  have hrules : rulesOf (getoptCall c) ⟨false, false, false⟩ options = rules options := by
    rw [rulesOf, hskip]
    rfl
  have hmode : modeOf h ⟨false, false, false⟩ options = .stop := by
    rw [modeOf, modeFlags, if_neg hplain.2]
    split <;> rfl
  have hfollows := @internal_follows h (getoptCall c) prog ⟨false, false, false⟩ options
    hoptions ⟨rfl, fun table htable => by cases htable⟩
  rwa [hrules, hmode] at hfollows

theorem answers_of_showed {os : List Outcome} {rets : List (Int × State)}
    (hall : List.Forall₂ Showed os rets) : List.Forall₂ Answers rets (os.map reply) := by
  rw [List.forall₂_map_right_iff]
  refine hall.flip.imp fun x o hshowed => ⟨hshowed.rc, hshowed.optarg, fun v herror => ?_⟩
  obtain ⟨⟨v', m⟩, he, rfl⟩ := Option.map_eq_some_iff.mp herror
  exact hshowed.optopt v' m he

/-- **`getopt` is the parser**, from a fresh state. -/
theorem getopt_parses (hoptions : c.options = some options) (hplain : Plain options)
    (hfresh : Fresh s) (hnargc : c.nargc = s.nargv.length) : Parses h c options s := by
  cases hargs : s.nargv with
  | nil =>
      have hzero : (getoptCall c).nargc = 0 := by
        rw [show (getoptCall c).nargc = c.nargc from rfl, hnargc, hargs]
        rfl
      obtain ⟨last, hcall, hnargv, hoptind, hoptarg, -⟩ := @internal_empty h
        (getoptCall c) s ⟨false, false, false⟩ options hoptions hzero hfresh.optind
        (Or.inr ⟨by rw [hfresh.place]; rfl, hfresh.nonoptStart, hfresh.nonoptEnd⟩)
      refine ⟨[], s, last, ?_, ?_, fun x hx => absurd hx List.not_mem_nil, hcall, hoptarg, hnargv,
        ?_⟩
      · rw [hargs]
        rfl
      · rw [hargs]
        exact .nil
      · rw [hargs, hoptind]
        rfl
  | cons prog args =>
      obtain ⟨os, hos, hplays⟩ := plays_parse h options args []
      have hkeep : ∀ p, InOrder args p → InOrder args ((rules options).turn h .stop p).pos :=
        fun p => turn_inOrder (by decide)
      obtain ⟨rets, s', last, hcalls, hall, hbetween, hend, hnone, hat, hq⟩ := hplays.calls
        (getopt_follows hoptions hplain prog) hkeep
        (hfresh.at_begin (c := getoptCall c) hnargc hargs)
        (finish_lawful ..) ⟨rfl, rfl, by simp [Pos.elements, Pos.finish, Pos.curElems]⟩
      have hlength : os.length = (parse h options args).1.length := by
        rw [← hos, List.length_map]
      refine ⟨rets, s', last, ?_, ?_, fun x hx => ?_, hend, hnone.optarg, ?_, ?_⟩
      · rw [hargs, List.tail_cons, ← hlength]
        exact hcalls
      · rw [hargs, List.tail_cons, ← hos]
        exact answers_of_showed hall
      · obtain ⟨p', hat', hi⟩ := hbetween x hx
        rw [hat'.nargv, hi.elements, hargs]
      · rw [hat.nargv, hq.elements, hargs]
      · have hle := parse_le h options args
        rw [hat.optind, hargs, List.tail_cons]
        simp only [Pos.index, Pos.finish, List.length_append, List.length_take, List.length_nil]
        omega

/-- `prog -ab y -c x -a`. -/
def sampleArgs : List Text :=
  [textOf [112], textOf [45, 97, 98], textOf [121], textOf [45, 99], textOf [120], textOf [45, 97]]

def sampleCall : Call := ⟨sampleArgs.length, some (textOf [97, 98, 58]), none, false⟩

/-- With the option string `ab:`, `y` is an argument, `c` is unknown, and `x` ends the scan. -/
theorem getopt_parses_sample :
    Parses signedHost sampleCall (textOf [97, 98, 58]) (freshState sampleArgs) ∧
      parse signedHost (textOf [97, 98, 58]) sampleArgs.tail =
        ([⟨97, none, none⟩, ⟨98, some (textOf [121]), none⟩, ⟨63, none, some 99⟩], 3) :=
  ⟨getopt_parses rfl (by decide) (freshState_fresh _) rfl, by decide⟩

end Calls

end Posix

end LibrePortable.Getopt
