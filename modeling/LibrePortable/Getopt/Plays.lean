import LibrePortable.Getopt.Turn

/-!
# From one turn to a scan

Every turn that shows something leaves less to look at, so the turns from a position come
to an end. What they show, one after the other, is what the calls show that start at this
position.
-/

namespace LibrePortable.Getopt

/-- What is left to look at. -/
def Pos.size (p : Pos) : Nat :=
  weight p.rest + match p.cur with
    | none => 0
    | some (e, off) => (e.drop off).length

/-- A position that a scan can reach. -/
structure Lawful (r : Rules) (m : Mode) (p : Pos) : Prop where
  /-- Only operands were passed over. -/
  operands : ∀ e ∈ p.skipped, isOperand r.options e = true
  /-- Only a scan that permutes passes them over. -/
  mode : m = .permute ∨ p.skipped = []
  /-- Elements are only kept apart from those before them if operands stand between. -/
  pend : p.skipped = [] → p.pend = []
  /-- An element that is being read has letters left. -/
  cur : ∀ e off, p.cur = some (e, off) → e.drop off ≠ []

namespace Rules

/-- **The turns from `p` to the end of the scan** show these outcomes. -/
inductive Plays (r : Rules) (h : Host) (m : Mode) : Pos → List Outcome → Pos → Prop
  | ends {p q : Pos} : r.turn h m p = .ends q → Plays r h m p [] q
  | shows {p p' q : Pos} {o : Outcome} {os : List Outcome} : r.turn h m p = .shows o p' →
      Plays r h m p' os q → Plays r h m p (o :: os) q

end Rules

section Turns

variable {r : Rules} {h : Host} {m : Mode} {p q : Pos} {o : Outcome} {os : List Outcome}
  {e t : Text} {off : Nat} {ch : Letter} {done skipped pend rest : List Text}

/-! ## What one turn does -/

@[simp] theorem consume_skipped (p : Pos) (es : List Text) :
    (p.consume es).skipped = p.skipped := by
  rw [Pos.consume]
  split <;> rfl

@[simp] theorem consume_rest (p : Pos) (es : List Text) : (p.consume es).rest = p.rest := by
  rw [Pos.consume]
  split <;> rfl

@[simp] theorem consume_cur (p : Pos) (es : List Text) : (p.consume es).cur = none := by
  rw [Pos.consume]
  split <;> rfl

/-- An option is shown, and passes no operand over. -/
theorem optionTurn_shows (r : Rules) (h : Host) (p : Pos) (e : Text) (off : Nat) (ch : Letter)
    (t : Text) : ∃ q, r.optionTurn h p e off ch t =
      .shows (r.placeOutcome h p.rest off ch t) q ∧ q.skipped = p.skipped := by
  rw [Rules.optionTurn]
  dsimp only
  split
  · exact ⟨_, rfl, rfl⟩
  · exact ⟨_, rfl, consume_skipped ..⟩

theorem optionTurn_size (ht : e.drop (off + 1) = t) :
    (r.optionTurn h p e off ch t).pos.size ≤ t.length + weight p.rest := by
  rw [Rules.optionTurn]
  dsimp only
  split
  · show weight p.rest + (e.drop (off + 1)).length ≤ _
    rw [ht]
    omega
  · have := weight_drop (r.placeTakes p.rest off ch t 0) p.rest
    simp only [Turn.pos, Pos.size, consume_rest, consume_cur]
    omega

/-- An element that starts with `-` is not empty. -/
theorem exists_cons_of_option (hop : isOperand r.options e = false) : ∃ d t, e = d :: t := by
  cases e with
  | nil => simp [isOperand, deref] at hop
  | cons d t => exact ⟨d, t, rfl⟩

/-- The first option of an element. -/
theorem elementTurn_eq (hop : isOperand r.options e = false) (p : Pos) :
    ∃ off ch t, e.drop off = ch :: t ∧ r.elementTurn h p e = r.optionTurn h p e off ch t ∧
      (off = 0 ∧ t = [] ∨ off = 1) := by
  obtain ⟨d, t, rfl⟩ := exists_cons_of_option hop
  cases t with
  | nil => exact ⟨0, d, [], rfl, rfl, Or.inl ⟨rfl, rfl⟩⟩
  | cons ch t => exact ⟨1, ch, t, rfl, rfl, Or.inr rfl⟩

theorem elementTurn_size (hop : isOperand r.options e = false) :
    (r.elementTurn h p e).pos.size < weight (e :: p.rest) := by
  obtain ⟨off, ch, t, ht, heq, -⟩ := elementTurn_eq (h := h) hop p
  have htail : e.drop (off + 1) = t := by rw [← List.tail_drop, ht, List.tail_cons]
  have hlen : t.length < e.length := by
    have := congrArg List.length ht
    simp only [List.length_drop, List.length_cons] at this
    omega
  have := @optionTurn_size r h p e t off ch htail
  rw [heq, weight_cons]
  omega

/-- The element that is being read goes on with its next option. -/
theorem turn_letter (hcur : p.cur = some (e, off)) (ht : e.drop off = ch :: t) :
    r.turn h m p = r.optionTurn h p e off ch t := by
  rw [Rules.turn, hcur]
  dsimp only
  rw [ht]

/-- What is shown in the middle of an element is its next option. -/
theorem turn_shows_letter (hcur : p.cur = some (e, off)) (hturn : r.turn h m p = .shows o q) :
    ∃ ch t, e.drop off = ch :: t ∧ r.optionTurn h p e off ch t = .shows o q := by
  cases ht : e.drop off with
  | nil =>
      rw [Rules.turn, hcur] at hturn
      dsimp only at hturn
      rw [ht] at hturn
      cases hturn
  | cons ch t => exact ⟨ch, t, rfl, (turn_letter hcur ht).symm.trans hturn⟩

/-- An operand is passed over. -/
theorem turnAt_pass (hop : isOperand r.options e = true) (es : List Text) :
    r.turnAt h .permute done skipped pend (e :: es) =
      r.turnAt h .permute (done ++ pend) (skipped ++ [e]) [] es := by
  rw [Rules.turnAt.eq_def]
  dsimp only
  rw [if_pos hop]

/-- `--` ends the scan. -/
theorem turnAt_dashes (hop : isOperand r.options e = false) (hdashes : isDashes e = true)
    (es : List Text) : r.turnAt h m done skipped pend (e :: es) =
      .ends (.finish (done ++ pend ++ [e]) (skipped ++ es)) := by
  rw [Rules.turnAt.eq_def]
  dsimp only
  rw [hop, if_neg Bool.false_ne_true, if_pos hdashes]

/-- An option element is read from its first option on. -/
theorem turn_enter (hop : isOperand r.options e = false) (hdashes : isDashes e = false) :
    ∃ off, e.drop off ≠ [] ∧ (off = 0 ∧ e.tail = [] ∨ off = 1) ∧
      ∀ (h : Host) (m : Mode) (done skipped pend es : List Text),
        r.turn h m ⟨done, skipped, pend, none, e :: es⟩ =
          r.turn h m ⟨done, skipped, pend, some (e, off), es⟩ := by
  obtain ⟨d, t, rfl⟩ := exists_cons_of_option hop
  have hturn : ∀ (h : Host) (m : Mode) (done skipped pend es : List Text),
      r.turn h m ⟨done, skipped, pend, none, (d :: t) :: es⟩ =
        r.elementTurn h ⟨done, skipped, pend, none, es⟩ (d :: t) :=
    fun h m done skipped pend es => by
      show r.turnAt h m done skipped pend ((d :: t) :: es) = _
      rw [Rules.turnAt.eq_def]
      dsimp only
      rw [hop, hdashes]
      rfl
  cases t with
  | nil =>
      exact ⟨0, List.cons_ne_nil _ _, Or.inl ⟨rfl, rfl⟩, fun _ _ _ _ _ _ => (hturn ..).trans rfl⟩
  | cons ch t =>
      exact ⟨1, List.cons_ne_nil _ _, Or.inr rfl, fun _ _ _ _ _ _ => (hturn ..).trans rfl⟩

/-- What is shown of an option element comes from its first option: the scan does not end here. -/
theorem turn_shows_enter (hop : isOperand r.options e = false)
    (hturn : r.turnAt h m done skipped pend (e :: es) = .shows o q) :
    ∃ off ch t, e.drop off = ch :: t ∧
      ∀ (h : Host) (m : Mode) (done skipped pend es : List Text),
        r.turn h m ⟨done, skipped, pend, none, e :: es⟩ =
          r.optionTurn h ⟨done, skipped, pend, some (e, off), es⟩ e off ch t := by
  cases hdashes : isDashes e with
  | true =>
      rw [turnAt_dashes hop hdashes] at hturn
      cases hturn
  | false =>
      obtain ⟨off, hoff, -, henter⟩ := turn_enter hop hdashes
      obtain ⟨ch, t, ht⟩ := List.exists_cons_of_ne_nil hoff
      exact ⟨off, ch, t, ht, fun _ _ _ _ _ _ => (henter ..).trans (turn_letter rfl ht)⟩

/-- **A turn that looks at the next element** leaves less to look at. -/
theorem turnAt_size (r : Rules) (h : Host) (m : Mode) : ∀ {rest done skipped pend : List Text},
    r.turnAt h m done skipped pend rest = .shows o q → q.size < weight rest := by
  intro rest
  induction rest with
  | nil =>
      intro done skipped pend hturn
      cases hturn
  | cons e es ih =>
      intro done skipped pend hturn
      rw [Rules.turnAt.eq_def] at hturn
      cases hop : isOperand r.options e with
      | false =>
          simp only [hop, Bool.false_eq_true, if_false] at hturn
          split at hturn
          · cases hturn
          · have := elementTurn_size (h := h) (p := ⟨done, skipped, pend, none, es⟩) hop
            rw [hturn] at this
            exact this
      | true =>
          simp only [hop, if_true] at hturn
          cases m with
          | permute =>
              have := ih hturn
              rw [weight_cons]
              omega
          | stop => cases hturn
          | allargs =>
              cases hturn
              simp only [Pos.size, consume_rest, consume_cur, weight_cons]
              omega

/-- **A turn that shows something** leaves less to look at. -/
theorem turn_size (hturn : r.turn h m p = .shows o q) : q.size < p.size := by
  cases hcur : p.cur with
  | none =>
      rw [Rules.turn, hcur] at hturn
      have := turnAt_size r h m hturn
      rw [Pos.size.eq_def p]
      omega
  | some x =>
      obtain ⟨e, off⟩ := x
      obtain ⟨ch, t, ht, hletter⟩ := turn_shows_letter hcur hturn
      have htail : e.drop (off + 1) = t := by rw [← List.tail_drop, ht, List.tail_cons]
      have := @optionTurn_size r h p e t off ch htail
      rw [hletter] at this
      rw [Pos.size.eq_def p, hcur]
      dsimp only
      rw [ht, List.length_cons]
      exact Nat.lt_of_le_of_lt this (by omega)

/-- **The turns come to an end.** -/
theorem plays_total (r : Rules) (h : Host) (m : Mode) (p : Pos) : ∃ os q, r.Plays h m p os q := by
  generalize hn : p.size = n
  induction n using Nat.strong_induction_on generalizing p with
  | _ n ih =>
      cases hturn : r.turn h m p with
      | ends q => exact ⟨[], q, .ends hturn⟩
      | shows o p' =>
          obtain ⟨os, q, hplays⟩ := ih p'.size (hn ▸ turn_size hturn) p' rfl
          exact ⟨o :: os, q, .shows hturn hplays⟩

/-- The turns go on from the first one. -/
theorem Rules.Plays.congr {p' : Pos} (hp : r.Plays h m p' os q)
    (heq : r.turn h m p = r.turn h m p') : r.Plays h m p os q := by
  cases hp with
  | ends hends => exact .ends (heq.trans hends)
  | shows hshows hlater => exact .shows (heq.trans hshows) hlater

/-! ## Operands -/

theorem consume_lawful (hl : Lawful r m p) (es rest : List Text) :
    Lawful r m (Pos.consume { p with rest := rest } es) := by
  rw [Pos.consume]
  split
  · exact ⟨hl.operands, hl.mode, hl.pend, fun _ _ hcur => by cases hcur⟩
  · next hskipped =>
      exact ⟨hl.operands, hl.mode, fun hnil => absurd hnil hskipped, fun _ _ hcur => by cases hcur⟩

theorem optionTurn_lawful (hl : Lawful r m p) (ht : e.drop off = ch :: t) :
    Lawful r m (r.optionTurn h p e off ch t).pos := by
  have htail : e.drop (off + 1) = t := by rw [← List.tail_drop, ht, List.tail_cons]
  rw [Rules.optionTurn]
  dsimp only
  split
  · next halone =>
      refine ⟨hl.operands, hl.mode, hl.pend, fun e' off' hcur => ?_⟩
      cases hcur
      rw [htail]
      exact halone.2
  · exact consume_lawful hl _ _

theorem finish_lawful (r : Rules) (m : Mode) (consumed rest : List Text) :
    Lawful r m (.finish consumed rest) :=
  ⟨fun _ he => absurd he List.not_mem_nil, Or.inr rfl, fun _ => rfl, fun _ _ hcur => by cases hcur⟩

theorem Lawful.pass {es : List Text} (hl : Lawful r .permute ⟨done, skipped, pend, none, e :: es⟩)
    (hop : isOperand r.options e = true) :
    Lawful r .permute ⟨done ++ pend, skipped ++ [e], [], none, es⟩ := by
  refine ⟨fun x hx => ?_, Or.inl rfl, fun _ => rfl, fun _ _ hcur => by cases hcur⟩
  rcases List.mem_append.mp hx with hx | hx
  · exact hl.operands x hx
  · rw [List.mem_singleton.mp hx]
    exact hop

theorem turnAt_lawful (r : Rules) (h : Host) (m : Mode) : ∀ {rest done skipped pend : List Text},
    Lawful r m ⟨done, skipped, pend, none, rest⟩ →
      Lawful r m (r.turnAt h m done skipped pend rest).pos := by
  intro rest
  induction rest with
  | nil => exact fun _ => finish_lawful ..
  | cons e es ih =>
      intro done skipped pend hl
      have hl' : Lawful r m ⟨done, skipped, pend, none, es⟩ :=
        ⟨hl.operands, hl.mode, hl.pend, hl.cur⟩
      rw [Rules.turnAt.eq_def]
      dsimp only
      cases hop : isOperand r.options e with
      | false =>
          rw [if_neg Bool.false_ne_true]
          split
          · exact finish_lawful ..
          · obtain ⟨off, ch, t, ht, heq, -⟩ :=
              elementTurn_eq (h := h) hop ⟨done, skipped, pend, none, es⟩
            rw [heq]
            exact optionTurn_lawful hl' ht
      | true =>
          rw [if_pos rfl]
          cases m with
          | permute => exact ih (hl.pass hop)
          | stop => exact hl
          | allargs => exact consume_lawful hl' [e] es

/-- **A turn** keeps the position one that a scan can reach. -/
theorem turn_lawful (hl : Lawful r m p) : Lawful r m (r.turn h m p).pos := by
  rw [Rules.turn.eq_def]
  split
  · exact turnAt_lawful r h m ⟨hl.operands, hl.mode, hl.pend, fun _ _ hcur => by cases hcur⟩
  · split
    · exact hl
    · next ht => exact optionTurn_lawful hl ht

/-! ## Scans that do not permute -/

/-- No operand was passed over, and these are all elements. -/
structure InOrder (es : List Text) (p : Pos) : Prop where
  skipped : p.skipped = []
  pend : p.pend = []
  elements : p.elements = es

variable {es : List Text}

theorem optionTurn_inOrder (hi : InOrder es p) (hcur : p.cur = some (e, off)) :
    InOrder es (r.optionTurn h p e off ch t).pos := by
  have helements := hi.elements
  rw [Pos.elements, Pos.curElems, hcur, hi.skipped, hi.pend] at helements
  rw [Rules.optionTurn]
  dsimp only
  split
  · refine ⟨hi.skipped, hi.pend, ?_⟩
    simpa [Turn.pos, Pos.elements, Pos.curElems, hi.skipped, hi.pend] using helements
  · rw [Turn.pos, Pos.consume, if_pos hi.skipped]
    refine ⟨hi.skipped, hi.pend, ?_⟩
    simpa [Pos.elements, Pos.curElems, hi.skipped, hi.pend] using helements

/-- **A turn that does not permute** leaves the elements in their order. -/
theorem turn_inOrder (hmode : m ≠ .permute) (hi : InOrder es p) :
    InOrder es (r.turn h m p).pos := by
  have hcurturn : ∀ {p : Pos} {e : Text} {off : Nat}, InOrder es p → p.cur = some (e, off) →
      InOrder es (r.turn h m p).pos := fun {p e off} hi hcur => by
    rw [Rules.turn.eq_def, hcur]
    dsimp only
    cases e.drop off with
    | nil => exact hi
    | cons ch t => exact optionTurn_inOrder hi hcur
  obtain ⟨done, skipped, pend, cur, rest⟩ := p
  obtain ⟨rfl, rfl, helements⟩ := hi
  cases cur with
  | some x => exact hcurturn ⟨rfl, rfl, helements⟩ rfl
  | none =>
      simp only [Pos.elements, Pos.curElems, List.append_nil, Option.map_none,
        Option.toList_none] at helements
      subst helements
      cases rest with
      | nil => exact ⟨rfl, rfl, by simp [Rules.turn, Rules.turnAt, Turn.pos, Pos.finish,
          Pos.elements, Pos.curElems]⟩
      | cons e es' =>
          cases hop : isOperand r.options e with
          | true =>
              cases m with
              | permute => exact absurd rfl hmode
              | stop =>
                  refine ⟨?_, ?_, ?_⟩ <;>
                    simp [Rules.turn, Rules.turnAt, hop, Turn.pos, Pos.elements, Pos.curElems]
              | allargs =>
                  refine ⟨?_, ?_, ?_⟩ <;>
                    simp [Rules.turn, Rules.turnAt, hop, Turn.pos, Pos.consume, Pos.elements,
                      Pos.curElems]
          | false =>
              cases hdashes : isDashes e with
              | true =>
                  refine ⟨?_, ?_, ?_⟩ <;>
                    simp [Rules.turn, Rules.turnAt, hop, hdashes, Turn.pos, Pos.finish,
                      Pos.elements, Pos.curElems]
              | false =>
                  obtain ⟨off, -, -, hturn⟩ := turn_enter hop hdashes
                  rw [hturn]
                  refine hcurturn ⟨rfl, rfl, ?_⟩ rfl
                  simp [Pos.elements, Pos.curElems]

end Turns

/-! ## Calls -/

/-- Call a parser `n` times: what the calls returned, each with the state it left, and the last
state. -/
def calls (call : State → Option (Int × State)) : Nat → State → Option (List (Int × State) × State)
  | 0, s => some ([], s)
  | n + 1, s => (call s).bind fun (rc, s') =>
      (calls call n s').map fun (rets, last) => ((rc, s') :: rets, last)

section Steps

variable (h : Host) (c : Call) (r : Rules) (m : Mode) (prog : Text)
  (Φ : Outcome → Int × State → Prop) (call : State → Option (Int × State))

/-- The next call takes this turn, and `Φ` holds of what it shows. -/
def Steps (p : Pos) (s : State) : Prop :=
  ∃ rc s', call s = some (rc, s') ∧ rc = (r.turn h m p).outcome.rc ∧
    Φ (r.turn h m p).outcome (rc, s') ∧ At h c prog (r.turn h m p).pos s'

/-- **The parser does what the turns say**, from every state between two calls. -/
def Follows : Prop := ∀ p s, At h c prog p s → Lawful r m p → Steps h c r m prog Φ call p s

end Steps

/-- What one call returned, with the variables it left, is this outcome. -/
structure Showed (o : Outcome) (x : Int × State) : Prop where
  rc : x.1 = o.rc
  optarg : x.2.optarg = o.optarg
  optopt : ∀ v m, o.error = some (v, m) → x.2.optopt = v

section Calls

variable {h : Host} {c : Call} {r : Rules} {m : Mode} {prog : Text} {p q : Pos} {s : State}
  {Φ : Outcome → Int × State → Prop} {call : State → Option (Int × State)} {os : List Outcome}
  {flags : Flags} {options : Text}

theorem Matches.showed {u : Turn} {rc : Int} {s' : State} (hm : Matches h c r prog u rc s s') :
    Showed u.outcome (rc, s') where
  rc := hm.rc
  optarg := hm.shows.optarg
  optopt := fun v m herror => by
    rw [hm.shows.optopt, Outcome.shown, herror]

/-- `getopt_internal` does what the turns say. -/
theorem internal_follows (hoptions : c.options = some options)
    (hr : Reads c (rulesOf c flags options)) :
    Follows h c (rulesOf c flags options) (modeOf h flags options) prog Showed
      (getoptInternal h c flags) := fun _ _ ha hl => by
  obtain ⟨rc, s', hcall, hmatches⟩ := internal_turn hoptions hr ha hl.mode
  exact ⟨rc, s', hcall, hmatches.rc, hmatches.showed, hmatches.at_⟩

/-- **A scan** shows what the turns show, if none of that reads as its end. -/
theorem Rules.Plays.scan (hf : Follows h c r m prog Φ call) (hp : r.Plays h m p os q) :
    ∀ {s : State}, Steps h c r m prog Φ call p s → Lawful r m p → (∀ o ∈ os, o.rc ≠ -1) →
      ∃ rets last, Getopt.scan call (os.length + 1) s = some (rets, last) ∧
        List.Forall₂ Φ os rets ∧ At h c prog q last := by
  induction hp with
  | @ends p q hturn =>
      intro s hex _ _
      obtain ⟨rc, s', hcall, hrc, -, hat⟩ := hex
      rw [hturn] at hrc hat
      refine ⟨[], s', ?_, .nil, hat⟩
      rw [Getopt.scan, hcall]
      exact if_pos hrc
  | @shows p p' q o os hturn _ ih =>
      intro s hex hl hne
      obtain ⟨rc, s', hcall, hrc, hshowed, hat⟩ := hex
      have hlawful := turn_lawful (h := h) hl
      rw [hturn] at hrc hshowed hat hlawful
      obtain ⟨rets, last, hscan, hall, hlast⟩ := ih (hf p' s' hat hlawful) hlawful
        fun o ho => hne o (List.mem_cons_of_mem _ ho)
      refine ⟨(rc, s') :: rets, last, ?_, .cons hshowed hall, hlast⟩
      have hrc' : rc ≠ -1 := by
        rw [hrc]
        exact hne o List.mem_cons_self
      rw [List.length_cons, Getopt.scan, hcall, Option.bind_some]
      dsimp only
      rw [if_neg hrc', hscan]
      rfl

/-- **Call after call**, in whatever way their results are read: the calls show what the turns
show, the next call shows nothing, and what the turns keep is true in between. -/
theorem Rules.Plays.calls (hf : Follows h c r m prog Φ call) (hp : r.Plays h m p os q)
    {I : Pos → Prop} (hkeep : ∀ p, I p → I (r.turn h m p).pos) :
    ∀ {s : State}, At h c prog p s → Lawful r m p → I p →
      ∃ rets s' last, Getopt.calls call os.length s = some (rets, s') ∧
        List.Forall₂ Φ os rets ∧ (∀ x ∈ rets, ∃ p', At h c prog p' x.2 ∧ I p') ∧
        call s' = some (-1, last) ∧ Φ (.option (-1) none) (-1, last) ∧
        At h c prog q last ∧ I q := by
  induction hp with
  | @ends p q hturn =>
      intro s ha hl hi
      obtain ⟨rc, s', hcall, hrc, hshowed, hat⟩ := hf p s ha hl
      have hq := hkeep p hi
      rw [hturn] at hq hrc hshowed hat
      obtain rfl : rc = -1 := hrc
      exact ⟨[], s, s', rfl, .nil, fun _ hx => absurd hx List.not_mem_nil, hcall, hshowed, hat, hq⟩
  | @shows p p' q o os hturn _ ih =>
      intro s ha hl hi
      obtain ⟨rc, s₁, hcall, -, hshowed, hat₁⟩ := hf p s ha hl
      have hlawful := turn_lawful (h := h) hl
      have hp' := hkeep p hi
      rw [hturn] at hat₁ hlawful hp' hshowed
      obtain ⟨rets, s', last, hcalls, hall, hat, hrest⟩ := ih hat₁ hlawful hp'
      refine ⟨(rc, s₁) :: rets, s', last, ?_, .cons hshowed hall, fun x hx => ?_, hrest⟩
      · rw [List.length_cons, Getopt.calls, hcall, Option.bind_some]
        dsimp only
        rw [hcalls]
        rfl
      · rcases List.mem_cons.mp hx with rfl | hx
        · exact ⟨p', hat₁, hp'⟩
        · exact hat x hx

/-- A scan starts with nothing consumed and nothing passed over. -/
theorem Fresh.at_begin (hf : Fresh s) (hnargc : c.nargc = s.nargv.length) {args : List Text}
    (hargs : s.nargv = prog :: args) : At h c prog (.begin args) s where
  nargc := hnargc
  nargv := by rw [hargs]; simp [Pos.elements, Pos.begin, Pos.curElems]
  optind := hf.optind
  nonoptStart := hf.nonoptStart
  nonoptEnd := hf.nonoptEnd
  pend := fun _ => rfl
  optreset := hf.optreset
  posixlyCorrect := Or.inl hf.posixlyCorrect
  place := by rw [hf.place]; rfl

/-- Without `optind` 0, only the environment is looked at. -/
theorem prepare_of_ne (h : Host) (hne : ¬ s.optind = 0) :
    ∃ v, prepare h s = { s with posixlyCorrect := v } := by
  rw [prepare, if_neg hne]
  split
  · exact ⟨_, rfl⟩
  · exact ⟨s.posixlyCorrect, rfl⟩

/-- A vector without a program's name has no options. -/
theorem internal_empty (hoptions : c.options = some options) (hnargc : c.nargc = 0)
    (hoptind : s.optind = 1)
    (hs : s.optreset ≠ 0 ∨ s.place.text = [] ∧ s.nonoptStart = -1 ∧ s.nonoptEnd = -1) :
    ∃ last, getoptInternal h c flags s = some (-1, last) ∧ last.nargv = s.nargv ∧
      last.optind = 1 ∧ last.optarg = none ∧ last.idx = s.idx := by
  have hne : ¬ s.optind = 0 := by omega
  obtain ⟨v, hprepare⟩ := prepare_of_ne h hne
  rw [getoptInternal, hoptions]
  dsimp only
  rw [hprepare]
  -- whatever the reset does, the markers are not set
  have hmarks : ∀ s₁ : State, s₁.nonoptStart = -1 → s₁.nonoptEnd = -1 → s₁.nargv = s.nargv →
      s₁.optind = 1 → s₁.optarg = none → s₁.idx = s.idx →
      (s₁.optreset ≠ 0 ∨ s₁.place.text = []) →
      ∃ last, start h c (modeFlags v options flags) (skipMode options) (c.nargc.toNat + 1) s₁ =
          some (-1, last) ∧ last.nargv = s.nargv ∧ last.optind = 1 ∧ last.optarg = none ∧
        last.idx = s.idx := by
    intro s₁ hstart hend hnargv hoptind hoptarg hidx hlook
    have hge : s₁.optind ≥ c.nargc := by omega
    rw [start, if_pos hlook, element, if_pos hge, endOfVector]
    dsimp only
    rw [if_neg (not_not.mpr hend), if_neg (not_not.mpr hstart)]
    exact ⟨_, rfl, hnargv, hoptind, hoptarg, hidx⟩
  by_cases hreset : s.optreset = 0
  · rw [if_neg (not_not.mpr hreset)]
    obtain ⟨hplace, hstart, hend⟩ := hs.resolve_left (not_not.mpr hreset)
    exact hmarks _ hstart hend rfl hoptind rfl rfl (Or.inr hplace)
  · rw [if_pos hreset]
    exact hmarks _ rfl rfl rfl hoptind rfl rfl (Or.inl hreset)

end Calls

end LibrePortable.Getopt
