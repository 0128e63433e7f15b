import LibrePortable.Lib.Transition
import LibrePortable.Getopt.Plays
import LibrePortable.Getopt.Swaps

/-!
# No call leaves the vector

The parsers as machines that stop at every return and at every jump back to the label
`start`. In each of these states the index and the markers delimit blocks of the vector,
and that is what keeps every exchange that follows between two blocks that are not empty.
-/

namespace LibrePortable.Getopt

open Lib

/-- The three functions. -/
inductive Parser where
  | getopt
  | getoptLong
  | getoptLongOnly
  deriving DecidableEq

namespace Parser

def flags : Parser → Flags
  | getopt => ⟨false, false, false⟩
  | getoptLong => ⟨true, false, false⟩
  | getoptLongOnly => ⟨true, false, true⟩

/-- What the function passes on; `getopt` has no table. -/
def passed : Parser → Call → Call
  | getopt, c => { c with longOptions := none, hasIdx := false }
  | _, c => c

def run : Parser → Host → Call → State → Option (Int × State)
  | getopt, h, c, s => Getopt.getopt h c s
  | getoptLong, h, c, s => Getopt.getoptLong h c s
  | getoptLongOnly, h, c, s => Getopt.getoptLongOnly h c s

theorem run_eq (parser : Parser) (h : Host) (c : Call) (s : State) :
    parser.run h c s = getoptInternal h (parser.passed c) parser.flags s := by
  cases parser <;> rfl

end Parser

/-! ## The machine -/

/-- `getopt_internal` up to the label `start`. -/
def enter (h : Host) (s : State) : State :=
  let s := { prepare h s with optarg := none }
  if s.optreset ≠ 0 then { s with nonoptStart := -1, nonoptEnd := -1 } else s

/-- The jump back to the label: an operand was skipped. -/
def jump (c : Call) (flags : Flags) (options : Text) (s : State) : Option State :=
  if (s.optreset ≠ 0 ∨ s.place.text = []) ∧ ¬ s.optind ≥ c.nargc then
    match s.arg s.optind with
    | some (some elem) =>
        if isOperand options elem ∧ flags.allargs = false ∧ flags.permute = true then
          skipOperand { s with optreset := 0, place := .emsg }
        else none
    | _ => none
  else none

/-- The call of `permute_args` between the label and the jump or the return, if there is one. -/
def exchange (c : Call) (flags : Flags) (options : Text) (s : State) : Option (Int × Int × Int) :=
  if s.optreset ≠ 0 ∨ s.place.text = [] then
    if s.optind ≥ c.nargc then
      if s.nonoptEnd ≠ -1 then some (s.nonoptStart, s.nonoptEnd, s.optind) else none
    else
      match s.arg s.optind with
      | some (some elem) =>
          if isOperand options elem then
            if flags.allargs ∨ !flags.permute ∨ s.nonoptStart = -1 then none
            else if s.nonoptEnd ≠ -1 then some (s.nonoptStart, s.nonoptEnd, s.optind) else none
          else
            let s := markEnd s
            if isDashes elem ∧ s.nonoptEnd ≠ -1 then
              some (s.nonoptStart, s.nonoptEnd, s.optind + 1)
            else none
      | _ => none
  else none

/-- Where a run stops: between two calls, or in a call, at the label. -/
inductive Config where
  | between (s : State)
  | label (s : State)

def Config.state : Config → State
  | between s => s
  | label s => s

inductive Event where
  | called
  | jumped
  | returned (rc : Int)

/-- What a caller may do between two calls: set `opterr` and what the parser only writes, and
ask for a reset, from an element of the vector or with `optind` 0. -/
structure Asks (s s' : State) : Prop where
  nargv : s'.nargv = s.nargv
  place : s'.place = s.place
  nonoptStart : s'.nonoptStart = s.nonoptStart
  nonoptEnd : s'.nonoptEnd = s.nonoptEnd
  posixlyCorrect : s'.posixlyCorrect = s.posixlyCorrect
  reset : (s'.optind = s.optind ∧ s'.optreset = s.optreset) ∨ s'.optind = 0
    ∨ (s'.optreset ≠ 0 ∧ 1 ≤ s'.optind ∧ s'.optind ≤ s.nargv.length)

inductive MachineStep (h : Host) (c : Call) (flags : Flags) (options : Text) :
    Config → Event → Config → Prop
  | call {s s' : State} : Asks s s' →
      MachineStep h c flags options (.between s) .called (.label (enter h s'))
  | jump {s s' : State} :
      Getopt.jump c (modeFlags s.posixlyCorrect options flags) (skipMode options) s = some s' →
      MachineStep h c flags options (.label s) .jumped (.label s')
  -- with fuel for one pass only, the function returns if it does not jump
  | returns {s s' : State} {rc : Int} :
      start h c (modeFlags s.posixlyCorrect options flags) (skipMode options) 1 s = some (rc, s') →
      MachineStep h c flags options (.label s) (.returned rc) (.between s')

/-- One parser with its arguments, called again and again. -/
def machine (h : Host) (c : Call) (flags : Flags) (options : Text) (s₀ : State) :
    Lts Config Event where
  Init x := x = .between s₀
  Step := MachineStep h c flags options

/-! ## Jumps -/

section Jumps

variable {h : Host} {c : Call} {flags : Flags} {options : Text} {s s' : State}

/-- `getopt_internal` is its two parts. -/
theorem getoptInternal_eq (hoptions : c.options = some options) (h : Host) (flags : Flags)
    (s : State) : getoptInternal h c flags s =
      start h c (modeFlags (enter h s).posixlyCorrect options flags) (skipMode options)
        (c.nargc.toNat + 1) (enter h s) := by
  have hposix : (enter h s).posixlyCorrect = (prepare h s).posixlyCorrect := by
    rw [enter]
    dsimp only
    split <;> rfl
  rw [getoptInternal, hoptions, hposix]
  rfl

/-- **A pass either jumps or returns.** -/
theorem start_succ (fuel : Nat) (s : State) : start h c flags options (fuel + 1) s =
    match jump c flags options s with
    | some s' => start h c flags options fuel s'
    | none => start h c flags options 1 s := by
  rw [jump]
  by_cases hlook : s.optreset ≠ 0 ∨ s.place.text = []
  · by_cases hend : s.optind ≥ c.nargc
    · rw [if_neg fun hboth => hboth.2 hend, start, start, if_pos hlook, if_pos hlook, element,
        element, if_pos hend, if_pos hend]
    · rw [if_pos ⟨hlook, hend⟩, start, start, if_pos hlook, if_pos hlook, element, element,
        if_neg hend, if_neg hend]
      have harg : State.arg { s with optreset := 0 } s.optind = s.arg s.optind :=
        arg_of_nargv rfl _
      dsimp only
      rw [harg]
      cases s.arg s.optind with
      | none => rfl
      | some a =>
          cases a with
          | none => rfl
          | some elem =>
              dsimp only
              cases hop : isOperand options elem with
              | false => simp
              | true =>
                  cases hall : flags.allargs with
                  | true => simp
                  | false =>
                      cases hperm : flags.permute with
                      | false => simp
                      | true =>
                          simp only [if_true, if_false, Bool.not_true, Bool.false_eq_true, and_self]
                          cases skipOperand { s with optreset := 0, place := .emsg } <;> rfl
  · rw [if_neg fun hboth => hlook hboth.1, start, start, if_neg hlook, if_neg hlook]

end Jumps

/-! ## What the index and the markers say -/

/-- The index and the markers lie in the vector and delimit blocks of it. -/
structure InBounds (c : Call) (options : Text) (s : State) : Prop where
  optind : 1 ≤ s.optind ∧ s.optind ≤ c.nargc
  markers : (s.nonoptStart = -1 ∧ s.nonoptEnd = -1)
    ∨ (1 ≤ s.nonoptStart ∧ s.nonoptStart < s.optind ∧ s.nonoptEnd = -1
      ∧ ∀ i : Nat, s.nonoptStart ≤ i → i < s.optind →
        ∃ e, s.nargv[i]? = some e ∧ isOperand options e = true)
    ∨ (1 ≤ s.nonoptStart ∧ s.nonoptStart < s.nonoptEnd ∧ s.nonoptEnd ≤ s.optind)

section Bounds

variable {h : Host} {c : Call} {r : Rules} {m : Mode} {prog : Text} {p : Pos} {s : State}

theorem At.length (ha : At h c prog p s) : c.nargc = (p.index : Int) + p.curElems.length
    + p.rest.length := by
  rw [ha.nargc, ha.nargv]
  simp [Pos.elements, Pos.index]
  omega

/-- **A position a scan can reach** is within bounds. -/
theorem At.inBounds (ha : At h c prog p s) (hl : Lawful r m p) : InBounds c r.options s := by
  have hlen := ha.length
  have hoptind := ha.optind
  have hstart := ha.nonoptStart
  have hend := ha.nonoptEnd
  refine ⟨by rw [hoptind, Pos.index] at *; omega, ?_⟩
  rw [Pos.startMark] at hstart
  rw [Pos.endMark] at hend
  by_cases hskipped : p.skipped = []
  · rw [if_pos hskipped] at hstart
    rw [if_pos (Or.inl hskipped)] at hend
    exact Or.inl ⟨hstart, hend⟩
  · have hpos := List.length_pos_of_ne_nil hskipped
    rw [if_neg hskipped] at hstart
    by_cases hpend : p.pend = [] ∧ p.cur = none
    · -- the operands reach up to the index
      rw [if_pos (Or.inr hpend)] at hend
      have hindex : p.index = 1 + p.done.length + p.skipped.length := by
        rw [Pos.index, hpend.1, List.length_nil, Nat.add_zero]
      refine Or.inr (Or.inl ⟨by omega, by omega, hend, fun i hi hlt => ?_⟩)
      obtain ⟨j, rfl⟩ : ∃ j, i = 1 + p.done.length + j := ⟨i - (1 + p.done.length), by omega⟩
      have hj : j < p.skipped.length := by omega
      refine ⟨p.skipped[j], ?_, hl.operands _ (List.getElem_mem hj)⟩
      have hsplit : s.nargv =
          (prog :: p.done) ++ (p.skipped ++ (p.pend ++ p.curElems ++ p.rest)) := by
        rw [ha.nargv, Pos.elements]
        simp
      rw [hsplit, List.getElem?_append_right (by simp; omega), List.getElem?_append_left
        (by simp; omega), List.getElem?_eq_some_iff]
      refine ⟨by simp; omega, ?_⟩
      congr 1
      simp
      omega
    · rw [if_neg (not_or.mpr ⟨hskipped, hpend⟩)] at hend
      refine Or.inr (Or.inr ⟨by omega, by omega, ?_⟩)
      rw [hend, hoptind, Pos.index]
      omega

/-- Nothing is being read where the scanning pointer is at its end. -/
theorem At.cur_none (ha : At h c prog p s) (hplace : s.place.text = []) : p.cur = none := by
  have hat := ha.place
  cases hcur : p.cur with
  | none => rfl
  | some x =>
      obtain ⟨e, off⟩ := x
      rw [hcur] at hat
      rw [hat.1] at hplace
      exact absurd hplace hat.2

theorem At.rest_nil (ha : At h c prog p s) (hcur : p.cur = none) :
    s.optind ≥ c.nargc ↔ p.rest = [] := by
  have hlen := ha.length
  rw [Pos.curElems, hcur] at hlen
  simp only [Option.map_none, Option.toList_none, List.length_nil] at hlen
  rw [← List.length_eq_zero_iff, ha.optind]
  omega

/-- The next element. -/
theorem At.arg (ha : At h c prog p s) (hcur : p.cur = none) {e : Text} {es : List Text}
    (hrest : p.rest = e :: es) : s.arg s.optind = some (some e) := by
  have hshape := ha.shape
  rw [Pos.curElems, hcur, hrest] at hshape
  exact (Shape.facing hshape ha.nargc).here

/-- The marks of two blocks, where the end of the first is set. -/
theorem At.marks (ha : At h c prog p s) (hend : s.nonoptEnd ≠ -1) :
    p.skipped ≠ [] ∧ ¬ (p.pend = [] ∧ p.cur = none)
      ∧ s.nonoptStart = ((1 + p.done.length : Nat) : Int)
      ∧ s.nonoptEnd = ((1 + p.done.length + p.skipped.length : Nat) : Int) := by
  have hstart := ha.nonoptStart
  have hmark := ha.nonoptEnd
  rw [Pos.endMark] at hmark
  split at hmark
  · exact absurd hmark hend
  · rename_i hnot
    obtain ⟨hskipped, hpend⟩ := not_or.mp hnot
    rw [Pos.startMark, if_neg hskipped] at hstart
    exact ⟨hskipped, hpend, hstart, hmark⟩

/-- The exchange in front of an element, or at the end. -/
theorem At.good (ha : At h c prog p s) (hcur : p.cur = none) (hend : s.nonoptEnd ≠ -1) :
    GoodExchange c.nargc s.nonoptStart s.nonoptEnd s.optind := by
  obtain ⟨hskipped, hpend, hs, he⟩ := ha.marks hend
  have hlen := ha.length
  have hne : p.pend ≠ [] := fun hnil => hpend ⟨hnil, hcur⟩
  rw [hs, he, ha.optind, Pos.index, ha.nargc]
  rw [ha.nargc, Pos.index] at hlen
  exact goodExchange (by omega) (List.length_pos_of_ne_nil hskipped)
    (List.length_pos_of_ne_nil hne) (by omega)

/-- The exchange behind the element `--`. -/
theorem At.good_dashes (ha : At h c prog p s) (hcur : p.cur = none) {e : Text} {es : List Text}
    (hrest : p.rest = e :: es) (he : e ≠ []) (hend : (markEnd s).nonoptEnd ≠ -1) :
    GoodExchange c.nargc (markEnd s).nonoptStart (markEnd s).nonoptEnd (s.optind + 1) := by
  have hin := @At.enter h c prog p s e es 0 ha hcur hrest he
  have hend' : ({ markEnd s with place := .inside e 0 } : State).nonoptEnd ≠ -1 := hend
  obtain ⟨hskipped, -, hs, hm⟩ := hin.marks hend'
  have hs : (markEnd s).nonoptStart = ((1 + p.done.length : Nat) : Int) := hs
  have hm : (markEnd s).nonoptEnd = ((1 + p.done.length + p.skipped.length : Nat) : Int) := hm
  have hlen := ha.length
  rw [hrest, List.length_cons] at hlen
  have hoptind : s.optind + 1 =
      ((1 + p.done.length + p.skipped.length + (p.pend.length + 1) : Nat) : Int) := by
    rw [ha.optind, Pos.index]
    omega
  rw [hs, hm, hoptind, ha.nargc]
  rw [ha.nargc, Pos.index] at hlen
  exact goodExchange (by omega) (List.length_pos_of_ne_nil hskipped) (Nat.succ_pos _) (by omega)

/-- **Every call of `permute_args`** is one the vector allows. -/
theorem At.exchange_good (ha : At h c prog p s) {flags : Flags} {a b o : Int}
    (hx : exchange c flags r.options s = some (a, b, o)) : GoodExchange c.nargc a b o := by
  rw [exchange] at hx
  by_cases hlook : s.optreset ≠ 0 ∨ s.place.text = []
  · rw [if_pos hlook] at hx
    have hcur := ha.cur_none (hlook.resolve_left (not_not.mpr ha.optreset))
    by_cases hge : s.optind ≥ c.nargc
    · rw [if_pos hge] at hx
      split at hx
      · rename_i hend
        cases hx
        exact ha.good hcur hend
      · cases hx
    · rw [if_neg hge] at hx
      obtain ⟨e, es, hrest⟩ := List.exists_cons_of_ne_nil (mt (ha.rest_nil hcur).mpr hge)
      rw [ha.arg hcur hrest] at hx
      dsimp only at hx
      split at hx
      · split at hx
        · cases hx
        · split at hx
          · rename_i hend
            cases hx
            exact ha.good hcur hend
          · cases hx
      · rename_i hop
        split at hx
        · rename_i hend
          cases hx
          have hoptind : (markEnd s).optind = s.optind := by rw [markEnd]; split <;> rfl
          have hne : e ≠ [] := by
            intro heq
            subst heq
            exact hop (by simp [isOperand, deref])
          rw [hoptind]
          exact ha.good_dashes hcur hrest hne hend.2
        · cases hx
  · rw [if_neg hlook] at hx
    cases hx

end Bounds

/-! ## From the label on -/

/-- What a reset comes to at the label. -/
def settled (s : State) : State :=
  if s.optreset ≠ 0 then { s with optreset := 0, place := .emsg } else s

/-- How the vector changes with a call of `permute_args`, or without one. -/
def Exchanged : Option (Int × Int × Int) → List Text → List Text → Prop
  | none, l, l' => l' = l
  | some (a, b, o), l, l' => permuteArgs a b o l = some l'

section Label

variable {h : Host} {c : Call} {flags : Flags} {options : Text} {r : Rules} {m : Mode}
  {prog : Text} {p : Pos} {s s' : State} {rc : Int}

theorem settled_of_zero (hreset : s.optreset = 0) : settled s = s :=
  if_neg (not_not.mpr hreset)

theorem settled_cases (s : State) : settled s = s ∨
    s.optreset ≠ 0 ∧ settled s = { s with optreset := 0, place := .emsg } := by
  by_cases hreset : s.optreset = 0
  · exact Or.inl (settled_of_zero hreset)
  · exact Or.inr ⟨hreset, if_pos hreset⟩

/-- A reset is dropped without a look at anything else. -/
theorem jump_settled (c : Call) (flags : Flags) (options : Text) (s : State) :
    jump c flags options s = jump c flags options (settled s) := by
  rcases settled_cases s with heq | ⟨hreset, heq⟩
  · rw [heq]
  · rw [heq, jump, jump]
    have hlook : ∀ P : Prop, ((s.optreset ≠ 0 ∨ s.place.text = []) ∧ P) ↔
        (((0 : Int) ≠ 0 ∨ Place.text .emsg = []) ∧ P) :=
      fun P => and_congr_left fun _ => ⟨fun _ => Or.inr rfl, fun _ => Or.inl hreset⟩
    have harg : State.arg { s with optreset := 0, place := .emsg } s.optind = s.arg s.optind :=
      arg_of_nargv rfl _
    simp only [hlook, harg]

theorem exchange_settled (c : Call) (flags : Flags) (options : Text) (s : State) :
    exchange c flags options s = exchange c flags options (settled s) := by
  rcases settled_cases s with heq | ⟨hreset, heq⟩
  · rw [heq]
  · have hplace : ({ s with optreset := 0, place := .emsg } : State).place.text = [] := rfl
    have harg : State.arg { s with optreset := 0, place := .emsg } s.optind = s.arg s.optind :=
      arg_of_nargv rfl _
    rw [heq, exchange, exchange, if_pos (Or.inl hreset), if_pos (Or.inr hplace)]
    dsimp only
    rw [harg]
    have hmark :
        (markEnd { s with optreset := 0, place := .emsg }).nonoptEnd = (markEnd s).nonoptEnd
        ∧ (markEnd { s with optreset := 0, place := .emsg }).nonoptStart = (markEnd s).nonoptStart
        ∧ (markEnd { s with optreset := 0, place := .emsg }).optind = (markEnd s).optind := by
      rw [markEnd, markEnd]
      dsimp only
      split <;> exact ⟨rfl, rfl, rfl⟩
    rw [hmark.1, hmark.2.1, hmark.2.2]

theorem start_settled (fuel : Nat) (s : State) :
    start h c flags options (fuel + 1) s = start h c flags options (fuel + 1) (settled s) := by
  rcases settled_cases s with heq | ⟨hreset, heq⟩
  · rw [heq]
  · rw [heq]
    exact start_reset hreset

theorem InBounds.of_settled (hb : InBounds c options (settled s)) : InBounds c options s := by
  rcases settled_cases s with heq | ⟨-, heq⟩
  · rw [heq] at hb
    exact hb
  · rw [heq] at hb
    exact ⟨hb.optind, hb.markers⟩

/-! ## The jump -/

theorem skipOperand_posix (hskip : skipOperand s = some s') :
    s'.posixlyCorrect = s.posixlyCorrect := by
  rw [skipOperand] at hskip
  split at hskip
  · cases hskip; rfl
  · split at hskip
    · obtain ⟨l, -, rfl⟩ := Option.map_eq_some_iff.mp hskip
      rfl
    · cases hskip; rfl

/-- A jump exchanges the blocks, or leaves the vector alone. -/
theorem jump_exchanged (hj : jump c flags options s = some s') :
    Exchanged (exchange c flags options s) s.nargv s'.nargv := by
  rw [jump] at hj
  split at hj
  · rename_i hboth
    rw [exchange, if_pos hboth.1, if_neg hboth.2]
    split at hj
    · split at hj
      · rename_i hop
        obtain ⟨hop, hall, hperm⟩ := hop
        rw [if_pos hop, hall, hperm]
        rw [skipOperand] at hj
        dsimp only at hj
        split at hj
        · rename_i hstart
          cases hj
          rw [if_pos (Or.inr (Or.inr hstart))]
          rfl
        · rename_i hstart
          rw [if_neg (by simp [hstart])]
          split at hj
          · rename_i hend
            obtain ⟨l, hl, rfl⟩ := Option.map_eq_some_iff.mp hj
            rw [if_pos hend]
            exact hl
          · rename_i hend
            cases hj
            rw [if_neg hend]
            rfl
      · cases hj
    · cases hj
  · cases hj

/-- **A jump** lands behind the operand. -/
theorem At.jump (ha : At h c prog p s) (hl : Lawful r flags.mode p) (hoptarg : s.optarg = none)
    (hj : jump c flags r.options s = some s') :
    ∃ q, At h c prog q s' ∧ Lawful r flags.mode q ∧ s'.optarg = none
      ∧ s'.posixlyCorrect = s.posixlyCorrect := by
  rw [Getopt.jump] at hj
  split at hj
  · rename_i hboth
    have hcur := ha.cur_none (hboth.1.resolve_left (not_not.mpr ha.optreset))
    obtain ⟨e, es, hrest⟩ := List.exists_cons_of_ne_nil (mt (ha.rest_nil hcur).mpr hboth.2)
    rw [ha.arg hcur hrest] at hj
    dsimp only at hj
    split at hj
    · rename_i hop
      obtain ⟨hop, hall, hperm⟩ := hop
      have hmode : flags.mode = .permute := by
        rw [Flags.mode, hall, hperm]
        rfl
      obtain ⟨done, skipped, pend, cur, rest⟩ := p
      obtain rfl : cur = none := hcur
      obtain rfl : rest = e :: es := hrest
      rw [hmode] at hl ⊢
      obtain ⟨s₁, hskip, hseen, hat⟩ := skipOperand_turn ha rfl rfl
      have hsame : ({ s with optreset := 0, place := .emsg } : State) =
          { s with place := .emsg } := by
        rw [← ha.optreset]
      rw [hsame, hskip] at hj
      cases hj
      have hposix := skipOperand_posix hskip
      exact ⟨_, hat, hl.pass hop, (congrArg Seen.optarg hseen).trans hoptarg, hposix⟩
    · cases hj
  · cases hj

/-! ## The return -/

/-- Where a scan ends, the blocks change places before anything else is written. -/
theorem permuteAtEnd_exchanged {finish : State → Int × State}
    (hfinish : ∀ s, (finish s).2.nargv = s.nargv)
    (hp : (permuteAtEnd s).map finish = some (rc, s')) :
    Exchanged (some (s.nonoptStart, s.nonoptEnd, s.optind)) s.nargv s'.nargv := by
  rw [permuteAtEnd, Option.map_map] at hp
  obtain ⟨l, hl, hs'⟩ := Option.map_eq_some_iff.mp hp
  have hnargv := congrArg (fun x : Int × State => x.2.nargv) hs'
  have hl' : l = s'.nargv := (hfinish _).symm.trans hnargv
  rw [← hl']
  exact hl

theorem endOfVector_exchanged (he : endOfVector s = some (rc, s')) :
    Exchanged (if s.nonoptEnd ≠ -1 then some (s.nonoptStart, s.nonoptEnd, s.optind) else none)
      s.nargv s'.nargv := by
  rw [endOfVector] at he
  dsimp only at he
  split at he
  · rename_i hend
    rw [if_pos hend]
    exact permuteAtEnd_exchanged (s := { s with place := .emsg }) (fun _ => rfl) he
  · rename_i hend
    rw [if_neg hend]
    split at he <;> cases he <;> rfl

theorem doubleDash_exchanged (hd : doubleDash s = some (rc, s')) :
    Exchanged (if s.nonoptEnd ≠ -1 then some (s.nonoptStart, s.nonoptEnd, s.optind + 1) else none)
      s.nargv s'.nargv := by
  rw [doubleDash] at hd
  dsimp only at hd
  split at hd
  · rename_i hend
    rw [if_pos hend]
    exact permuteAtEnd_exchanged (s := { s with optind := s.optind + 1, place := .emsg })
      (fun _ => rfl) hd
  · rename_i hend
    rw [if_neg hend]
    cases hd
    rfl

/-- An option leaves the vector alone. -/
theorem At.option_nargv (ha : At h c prog p s) (hr : Reads c r) (hoptarg : s.optarg = none)
    {e : Text} {off : Nat} (hcur : p.cur = some (e, off))
    (hrun : option h c r.options r.longonly s = some (rc, s')) : s'.nargv = s.nargv := by
  have hplace := ha.place
  rw [hcur] at hplace
  obtain ⟨ch, t, ht⟩ := List.exists_cons_of_ne_nil hplace.2
  obtain ⟨s₁, hrun₁, ⟨hkeeps, -⟩, -⟩ :=
    option_spec (h := h) hr (ha.facing hcur) hplace.1 ht hoptarg
  obtain ⟨-, rfl⟩ := Prod.mk.inj (Option.some.inj (hrun₁.symm.trans hrun))
  exact hkeeps.nargv

/-- A pass that returns exchanges the blocks, or leaves the vector alone. -/
theorem At.return_exchanged (ha : At h c prog p s) (hr : Reads c r) (hoptarg : s.optarg = none)
    (hlongonly : flags.longonly = r.longonly)
    (hrun : start h c flags r.options 1 s = some (rc, s')) :
    Exchanged (exchange c flags r.options s) s.nargv s'.nargv := by
  have hsame : ({ s with optreset := 0 } : State) = s := by rw [← ha.optreset]
  rw [start] at hrun
  by_cases hlook : s.optreset ≠ 0 ∨ s.place.text = []
  · rw [if_pos hlook, hsame, element] at hrun
    rw [exchange, if_pos hlook]
    have hcur := ha.cur_none (hlook.resolve_left (not_not.mpr ha.optreset))
    by_cases hge : s.optind ≥ c.nargc
    · rw [if_pos hge] at hrun ⊢
      exact endOfVector_exchanged hrun
    · rw [if_neg hge] at hrun ⊢
      obtain ⟨e, es, hrest⟩ := List.exists_cons_of_ne_nil (mt (ha.rest_nil hcur).mpr hge)
      rw [ha.arg hcur hrest] at hrun ⊢
      dsimp only at hrun ⊢
      split at hrun
      · rename_i hop
        rw [if_pos hop]
        split at hrun
        · rename_i hall
          cases hrun
          rw [if_pos (Or.inl hall)]
          rfl
        · split at hrun
          · rename_i hperm
            cases hrun
            rw [if_pos (Or.inr (Or.inl hperm))]
            rfl
          · -- a jump is no return
            obtain ⟨s₁, -, hs₁⟩ := Option.bind_eq_some_iff.mp hrun
            cases hs₁
      · rename_i hop
        rw [if_neg hop]
        obtain ⟨k, hk⟩ := markEnd_cases s
        have hnargv : (markEnd s).nargv = s.nargv := by rw [hk]
        have hmarked : (markEnd s).optarg = none := by rw [hk]; exact hoptarg
        have hoption : ∀ off : Nat, e.drop off ≠ [] →
            option h c r.options flags.longonly { markEnd s with place := .inside e off }
              = some (rc, s') → s'.nargv = s.nargv := by
          intro off hoff hrun
          rw [hlongonly] at hrun
          exact ((ha.enter hcur hrest hoff).option_nargv hr hmarked rfl hrun).trans hnargv
        rw [optionElement] at hrun
        split at hrun
        · rename_i htail
          split at hrun
          · rename_i hdashes
            have := doubleDash_exchanged hrun
            rw [hnargv] at this
            have hd : isDashes e = true := decide_eq_true hdashes
            simp only [hd, true_and]
            exact this
          · rename_i hdashes
            have hd : ¬ (isDashes e = true ∧ (markEnd s).nonoptEnd ≠ -1) :=
              fun hboth => hdashes (of_decide_eq_true hboth.1)
            rw [if_neg hd]
            refine hoption 1 ?_ hrun
            rw [List.drop_one]
            intro hnil
            rw [hnil] at htail
            exact htail rfl
        · rename_i htail
          have hd : ¬ (isDashes e = true ∧ (markEnd s).nonoptEnd ≠ -1) := by
            intro hpair
            obtain ⟨hd, -⟩ := hpair
            have := (of_decide_eq_true hd).1
            rw [not_not.mp htail] at this
            cases this
          rw [if_neg hd]
          refine hoption 0 ?_ hrun
          intro heq
          subst heq
          exact hop (by simp [isOperand, deref])
  · rw [if_neg hlook] at hrun
    rw [exchange, if_neg hlook]
    have hplace := ha.place
    cases hcur : p.cur with
    | none =>
        rw [hcur] at hplace
        exact absurd (Or.inr hplace) hlook
    | some x =>
        obtain ⟨e, off⟩ := x
        rw [hlongonly] at hrun
        exact ha.option_nargv hr hoptarg hcur hrun

end Label

/-! ## Runs -/

section Runs

variable {h : Host} {c : Call} {flags : Flags} {options : Text} {prog : Text} {p : Pos}
  {s s₁ s' : State}

theorem settled_same (s : State) : (settled s).optarg = s.optarg
    ∧ (settled s).posixlyCorrect = s.posixlyCorrect ∧ (settled s).nargv = s.nargv := by
  rw [settled]
  split <;> exact ⟨rfl, rfl, rfl⟩

/-- Between two calls. -/
def Between (h : Host) (c : Call) (flags : Flags) (options : Text) (prog : Text) (s : State) :
    Prop :=
  ∃ p, Lawful (rulesOf c flags options) (modeOf h flags options) p ∧ At h c prog p s

/-- At the label `start`. -/
structure Labelled (h : Host) (c : Call) (flags : Flags) (options : Text) (prog : Text)
    (s : State) : Prop where
  between : Between h c flags options prog (settled s)
  optarg : s.optarg = none
  posixlyCorrect : s.posixlyCorrect = h.posix

theorem Restarts.labelled {i : Nat} {es : List Text} (hs : Restarts s i)
    (hnargc : c.nargc = s.nargv.length) (hnargv : s.nargv = prog :: es) (hi : i ≤ s.nargv.length) :
    Labelled h c flags options prog (enter h s) := by
  obtain ⟨v, hv, hprepare⟩ := hs.prepare h
  have henter : enter h s = { s with
      optind := i, optreset := v, posixlyCorrect := h.posix, optarg := none,
      nonoptStart := -1, nonoptEnd := -1 } := by
    rw [enter, hprepare]
    exact if_pos hv
  rw [henter]
  refine ⟨⟨.start es i, finish_lawful .., ?_⟩, rfl, rfl⟩
  rw [settled, if_pos hv]
  exact at_restarted hnargc hnargv hs.pos hi

/-- **A call comes to the label**, whatever the caller asks for. -/
theorem Between.enter (hb : Between h c flags options prog s) (hasks : Asks s s₁) :
    Labelled h c flags options prog (enter h s₁) := by
  obtain ⟨p, hl, ha⟩ := hb
  have hnargc : c.nargc = s₁.nargv.length := by rw [hasks.nargv]; exact ha.nargc
  have hnargv : s₁.nargv = prog :: p.elements := hasks.nargv.trans ha.nargv
  have hone : 1 ≤ s₁.nargv.length := by rw [hnargv]; exact Nat.succ_pos _
  rcases hasks.reset with ⟨hoptind, hreset⟩ | hzero | ⟨hreset, hpos, hlast⟩
  · have ha₁ : At h c prog p s₁ :=
      { nargc := hnargc
        nargv := hnargv
        optind := hoptind.trans ha.optind
        nonoptStart := hasks.nonoptStart.trans ha.nonoptStart
        nonoptEnd := hasks.nonoptEnd.trans ha.nonoptEnd
        pend := ha.pend
        optreset := hreset.trans ha.optreset
        posixlyCorrect := by rw [hasks.posixlyCorrect]; exact ha.posixlyCorrect
        place := by rw [hasks.place]; exact ha.place }
    have henter : Getopt.enter h s₁ = { s₁ with posixlyCorrect := h.posix, optarg := none } := by
      rw [Getopt.enter, ha₁.prepare]
      exact if_neg (not_not.mpr ha₁.optreset)
    rw [henter]
    refine ⟨⟨p, hl, ?_⟩, rfl, rfl⟩
    rw [settled_of_zero (s := { s₁ with posixlyCorrect := h.posix, optarg := none }) ha₁.optreset]
    exact { ha₁ with posixlyCorrect := Or.inr rfl }
  · exact Restarts.labelled (i := 1) ⟨Or.inl ⟨hzero, rfl⟩, Nat.one_pos⟩ hnargc hnargv hone
  · obtain ⟨i, hi⟩ := Int.eq_ofNat_of_zero_le (Int.le_trans Int.one_nonneg hpos)
    rw [← hasks.nargv, hi] at hlast
    exact Restarts.labelled ⟨Or.inr ⟨hreset, hi⟩, by omega⟩ hnargc hnargv (by omega)

/-- **A jump** leads from the label to the label. -/
theorem Labelled.jump (hs : Labelled h c flags options prog s)
    (hj : jump c (modeFlags s.posixlyCorrect options flags) (skipMode options) s = some s') :
    Labelled h c flags options prog s' := by
  obtain ⟨p, hl, ha⟩ := hs.between
  have hoptarg := (settled_same s).1.trans hs.optarg
  rw [hs.posixlyCorrect, jump_settled] at hj
  obtain ⟨q, hat, hlawful, hoptarg', hposix⟩ :=
    At.jump (r := rulesOf c flags options) ha hl hoptarg hj
  refine ⟨⟨q, hlawful, ?_⟩, hoptarg', hposix.trans ((settled_same s).2.1.trans hs.posixlyCorrect)⟩
  rw [settled_of_zero hat.optreset]
  exact hat

/-- **From the label, the function takes a turn.** -/
theorem Labelled.turn (hs : Labelled h c flags options prog s)
    (hoptions : c.options = some options) (hr : Reads c (rulesOf c flags options)) :
    ∃ p, Lawful (rulesOf c flags options) (modeOf h flags options) p ∧ At h c prog p (settled s) ∧
      ∃ rc s', start h c (modeFlags s.posixlyCorrect options flags) (skipMode options)
          (c.nargc.toNat + 1) s = some (rc, s') ∧
        Matches h c (rulesOf c flags options) prog
          ((rulesOf c flags options).turn h (modeOf h flags options) p) rc (settled s) s' := by
  obtain ⟨p, hl, ha⟩ := hs.between
  have hsame : ({ settled s with posixlyCorrect := h.posix, optarg := none } : State) =
      settled s := by
    rw [← hs.posixlyCorrect, ← (settled_same s).2.1, ← hs.optarg, ← (settled_same s).1]
  obtain ⟨rc, s', hrun, hmatches⟩ := @internal_turn h c prog p (settled s) flags options
    hoptions hr ha hl.mode
  rw [internal_start hoptions ha, hsame, ← hs.posixlyCorrect, ← start_settled] at hrun
  exact ⟨p, hl, ha, rc, s', hrun, hmatches⟩

/-- **From the label, the function returns.** -/
theorem Labelled.returns (hs : Labelled h c flags options prog s)
    (hoptions : c.options = some options) (hr : Reads c (rulesOf c flags options)) :
    ∃ rc s', start h c (modeFlags s.posixlyCorrect options flags) (skipMode options)
      (c.nargc.toNat + 1) s = some (rc, s') ∧ Between h c flags options prog s' := by
  obtain ⟨p, hl, -, rc, s', hrun, hmatches⟩ := hs.turn hoptions hr
  exact ⟨rc, s', hrun, _, turn_lawful hl, hmatches.at_⟩

/-- Every call of `permute_args` is one the vector allows. -/
theorem Labelled.good (hs : Labelled h c flags options prog s) {a b o : Int}
    (hx : exchange c (modeFlags s.posixlyCorrect options flags) (skipMode options) s =
      some (a, b, o)) : GoodExchange c.nargc a b o := by
  obtain ⟨p, -, ha⟩ := hs.between
  rw [exchange_settled] at hx
  exact ha.exchange_good (r := rulesOf c flags options) hx

/-- **The vector changes only by `permute_args`.** -/
theorem Labelled.exchanged (hs : Labelled h c flags options prog s)
    (hr : Reads c (rulesOf c flags options)) {e : Event} {y : Config}
    (hstep : MachineStep h c flags options (.label s) e y) :
    Exchanged (exchange c (modeFlags s.posixlyCorrect options flags) (skipMode options) s)
      s.nargv y.state.nargv := by
  obtain ⟨p, -, ha⟩ := hs.between
  cases hstep with
  | jump hj => exact jump_exchanged hj
  | returns hrun =>
      rw [start_settled] at hrun
      rw [exchange_settled, ← (settled_same s).2.2]
      exact ha.return_exchanged (r := rulesOf c flags options) hr
        ((settled_same s).1.trans hs.optarg) (modeFlags_longonly ..) hrun

/-- What holds wherever a run stops. -/
def Stands (h : Host) (c : Call) (flags : Flags) (options : Text) (prog : Text) : Config → Prop
  | .between s => Between h c flags options prog s
  | .label s => Labelled h c flags options prog s

/-- **A step** keeps it. -/
theorem Stands.step (hoptions : c.options = some options) (hr : Reads c (rulesOf c flags options))
    {x y : Config} {e : Event} (hs : Stands h c flags options prog x)
    (hstep : MachineStep h c flags options x e y) : Stands h c flags options prog y := by
  cases hstep with
  | call hasks => exact Between.enter hs hasks
  | jump hj => exact Labelled.jump hs hj
  | @returns s s' rc hrun =>
      by_cases hj : jump c (modeFlags s.posixlyCorrect options flags) (skipMode options) s = none
      · obtain ⟨rc', s₁, hrun', hb⟩ := Labelled.returns hs hoptions hr
        rw [start_succ, hj] at hrun'
        obtain ⟨-, rfl⟩ := Prod.mk.inj (Option.some.inj (hrun'.symm.trans hrun))
        exact hb
      · -- a pass that jumps needs fuel for another one
        obtain ⟨s₁, hj⟩ := Option.ne_none_iff_exists'.mp hj
        rw [start_succ 0, hj] at hrun
        cases hrun

theorem Stands.inBounds {x : Config} (hs : Stands h c flags options prog x) :
    InBounds c (skipMode options) x.state := by
  cases x with
  | between s =>
      obtain ⟨p, hl, ha⟩ := hs
      exact ha.inBounds hl
  | label s =>
      obtain ⟨p, hl, ha⟩ := Labelled.between hs
      exact .of_settled (ha.inBounds hl)

theorem jump_posix (hj : jump c flags options s = some s') :
    s'.posixlyCorrect = s.posixlyCorrect := by
  rw [jump] at hj
  split at hj
  · split at hj
    · split at hj
      · exact skipOperand_posix (s := { s with optreset := 0, place := .emsg }) hj
      · cases hj
    · cases hj
  · cases hj

/-- **A run of the function** is a path of the machine. -/
theorem start_path (s₀ : State) {rc : Int} : ∀ {fuel : Nat} {s : State},
    start h c (modeFlags s.posixlyCorrect options flags) (skipMode options) fuel s = some (rc, s') →
      ∃ k, (machine h c flags options s₀).Path (.label s)
        (List.replicate k .jumped ++ [.returned rc]) (.between s') := by
  intro fuel
  induction fuel with
  | zero => exact fun hrun => nomatch hrun
  | succ fuel ih =>
      intro s hrun
      rw [start_succ] at hrun
      cases hj : jump c (modeFlags s.posixlyCorrect options flags) (skipMode options) s with
      | none =>
          rw [hj] at hrun
          exact ⟨0, .cons (.returns hrun) (.nil _)⟩
      | some s₁ =>
          rw [hj] at hrun
          dsimp only at hrun
          rw [← jump_posix hj] at hrun
          obtain ⟨k, hk⟩ := ih hrun
          exact ⟨k + 1, .cons (.jump hj) hk⟩

end Runs

/-- What holds wherever a run of `parser` stops. -/
structure Safe (h : Host) (c : Call) (parser : Parser) (options : Text) (s₀ : State)
    (x : Config) : Prop where
  inBounds : InBounds c (skipMode options) x.state
  /-- A call of `permute_args` is one the vector allows. -/
  good {s : State} {a b o : Int} : x = .label s →
    exchange (parser.passed c) (modeFlags s.posixlyCorrect options parser.flags)
      (skipMode options) s = some (a, b, o) → GoodExchange c.nargc a b o
  /-- Nothing else writes to the vector. -/
  exchanged {s : State} {e : Event} {y : Config} : x = .label s →
    MachineStep h (parser.passed c) parser.flags options x e y →
    Exchanged (exchange (parser.passed c) (modeFlags s.posixlyCorrect options parser.flags)
      (skipMode options) s) s.nargv y.state.nargv
  /-- No element outside the vector and its NULL is read: the call returns, and its passes are
  steps of the machine. -/
  returns {s s₁ : State} : x = .between s → Asks s s₁ → ∃ rc s' k,
    parser.run h c s₁ = some (rc, s') ∧
      (machine h (parser.passed c) parser.flags options s₀).Path (.between s)
        (.called :: List.replicate k .jumped ++ [.returned rc]) (.between s')

theorem passed_spec {c : Call} {options : Text} (parser : Parser)
    (hoptions : c.options = some options) :
    (parser.passed c).nargc = c.nargc ∧ (parser.passed c).options = some options := by
  cases parser <;> exact ⟨rfl, hoptions⟩

theorem passed_reads {c : Call} (options : Text) (parser : Parser)
    (hval : ∀ table, c.longOptions = some table → ∀ o ∈ table, o.val ≠ -1) :
    Reads (parser.passed c) (rulesOf (parser.passed c) parser.flags options) := by
  refine ⟨rfl, fun table htable => ?_⟩
  cases parser with
  | getopt => cases htable
  | getoptLong => exact hval table htable
  | getoptLongOnly => exact hval table htable

/-- **No call of the parsers leaves the vector**, in any run of calls and resets. -/
theorem parser_safe {h : Host} {c : Call} {options prog : Text} {args : List Text} {s₀ : State}
    (parser : Parser) (hoptions : c.options = some options) (hnargc : c.nargc = s₀.nargv.length)
    (hargs : s₀.nargv = prog :: args) (hfresh : Fresh s₀)
    (hval : ∀ table, c.longOptions = some table → ∀ o ∈ table, o.val ≠ -1) {x : Config}
    (hx : (machine h (parser.passed c) parser.flags options s₀).Reachable x) :
    Safe h c parser options s₀ x := by
  have hpassed := passed_spec parser hoptions
  have hr := passed_reads options parser hval
  have hstands : Stands h (parser.passed c) parser.flags options prog x := by
    refine hx.invariant ?_ fun _ _ _ _ hs hstep => hs.step hpassed.2 hr hstep
    intro _ heq
    subst heq
    exact ⟨.begin args, finish_lawful .., hfresh.at_begin (hpassed.1.trans hnargc) hargs⟩
  refine ⟨?_, ?_, ?_, ?_⟩
  · obtain ⟨hoptind, hmarkers⟩ := hstands.inBounds
    exact ⟨hpassed.1 ▸ hoptind, hmarkers⟩
  · intro s a b o heq hexchange
    subst heq
    exact hpassed.1 ▸ Labelled.good hstands hexchange
  · intro s e y heq hstep
    subst heq
    exact Labelled.exchanged hstands hr hstep
  · intro s s₁ heq hasks
    subst heq
    obtain ⟨rc, s', hrun, -⟩ := (Between.enter hstands hasks).returns hpassed.2 hr
    obtain ⟨k, hpath⟩ := start_path _ hrun
    refine ⟨rc, s', k, ?_, .cons (.call hasks) hpath⟩
    rw [parser.run_eq, getoptInternal_eq hpassed.2]
    exact hrun

/-- At the label of the third call for the sample vector, where `permute_args` moves `x` behind
`-ab y`. -/
theorem parser_safe_sample : ∃ s,
    Safe signedHost sampleCall .getoptLong sampleRules.options (freshState sampleArgs) (.label s) ∧
      exchange sampleCall
        (modeFlags s.posixlyCorrect sampleRules.options Parser.getoptLong.flags)
        (skipMode sampleRules.options) s = some (1, 2, 4) := by
  have hasks : ∀ s, Asks s s := fun _ => ⟨rfl, rfl, rfl, rfl, rfl, Or.inl ⟨rfl, rfl⟩⟩
  -- the first call jumps over `x` and returns `a`, the second returns `b` with its argument
  refine ⟨_, parser_safe .getoptLong rfl rfl rfl (freshState_fresh _) (fun table htable => ?_)
    (.tail (.tail (.tail (.tail (.tail (.tail (.init rfl) (.call (hasks _))) (.jump rfl))
      (.returns rfl)) (.call (hasks _))) (.returns rfl)) (.call (hasks _))), rfl⟩
  cases htable
  decide

end LibrePortable.Getopt
