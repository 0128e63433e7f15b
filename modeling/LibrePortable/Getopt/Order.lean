import LibrePortable.Getopt.Scan

/-!
# The order a scan leaves

A scan from a fresh state ends, and it leaves the elements that it consumed in front, in
their order, with `optind` behind the last of them. The operands and what follows `--`
come after, in their order too.
-/

namespace LibrePortable.Getopt

/-- `getopt_long`, or `getopt_long_only`. -/
def Rules.call (r : Rules) (h : Host) (c : Call) (s : State) : Option (Int × State) :=
  if r.longonly then getoptLongOnly h c s else getoptLong h c s

/-- The variables as a process finds them. -/
structure Fresh (s : State) : Prop where
  optind : s.optind = 1
  optreset : s.optreset = 0
  place : s.place = .emsg
  nonoptStart : s.nonoptStart = -1
  nonoptEnd : s.nonoptEnd = -1
  posixlyCorrect : s.posixlyCorrect = -1

/-- An option string without a mode in front. -/
def Plain (options : Text) : Prop := deref options ≠ 43 ∧ deref options ≠ 45

instance (options : Text) : Decidable (Plain options) := inferInstanceAs (Decidable (_ ∧ _))

/-- The vector that a scan of `s` leaves, if this is the layout of its elements. -/
structure Permuted (s last : State) (l : Layout) : Prop where
  /-- Every element is in the layout once, in its order. -/
  elements : l.elements = s.nargv.tail
  nargv : last.nargv = s.nargv.take 1 ++ l.consumed ++ (l.operands ++ l.behind)
  optind : last.optind = ((1 + l.consumed.length : Nat) : Int)
  perm : last.nargv.Perm s.nargv

/-- The calls come to an end, and this is the vector then. -/
def ScanPermutes (h : Host) (c : Call) (r : Rules) (s : State) : Prop :=
  ∃ fuel rets last, scan (r.call h c) fuel s = some (rets, last) ∧
    Permuted s last (r.layout 0 s.nargv.tail)

section Order

variable {h : Host} {c : Call} {r : Rules} {prog : Text} {total : Layout} {n : Nat} {s : State}

theorem call_eq (r : Rules) (h : Host) (c : Call) (s : State) :
    r.call h c s = getoptInternal h c ⟨true, false, r.longonly⟩ s := by
  rw [Rules.call]
  cases r.longonly <;> rfl

/-- **The part before the label `start`**, in a scan. -/
theorem call_start (ha : Agrees h c r) (hplain : Plain r.options) (henv : h.posixlyCorrect = false)
    (hoptind : s.optind ≠ 0) (hreset : s.optreset = 0)
    (hposix : s.posixlyCorrect = -1 ∨ s.posixlyCorrect = 0) :
    r.call h c s = start h c ⟨true, false, r.longonly⟩ r.options (c.nargc.toNat + 1)
      { s with posixlyCorrect := 0, optarg := none } := by
  have hprepare : prepare h s = { s with posixlyCorrect := 0 } := by
    rw [prepare, if_neg hoptind]
    rcases hposix with hp | hp
    · rw [if_pos (Or.inl hp), henv]
      rfl
    · rw [if_neg (by rw [hp, hreset]; decide), ← hp]
  have hflags : modeFlags 0 r.options ⟨true, false, r.longonly⟩ = ⟨true, false, r.longonly⟩ := by
    rw [modeFlags, if_neg hplain.2, if_neg (not_or.mpr ⟨not_not.mpr rfl, hplain.1⟩)]
  have hskip : skipMode r.options = r.options := if_neg (not_or.mpr hplain)
  rw [call_eq, getoptInternal, ha.options]
  dsimp only
  rw [hprepare, hflags, hskip, if_neg (not_not.mpr hreset)]

/-- **A call** during a scan. -/
theorem call_advances (ha : Agrees h c r) (hplain : Plain r.options)
    (henv : h.posixlyCorrect = false) (hs : Scanning c r prog total n s) :
    ∃ rc s', r.call h c s = some (rc, s') ∧ Advances c r prog total n rc s' := by
  obtain ⟨hnargc, hreset, hposix, done, skipped, pend, rest, l, hshape, hahead, hpart⟩ := hs
  rw [call_start ha hplain henv (by rw [hshape.optind]; omega) hreset hposix]
  cases hahead with
  | element hplace hready =>
      refine start_advances ha ?_ hnargc hreset (Or.inr rfl) rfl hplace
        ⟨hshape.nargv, hshape.optind⟩ hready hpart
      rw [hnargc, hshape.length]
      simp
      omega
  | @inside e es off hplace hne hmarked =>
      obtain ⟨ch, t, ht⟩ := List.exists_cons_of_ne_nil hne
      have htext : ¬ (s.optreset ≠ 0 ∨ s.place.text = []) := by
        rw [hplace]
        exact not_or.mpr ⟨not_not.mpr hreset, hne⟩
      rw [ht, cluster_cons r es (Nat.succ_ne_zero off)] at hpart
      rw [start, if_neg htext]
      exact option_advances (s := { s with posixlyCorrect := 0, optarg := none }) ha hnargc hreset
        (Or.inr rfl) rfl ⟨hshape.nargv, hshape.optind⟩ hmarked hplace ht hpart (by rw [ht]; simp)

/-- **The calls come to an end**, after no more of them than there are characters and elements. -/
theorem scan_ends (ha : Agrees h c r) (hplain : Plain r.options) (henv : h.posixlyCorrect = false) :
    ∀ {fuel n : Nat} {s : State}, n < fuel → Scanning c r prog total n s →
      ∃ rets last, scan (r.call h c) fuel s = some (rets, last) ∧
        Ended prog total.consumed total.operands total.behind last := by
  intro fuel
  induction fuel with
  | zero => intro n s hn; exact absurd hn (Nat.not_lt_zero n)
  | succ fuel ih =>
      intro n s hn hs
      obtain ⟨rc, s', hcall, hadv⟩ := call_advances ha hplain henv hs
      rw [scan, hcall, Option.bind_some]
      rcases hadv with ⟨rfl, hended⟩ | ⟨hrc, n', hlt, hs'⟩
      · exact ⟨[], s', if_pos rfl, hended⟩
      · obtain ⟨rets, last, hscan, hended⟩ := ih (by omega) hs'
        refine ⟨(rc, s') :: rets, last, ?_, hended⟩
        dsimp only
        rw [if_neg hrc, hscan]
        rfl

/-- A scan starts with nothing consumed and nothing passed over. -/
theorem Fresh.scanning (hf : Fresh s) (hnargc : c.nargc = s.nargv.length) {args : List Text}
    (hargs : s.nargv = prog :: args) : Scanning c r prog (r.layout 0 args) (weight args) s :=
  ⟨hnargc, hf.optreset, Or.inl hf.posixlyCorrect, [], [], [], args, _, ⟨hargs, hf.optind⟩,
    .element (by rw [hf.place]; rfl) (.unset rfl rfl hf.nonoptStart hf.nonoptEnd), rfl, rfl, rfl⟩

/-- What a scan consumed and what it passed over are all it looked at. -/
theorem layout_perm (l : Layout) :
    (l.consumed ++ (l.operands ++ l.behind)).Perm l.elements := by
  have hfilter := (List.filter_append_perm (fun x : Text × Bool => x.2) l.scanned).map Prod.fst
  rw [List.map_append] at hfilter
  rw [← List.append_assoc]
  exact hfilter.append_right l.behind

/-- A vector without a program's name is left alone. -/
theorem call_empty (ha : Agrees h c r) (hplain : Plain r.options) (henv : h.posixlyCorrect = false)
    (hfresh : Fresh s) (hnargc : c.nargc = 0) :
    ∃ last, r.call h c s = some (-1, last) ∧ last.nargv = s.nargv ∧ last.optind = 1 := by
  rw [call_start ha hplain henv (by rw [hfresh.optind]; decide) hfresh.optreset
    (Or.inl hfresh.posixlyCorrect), start, if_pos (Or.inr (by rw [hfresh.place]; rfl)), element,
    if_pos (by rw [hnargc, hfresh.optind]; decide), endOfVector]
  dsimp only
  rw [if_neg (not_not.mpr hfresh.nonoptEnd), if_neg (not_not.mpr hfresh.nonoptStart)]
  exact ⟨_, rfl, rfl, hfresh.optind⟩

/-- **A scan permutes the vector.** -/
theorem scan_permutes (ha : Agrees h c r) (hplain : Plain r.options)
    (henv : h.posixlyCorrect = false) (hfresh : Fresh s) (hnargc : c.nargc = s.nargv.length) :
    ScanPermutes h c r s := by
  have helements := Rules.layout_elements r 0 s.nargv.tail
  cases hargs : s.nargv with
  | nil =>
      obtain ⟨last, hcall, hnargv, hoptind⟩ := call_empty ha hplain henv hfresh (by
        rw [hnargc, hargs]; rfl)
      have hscan : scan (r.call h c) 1 s = some ([], last) := by
        rw [scan, hcall]
        rfl
      refine ⟨1, [], last, hscan, helements, ?_, ?_, by rw [hnargv]⟩
      · rw [hnargv, hargs]
        rfl
      · rw [hoptind, hargs]
        rfl
  | cons prog args =>
      obtain ⟨rets, last, hscan, hended⟩ := scan_ends ha hplain henv (Nat.lt_succ_self _)
        (hfresh.scanning (r := r) hnargc hargs)
      have hnargv := hended.nargv
      rw [List.append_assoc] at hnargv
      refine ⟨_, rets, last, hscan, helements, ?_, ?_, ?_⟩
      · rw [hnargv, hargs]
        rfl
      · rw [hended.optind, hargs]
        rfl
      · have hperm := layout_perm (r.layout 0 args)
        rw [hargs, List.tail_cons] at helements
        rw [helements] at hperm
        rw [hnargv, hargs]
        exact hperm.cons prog

end Order

/-! ## Runs -/

section Runs

/-- The string with these bytes, up to a NUL. -/
def textOf : List UInt8 → Text
  | [] => []
  | b :: bs => if h : b ≠ 0 then ⟨b, h⟩ :: textOf bs else []

/-- A process that has not called the parser yet. -/
def freshState (nargv : List Text) : State where
  opterr := 1
  optind := 1
  optopt := 63
  optreset := 0
  optarg := none
  place := .emsg
  nonoptStart := -1
  nonoptEnd := -1
  posixlyCorrect := -1
  nargv := nargv
  idx := 0
  flags := fun _ => 0
  stderr := []

theorem freshState_fresh (nargv : List Text) : Fresh (freshState nargv) :=
  ⟨rfl, rfl, rfl, rfl, rfl, rfl⟩

/-- `char` is signed, and the environment is empty. -/
def signedHost : Host := ⟨true, false⟩

/-- The option string `ab:`, and the long option `--long` with an argument. -/
def sampleRules : Rules where
  options := textOf [97, 98, 58]
  table := some [⟨textOf [108, 111, 110, 103], requiredArgument, none, 108⟩]
  longonly := false

/-- `prog x -ab y z --long w -- -a`. -/
def sampleArgs : List Text :=
  [textOf [112], textOf [120], textOf [45, 97, 98], textOf [121], textOf [122],
    textOf [45, 45, 108, 111, 110, 103], textOf [119], textOf [45, 45], textOf [45, 97]]

def sampleCall : Call := ⟨sampleArgs.length, some sampleRules.options, sampleRules.table, true⟩

theorem sample_agrees : Agrees signedHost sampleCall sampleRules := by
  have hletters : sampleRules.options.all (fun l => signedHost.toInt l.val ≠ -1) = true := by decide
  refine ⟨rfl, rfl, fun table htable => ?_, fun l hl => ?_⟩
  · cases htable
    decide
  · exact of_decide_eq_true (List.all_eq_true.mp hletters l hl)

/-- The operands `x` and `z` end up behind `--`. -/
theorem scan_permutes_sample :
    ScanPermutes signedHost sampleCall sampleRules (freshState sampleArgs) :=
  scan_permutes sample_agrees (by decide) rfl (freshState_fresh _) rfl

/-- A first call that returns -1 is the last one. -/
theorem scan_at_once {call : State → Option (Int × State)} {s s' last : State} {fuel : Nat}
    {rets : List (Int × State)} (hcall : call s = some (-1, s'))
    (hscan : scan call fuel s = some (rets, last)) : last = s' := by
  cases fuel with
  | zero => cases hscan
  | succ fuel =>
      rw [scan, hcall, Option.bind_some] at hscan
      exact (Prod.mk.inj (Option.some.inj hscan)).2.symm

/-- The option string is the byte 0xFF. -/
def byteRules : Rules := ⟨textOf [255], none, false⟩

/-- `prog x -ÿ`. -/
def byteArgs : List Text := [textOf [112], textOf [120], textOf [45, 255]]

def byteCall : Call := ⟨byteArgs.length, some byteRules.options, none, true⟩

/-- **An option letter that reads as -1** ends the scan before the operand in front of it has
been moved. -/
theorem scan_stops_at_byte :
    Plain byteRules.options ∧ (∀ table, byteRules.table = some table → ∀ o ∈ table, o.val ≠ -1) ∧
      signedHost.posixlyCorrect = false ∧ Fresh (freshState byteArgs) ∧
      byteCall.nargc = (freshState byteArgs).nargv.length ∧
      ¬ ScanPermutes signedHost byteCall byteRules (freshState byteArgs) := by
  refine ⟨by decide, fun _ h => (by cases h), rfl, freshState_fresh _, rfl, ?_⟩
  intro hex
  obtain ⟨fuel, rets, last, hscan, hperm⟩ := hex
  have hcall : (byteRules.call signedHost byteCall (freshState byteArgs)).map
      (fun x => (x.1, x.2.nargv)) = some (-1, byteArgs) := by decide
  obtain ⟨⟨rc, s'⟩, hrun, hret⟩ := Option.map_eq_some_iff.mp hcall
  obtain ⟨rfl, hnargv⟩ := Prod.mk.inj hret
  obtain rfl := scan_at_once hrun hscan
  exact absurd (hnargv.symm.trans hperm.nargv) (by decide)

end Runs

end LibrePortable.Getopt
