import LibrePortable.Getopt.Rescan

/-!
# Operands in their place

With an option string that starts with `-`, an operand is shown where it stands, as if it
were the argument of an option with value 1. Nothing is exchanged then, and a scan cuts the
vector into pieces, one after the other: operands, options with the elements they take, and
the element that ends it.
-/

namespace LibrePortable.Getopt

/-! ## Pieces -/

/-- What a scan that leaves operands in their place makes of the elements. -/
inductive Piece where
  | operand (e : Text)
  /-- An option element with those it takes, and what its letters show. -/
  | option (e : Text) (args : List Text) (os : List Outcome)
  /-- The element `--`. -/
  | dashes (e : Text)

namespace Piece

def elements : Piece → List Text
  | operand e => [e]
  | option e args _ => e :: args
  | dashes e => [e]

/-- What the calls show of a piece. -/
def shown : Piece → List Outcome
  | operand e => [.option inorder (some e)]
  | option _ _ os => os
  | dashes _ => []

end Piece

namespace Rules

variable (r : Rules) (h : Host)

/-- What the letters of an element show from place `off` on, in front of the elements `rest`. -/
def lettersShow (rest : List Text) : Nat → Text → List Outcome
  | _, [] => []
  | off, ch :: t =>
      if r.alone off ch t ∧ t ≠ [] then
        r.placeOutcome h rest off ch t :: lettersShow rest (off + 1) t
      else [r.placeOutcome h rest off ch t]

/-- What an option element shows. -/
def elementShows (rest : List Text) : Text → List Outcome
  | [] => []
  | [dash] => r.lettersShow h rest 0 [dash]
  | _ :: t => r.lettersShow h rest 1 t

/-- **The elements are cut into these pieces**, and the ones behind `--`. -/
inductive Cut : List Text → List Piece → List Text → Prop
  | nil : Cut [] [] []
  | operand {e : Text} {es rest : List Text} {ps : List Piece} : isOperand r.options e = true →
      Cut es ps rest → Cut (e :: es) (.operand e :: ps) rest
  | option {e : Text} {es rest : List Text} {ps : List Piece} : isOperand r.options e = false →
      isDashes e = false → Cut (es.drop (r.takes es e)) ps rest →
      Cut (e :: es) (.option e (es.take (r.takes es e)) (r.elementShows h es e) :: ps) rest
  | dashes {e : Text} {es : List Text} : isOperand r.options e = false → isDashes e = true →
      Cut (e :: es) [.dashes e] es

end Rules

section Cuts

variable {r : Rules} {h : Host} {m : Mode} {q : Pos} {os : List Outcome} {e t : Text} {off : Nat}
  {ch : Letter} {done es rest : List Text} {ps : List Piece}

/-- Nothing is lost and nothing is seen twice. -/
theorem Rules.Cut.elements (hcut : r.Cut h es ps rest) :
    es = ps.flatMap Piece.elements ++ rest := by
  induction hcut with
  | nil => rfl
  | operand _ _ ih => exact congrArg (_ :: ·) ih
  | @option e es rest ps _ _ _ ih =>
      rw [List.flatMap_cons, Piece.elements, List.append_assoc, ← ih, List.cons_append,
        List.take_append_drop]
  | dashes _ _ => rfl

/-- Elements are only left behind `--`. -/
theorem Rules.Cut.behind (hcut : r.Cut h es ps rest) :
    rest = [] ∨ ∃ ps' e, ps = ps' ++ [.dashes e] := by
  induction hcut with
  | nil => exact Or.inl rfl
  | operand _ _ ih =>
      rcases ih with hnil | ⟨ps', e, rfl⟩
      · exact Or.inl hnil
      · exact Or.inr ⟨_ :: ps', e, rfl⟩
  | option _ _ _ ih =>
      rcases ih with hnil | ⟨ps', e, rfl⟩
      · exact Or.inl hnil
      · exact Or.inr ⟨_ :: ps', e, rfl⟩
  | dashes _ _ => exact Or.inr ⟨[], _, rfl⟩

/-- **The letters of an element**, from one of them on. -/
theorem plays_letters : ∀ {t : Text} {off : Nat} {ch : Letter}, e.drop off = ch :: t →
    r.Plays h m (.finish (done ++ e :: es.take (r.placeTakes es off ch t (r.cluster es t)))
      (es.drop (r.placeTakes es off ch t (r.cluster es t)))) os q →
    r.Plays h m ⟨done, [], [], some (e, off), es⟩ (r.lettersShow h es off (ch :: t) ++ os) q := by
  intro t
  induction t with
  | nil =>
      intro off ch ht hplays
      have hnot : ¬ (r.alone off ch [] = true ∧ ([] : Text) ≠ []) := fun hboth => hboth.2 rfl
      rw [Rules.lettersShow, if_neg hnot]
      refine .shows ?_ hplays
      rw [turn_letter rfl ht, Rules.optionTurn, if_neg hnot]
      rfl
  | cons ch' t ih =>
      intro off ch ht hplays
      have htail : e.drop (off + 1) = ch' :: t := by rw [← List.tail_drop, ht, List.tail_cons]
      rw [Rules.lettersShow]
      cases halone : r.alone off ch (ch' :: t) with
      | true =>
          -- the next letter goes on, and takes what this one would
          have hboth : true = true ∧ ch' :: t ≠ [] := ⟨rfl, List.cons_ne_nil _ _⟩
          rw [placeTakes_alone halone, cluster_cons r es (Nat.succ_ne_zero off)] at hplays
          rw [if_pos hboth]
          refine .shows ?_ (ih htail hplays)
          rw [turn_letter rfl ht, Rules.optionTurn, if_pos ⟨halone, hboth.2⟩]
      | false =>
          have hnot : ¬ (r.alone off ch (ch' :: t) = true ∧ ch' :: t ≠ []) := fun hboth =>
            Bool.false_ne_true (halone.symm.trans hboth.1)
          rw [placeTakes_const halone es _ 0] at hplays
          rw [if_neg fun hboth => Bool.false_ne_true hboth.1]
          refine .shows ?_ hplays
          rw [turn_letter rfl ht, Rules.optionTurn, if_neg hnot]
          rfl

/-- An option element. -/
theorem plays_element (hop : isOperand r.options e = false) (hdashes : isDashes e = false)
    (hplays : r.Plays h m (.finish (done ++ e :: es.take (r.takes es e))
      (es.drop (r.takes es e))) os q) :
    r.Plays h m (.finish done (e :: es)) (r.elementShows h es e ++ os) q := by
  obtain ⟨off, hoff, hcases, henter⟩ := turn_enter hop hdashes
  have hcongr : ∀ {os : List Outcome}, r.Plays h m ⟨done, [], [], some (e, off), es⟩ os q →
      r.Plays h m (.finish done (e :: es)) os q :=
    fun hplays => hplays.congr (henter h m done [] [] es)
  obtain ⟨d, t, rfl⟩ := exists_cons_of_option hop
  cases t with
  | nil =>
      -- only place 0 has a letter
      obtain ⟨rfl, -⟩ : off = 0 ∧ _ := hcases.resolve_right fun hone => hoff (by rw [hone]; rfl)
      refine hcongr (plays_letters rfl ?_)
      rw [placeTakes_none (Or.inl rfl)]
      exact hplays
  | cons ch t =>
      obtain rfl : off = 1 := hcases.resolve_left fun hzero => List.cons_ne_nil _ _ hzero.2
      refine hcongr (plays_letters rfl ?_)
      rw [← cluster_cons r es Nat.one_ne_zero]
      exact hplays

/-- **A scan that leaves operands in their place** shows the pieces. -/
theorem plays_cut (r : Rules) (h : Host) (es done : List Text) : ∃ ps rest, r.Cut h es ps rest ∧
    r.Plays h .allargs (.finish done es) (ps.flatMap Piece.shown)
      (.finish (done ++ ps.flatMap Piece.elements) rest) := by
  generalize hn : es.length = n
  induction n using Nat.strong_induction_on generalizing es done with
  | _ n ih =>
      cases es with
      | nil =>
          refine ⟨[], [], .nil, .ends ?_⟩
          simp [Rules.turn, Rules.turnAt, Pos.finish]
      | cons e es =>
          subst hn
          cases hop : isOperand r.options e with
          | true =>
              obtain ⟨ps, rest, hcut, hplays⟩ := ih _ (Nat.lt_succ_self _) es (done ++ [e]) rfl
              rw [List.append_assoc] at hplays
              refine ⟨.operand e :: ps, rest, .operand hop hcut, .shows ?_ hplays⟩
              show r.turnAt h .allargs done [] [] (e :: es) = _
              rw [Rules.turnAt.eq_def]
              dsimp only
              rw [if_pos hop]
              rfl
          | false =>
              cases hdashes : isDashes e with
              | true =>
                  refine ⟨[.dashes e], es, .dashes hop hdashes, .ends ?_⟩
                  have hturn := @turnAt_dashes r h .allargs e done [] [] hop hdashes es
                  rw [List.append_nil, List.nil_append] at hturn
                  exact hturn
              | false =>
                  have hlen : (es.drop (r.takes es e)).length < (e :: es).length := by
                    rw [List.length_drop, List.length_cons]
                    omega
                  obtain ⟨ps, rest, hcut, hplays⟩ := ih _ hlen _
                    (done ++ e :: es.take (r.takes es e)) rfl
                  rw [List.append_assoc] at hplays
                  exact ⟨_, rest, .option hop hdashes hcut, plays_element hop hdashes hplays⟩

end Cuts

/-! ## Scans -/

/-- Calls up to the one that returns -1 are a scan. -/
theorem scan_of_calls {call : State → Option (Int × State)} {last s' : State} :
    ∀ {n : Nat} {s : State} {rets : List (Int × State)}, calls call n s = some (rets, s') →
      (∀ x ∈ rets, x.1 ≠ -1) → call s' = some (-1, last) →
      scan call (n + 1) s = some (rets, last) := by
  intro n
  induction n with
  | zero =>
      intro s rets hcalls _ hend
      obtain ⟨rfl, rfl⟩ := Prod.mk.inj (Option.some.inj hcalls)
      rw [scan, hend]
      rfl
  | succ n ih =>
      intro s rets hcalls hne hend
      rw [calls] at hcalls
      obtain ⟨⟨rc, s₁⟩, hcall, hmap⟩ := Option.bind_eq_some_iff.mp hcalls
      dsimp only at hmap
      obtain ⟨⟨rets', s₂⟩, hlater, heq⟩ := Option.map_eq_some_iff.mp hmap
      obtain ⟨rfl, rfl⟩ := Prod.mk.inj heq
      have hscan := ih hlater (fun x hx => hne x (List.mem_cons_of_mem _ hx)) hend
      have hrc : rc ≠ -1 := hne (rc, s₁) List.mem_cons_self
      rw [scan, hcall, Option.bind_some]
      dsimp only
      rw [if_neg hrc, hscan]
      rfl

theorem showed_rc_ne {os : List Outcome} {rets : List (Int × State)}
    (hshown : List.Forall₂ Showed os rets) (hne : ∀ o ∈ os, o.rc ≠ -1) :
    ∀ x ∈ rets, x.1 ≠ -1 := by
  induction hshown with
  | nil => exact fun x hx => absurd hx List.not_mem_nil
  | @cons o x os rets hshowed _ ih =>
      intro y hy
      rcases List.mem_cons.mp hy with rfl | hy
      · rw [hshowed.rc]
        exact hne o List.mem_cons_self
      · exact ih (fun o ho => hne o (List.mem_cons_of_mem _ ho)) y hy

/-- A scan by `getopt_long` accounts for the elements up to `optind`, once and in their order,
and leaves the vector alone. -/
structure Accounts (h : Host) (c : Call) (options : Text) (s : State) (ps : List Piece)
    (rest : List Text) (rets : List (Int × State)) (last : State) : Prop where
  cut : (rulesOf c ⟨true, false, false⟩ options).Cut h s.nargv.tail ps rest
  scan : ∃ fuel, scan (getoptLong h c) fuel s = some (rets, last)
  shown : List.Forall₂ Showed (ps.flatMap Piece.shown) rets
  nargv : (∀ x ∈ rets, x.2.nargv = s.nargv) ∧ last.nargv = s.nargv
  elements : s.nargv.tail = ps.flatMap Piece.elements ++ rest
  optind : last.optind = ((1 + (ps.flatMap Piece.elements).length : Nat) : Int)
  /-- The scan ends at the end of the vector or behind `--`. -/
  ended : last.optind = max 1 c.nargc ∨ ∃ ps' e, ps = ps' ++ [.dashes e]

/-- There are such pieces. -/
def InPlace (h : Host) (c : Call) (options : Text) (s : State) : Prop :=
  ∃ ps rest rets last, Accounts h c options s ps rest rets last

section Scans

variable {h : Host} {c : Call} {options : Text} {s : State}

/-- **Operands are shown in their place**, and the vector is left alone. -/
theorem allargs_inPlace (hoptions : c.options = some options) (hmode : deref options = 45)
    (hval : ∀ table, c.longOptions = some table → ∀ o ∈ table, o.val ≠ -1)
    (hletters : ∀ l ∈ options.tail, h.toInt l.val ≠ -1) (hfresh : Fresh s)
    (hnargc : c.nargc = s.nargv.length) : InPlace h c options s := by
  cases hargs : s.nargv with
  | nil =>
      have hzero : c.nargc = 0 := by
        rw [hnargc, hargs]
        rfl
      obtain ⟨last, hcall, hnargv, hoptind, -⟩ := @internal_empty h c s ⟨true, false, false⟩ options
        hoptions hzero hfresh.optind
        (Or.inr ⟨by rw [hfresh.place]; rfl, hfresh.nonoptStart, hfresh.nonoptEnd⟩)
      have hscan : scan (getoptLong h c) 1 s = some ([], last) := by
        rw [scan, getoptLong, hcall]
        rfl
      refine ⟨[], [], [], last, ?_, ⟨1, hscan⟩, .nil, ⟨fun x hx => absurd hx List.not_mem_nil,
        hnargv⟩, ?_, hoptind, Or.inl ?_⟩
      · rw [hargs]
        exact .nil
      · rw [hargs]
        rfl
      · rw [hoptind, hzero]
        rfl
  | cons prog args =>
      obtain ⟨ps, rest, hcut, hplays⟩ :=
        plays_cut (rulesOf c ⟨true, false, false⟩ options) h args []
      have hall : modeOf h ⟨true, false, false⟩ options = .allargs := by
        rw [modeOf, modeFlags, if_pos hmode]
        rfl
      have hskip : skipMode options = options.tail := if_pos (Or.inr hmode)
      have hfollows := @internal_follows h c prog ⟨true, false, false⟩ options hoptions ⟨rfl, hval⟩
      rw [hall] at hfollows
      have hkeep : ∀ p, InOrder args p →
          InOrder args ((rulesOf c ⟨true, false, false⟩ options).turn h .allargs p).pos :=
        fun p => turn_inOrder (by decide)
      obtain ⟨rets, s', last, hcalls, hshown, hbetween, hend, -, hat, -⟩ := hplays.calls hfollows
        hkeep (hfresh.at_begin hnargc hargs) (finish_lawful ..)
        ⟨rfl, rfl, by simp [Pos.elements, Pos.finish, Pos.curElems]⟩
      -- no call of the scan returns what ends it
      have hagrees : Agrees h { c with options := some (skipMode options) }
          (rulesOf c ⟨true, false, false⟩ options) := by
        refine ⟨rfl, rfl, hval, ?_⟩
        rw [show (rulesOf c ⟨true, false, false⟩ options).options = options.tail from hskip]
        exact hletters
      have hscan := scan_of_calls hcalls (showed_rc_ne hshown (plays_rc_ne hagrees hplays)) hend
      have helements := hcut.elements
      have hoptind : last.optind = ((1 + (ps.flatMap Piece.elements).length : Nat) : Int) := by
        rw [hat.optind]
        simp [Pos.index, Pos.finish]
      refine ⟨ps, rest, rets, last, ?_, ⟨_, hscan⟩, hshown, ⟨fun x hx => ?_, ?_⟩, ?_, hoptind, ?_⟩
      · rw [hargs]
        exact hcut
      · obtain ⟨p', hat', hi⟩ := hbetween x hx
        rw [hat'.nargv, hi.elements, hargs]
      · rw [hat.nargv, hargs, helements]
        simp [Pos.elements, Pos.finish, Pos.curElems]
      · rw [hargs]
        exact helements
      · refine hcut.behind.imp_left fun hnil => ?_
        rw [hoptind, hnargc, hargs, helements, hnil, List.append_nil, List.length_cons,
          Nat.add_comm]
        exact (max_eq_right (by omega)).symm

/-- The option string `-ab:`, and the long option `--long` with an argument. -/
def inplaceOptions : Text := textOf [45, 97, 98, 58]

def inplaceCall : Call := { sampleCall with options := some inplaceOptions }

/-- `prog x -ab y z --long w -- -a`: both operands are shown, and `-a` is left. -/
theorem allargs_inPlace_sample :
    InPlace signedHost inplaceCall inplaceOptions (freshState sampleArgs) := by
  have hletters : inplaceOptions.tail.all (fun l => signedHost.toInt l.val ≠ -1) = true := by
    decide
  refine allargs_inPlace rfl (by decide) (fun table htable => ?_) (fun l hl => ?_)
    (freshState_fresh _) rfl
  · cases htable
    decide
  · exact of_decide_eq_true (List.all_eq_true.mp hletters l hl)

/-- The option string is `-` and the byte 0xFF. -/
def inplaceByteOptions : Text := textOf [45, 255]

/-- `prog -ÿ x`. -/
def inplaceByteArgs : List Text := [textOf [112], textOf [45, 255], textOf [120]]

def inplaceByteCall : Call := ⟨inplaceByteArgs.length, some inplaceByteOptions, some [], true⟩

/-- A vector without any element. -/
def inplaceEmptyCall : Call := { inplaceCall with nargc := 0 }

/-- **An option letter that reads as -1** ends the scan in front of the operand; and without
`argv[0]` the scan ends with `optind` behind `nargc`. -/
theorem allargs_stops_at_byte :
    (deref inplaceByteOptions = 45 ∧ inplaceByteCall.longOptions = some [] ∧
      Fresh (freshState inplaceByteArgs) ∧
      inplaceByteCall.nargc = (freshState inplaceByteArgs).nargv.length ∧
      ¬ InPlace signedHost inplaceByteCall inplaceByteOptions (freshState inplaceByteArgs)) ∧
    (inplaceEmptyCall.nargc = (freshState []).nargv.length ∧
      (getoptLong signedHost inplaceEmptyCall (freshState [])).map (fun x => (x.1, x.2.optind)) =
        some (-1, 1)) := by
  refine ⟨⟨by decide, rfl, freshState_fresh _, rfl, ?_⟩, rfl, by decide⟩
  intro h
  obtain ⟨ps, rest, rets, last, hacc⟩ := h
  have hfirst : (getoptLong signedHost inplaceByteCall (freshState inplaceByteArgs)).map Prod.fst =
      some (-1) := by decide
  obtain ⟨⟨rc, s'⟩, hcall, hrc⟩ := Option.map_eq_some_iff.mp hfirst
  obtain rfl : rc = -1 := hrc
  obtain ⟨fuel, hscan⟩ := hacc.scan
  cases fuel with
  | zero => cases hscan
  | succ fuel =>
      rw [scan, hcall, Option.bind_some] at hscan
      obtain ⟨rfl, -⟩ := Prod.mk.inj (Option.some.inj hscan)
      -- the calls show nothing, but the first element is an option
      have hshown := hacc.shown
      have hcut : (rulesOf inplaceByteCall ⟨true, false, false⟩ inplaceByteOptions).Cut signedHost
        [textOf [45, 255], textOf [120]] ps rest := hacc.cut
      cases hcut with
      | operand hop _ => exact absurd hop (by decide)
      | option _ _ _ => cases hshown
      | dashes _ hdashes => exact absurd hdashes (by decide)

end Scans

end LibrePortable.Getopt
