import Mathlib.Logic.Function.Iterate
import LibrePortable.Lib.Hoare
import LibrePortable.Lib.Lines
import LibrePortable.Win.Console

/-!
# One line, one answer

An answer is read by one bounded `fgets`, and what the line has more by the small ones of
`read_till_nl`. Wherever the line ends against the two buffers, the next prompt starts with
the next line; and once a prompt has met the end of the input, or an error, no later one
is answered.
-/

namespace LibrePortable.Win

open Lib Prog Console

/-! ## The input -/

/-- The stream that `tty_in` points to, and what the answers were. -/
structure Input where
  rest : Text
  eof : Bool
  err : Bool
  /-- What `UI_set_result` was given. -/
  results : List Text

/-- The end of a string as `posix_fgets` hands it on. -/
def dropCr (s : Text) : Text :=
  if s.length ≥ 2 ∧ s[s.length - 2]? = some '\r' ∧ s[s.length - 1]? = some '\n' then
    s.take (s.length - 2) ++ ['\n']
  else s

/-- What a caller of `fgets`, which is `posix_fgets` here, finds in its buffer. -/
def presented (l : Text) : Text := dropCr (l.takeWhile (· ≠ Char.ofNat 0))

namespace Input

/-- `fgets`. It returns NULL at the end of the stream, and on an error, which may come at any
time and is not forgotten. -/
def Fgets (s : Input) (size : Nat) (r : Option Text) (s' : Input) : Prop :=
  (r = none ∧ ∃ rest, s' = { s with rest := rest, err := true }) ∨
  (if s.eof = true ∨ s.rest = [] then r = none ∧ s' = { s with eof := true }
    else
      let l := takeLine '\n' (size - 1) s.rest
      r = some (presented l) ∧
        s' = { s with
          rest := s.rest.drop l.length
          eof := decide (l.length < size - 1 ∧ '\n' ∉ l) })

/-- How the system answers. Switching the mode works, and every result is accepted. -/
def Answers (s : Input) : (e : ConsoleCall) → ConsoleAnswer e → Input → Prop
  | .getStdHandle, h, s' => h ≠ Handle.null ∧ h ≠ Handle.INVALID_HANDLE_VALUE ∧ s' = s
  | .setConsoleMode .., rc, s' => rc ≠ 0#32 ∧ s' = s
  | .fgets size _, r, s' => s.Fgets size r s'
  | .feof _, rc, s' => (rc ≠ 0#32 ↔ s.eof = true) ∧ s' = s
  | .ferror _, rc, s' => (rc ≠ 0#32 ↔ s.err = true) ∧ s' = s
  | .setResult result, rc, s' =>
      BitVec.slt rc 0#32 = false ∧ s' = { s with results := s.results ++ [result] }
  | _, _, s' => s' = s

end Input

/-- The console, for as long as prompts read from it. -/
def prompting : Surroundings ConsoleCall ConsoleAnswer Input where
  Answer := Input.Answers
  Drift _ _ := False

/-- No NUL and no CR. -/
def Clean (t : Text) : Prop := ∀ c ∈ t, c ≠ Char.ofNat 0 ∧ c ≠ '\r'

/-- What a prompt makes of the line that the stream starts with. -/
def answerOf (stripNl : Bool) (t : Text) : Text :=
  if stripNl then (line '\n' t).take (BUFSIZ - 2) else (line '\n' t ++ ['\n']).take (BUFSIZ - 2)

/-! ## States -/

/-- The stream stands at `t`. -/
structure Stands (t : Text) (results : List Text) (s : Input) : Prop where
  rest : s.rest = t
  err : s.err = false
  results : s.results = results
  eof : s.eof = true → t = []

/-- Nothing more is read. -/
structure Over (results : List Text) (s : Input) : Prop where
  results : s.results = results
  ended : s.err = true ∨ s.rest = [] ∧ s.eof = true

/-- What a read of a line that stands at `t` leads to. -/
inductive LineRead (t : Text) (results : List Text) : Bool → Input → Prop
  /-- The line has been read, and nothing behind it. -/
  | read {s : Input} (hmem : '\n' ∈ t) (hs : Stands (afterLine '\n' t) results s)
      (heof : s.eof = false) : LineRead t results true s
  | missed {s : Input} (hs : Over results s) (hwhy : '\n' ∉ t ∨ s.err = true) :
      LineRead t results false s

section Clean

variable {t l : Text} {n : Nat}

theorem Clean.of_subset (h : Clean t) (hsub : l ⊆ t) : Clean l := fun c hc => h c (hsub hc)

theorem dropCr_of_clean (h : Clean l) : dropCr l = l := by
  rw [dropCr, if_neg]
  intro hcr
  exact (h '\r' (List.mem_of_getElem? hcr.2.1)).2 rfl

theorem presented_of_clean (h : Clean l) : presented l = l := by
  have hwhole : l.takeWhile (· ≠ Char.ofNat 0) = l := by
    rw [List.takeWhile_eq_self_iff]
    exact fun c hc => decide_eq_true (h c hc).1
  rw [presented, hwhole, dropCr_of_clean h]

end Clean

/-! ## One read -/

section Reads

variable {t : Text} {results : List Text} {s s' : Input} {n fuel : Nat} {stream : Option Stream}

theorem prompting_quiet (s s' : Input) : ¬ prompting.Drift s s' := id

/-- `fgets` at `t`: nothing, the line, or as much of it as there is room for. -/
theorem fgets_spec (hs : Stands t results s) (hclean : Clean t) {r : Option Text}
    (h : s.Fgets (n + 1) r s') :
    (r = none ∧ Over results s' ∧ ('\n' ∉ t ∨ s'.err = true)) ∨
    ('\n' ∈ t ∧ (line '\n' t).length < n ∧ r = some (line '\n' t ++ ['\n']) ∧
      Stands (afterLine '\n' t) results s' ∧ s'.eof = false) ∨
    (t ≠ [] ∧ ('\n' ∈ t → n ≤ (line '\n' t).length) ∧ r = some (t.take n) ∧
      Stands (t.drop n) results s') := by
  obtain ⟨rfl, herr, rfl, heof⟩ := hs
  rcases h with ⟨rfl, rest, rfl⟩ | h
  · exact Or.inl ⟨rfl, ⟨rfl, Or.inl rfl⟩, Or.inr rfl⟩
  by_cases hend : s.eof = true ∨ s.rest = []
  · rw [if_pos hend] at h
    obtain ⟨rfl, rfl⟩ := h
    have hnil : s.rest = [] := hend.elim heof id
    refine Or.inl ⟨rfl, ⟨rfl, Or.inr ⟨hnil, rfl⟩⟩, Or.inl ?_⟩
    rw [hnil]
    exact List.not_mem_nil
  rw [if_neg hend] at h
  dsimp only at h
  rw [Nat.add_sub_cancel] at h
  by_cases hfits : '\n' ∈ s.rest ∧ (line '\n' s.rest).length < n
  · have hl := takeLine_fits hfits.1 hfits.2
    have hsub : line '\n' s.rest ++ ['\n'] ⊆ s.rest := fun c hc => by
      have hmem := List.mem_append_left (afterLine '\n' s.rest) hc
      rwa [← List.append_cons, line_append hfits.1] at hmem
    rw [hl, presented_of_clean (hclean.of_subset hsub)] at h
    obtain ⟨rfl, rfl⟩ := h
    have hnot : decide ((line '\n' s.rest ++ ['\n']).length < n ∧
        '\n' ∉ line '\n' s.rest ++ ['\n']) = false :=
      decide_eq_false fun h => h.2 (List.mem_append_right _ List.mem_cons_self)
    refine Or.inr (Or.inl ⟨hfits.1, hfits.2, rfl, ⟨drop_fits hfits.1, herr, rfl, fun h => ?_⟩,
      hnot⟩)
    exact absurd (hnot.symm.trans h) Bool.false_ne_true
  · have hlen : '\n' ∈ s.rest → n ≤ (line '\n' s.rest).length := fun hmem => by
      by_contra hlt
      exact hfits ⟨hmem, by omega⟩
    rw [takeLine_cut hlen, presented_of_clean (hclean.of_subset (List.take_subset n s.rest))] at h
    obtain ⟨rfl, rfl⟩ := h
    refine Or.inr (Or.inr ⟨fun h => hend (Or.inr h), hlen, rfl, ⟨?_, herr, rfl, fun h => ?_⟩⟩)
    · show s.rest.drop (s.rest.take n).length = s.rest.drop n
      rw [List.length_take]
      rcases Nat.le_total n s.rest.length with hle | hle
      · rw [Nat.min_eq_left hle]
      · rw [Nat.min_eq_right hle, List.drop_length, List.drop_eq_nil_of_le hle]
    · have hshort := (of_decide_eq_true h).1
      rw [List.length_take] at hshort
      exact List.drop_eq_nil_of_le (by omega)

/-- **The rest of a line**, by small reads. -/
theorem readTillNl_meets (results : List Text) (stream : Option Stream) :
    ∀ {fuel : Nat} {t : Text}, t.length < fuel → Clean t →
      Meets prompting (Stands t results) (readTillNl stream fuel) fun r s =>
         ∃ ok, LineRead t results ok s ∧ r = some (if ok then 1 else 0) := by
  intro fuel
  induction fuel with
  | zero => exact fun hfuel _ => absurd hfuel (Nat.not_lt_zero _)
  | succ fuel ih =>
      intro t hfuel hclean s tr r s' hs hexec
      obtain ⟨buf, s₁, tr', rfl, ha, hrest⟩ := Exec.call_bind_inv prompting_quiet hexec
      rcases fgets_spec (n := 3) hs hclean ha with ⟨rfl, hover, hwhy⟩ | ⟨hmem, -, rfl, hs₁, heof⟩ |
        ⟨hne, hlen, rfl, hs₁⟩
      · obtain ⟨rfl, rfl, rfl⟩ := Exec.ret_inv prompting_quiet hrest
        exact ⟨false, .missed hover hwhy, rfl⟩
      · have hin : '\n' ∈ line '\n' t ++ ['\n'] := List.mem_append_right _ List.mem_cons_self
        rcases Exec.ite_inv hrest with ⟨-, hret⟩ | ⟨hnot, -⟩
        · obtain ⟨rfl, rfl, rfl⟩ := Exec.ret_inv prompting_quiet hret
          exact ⟨true, .read hmem hs₁ heof, rfl⟩
        · exact absurd hin hnot
      · rcases Exec.ite_inv hrest with ⟨hin, -⟩ | ⟨-, hrec⟩
        · exact absurd hin (not_mem_take hlen)
        -- the line goes on
        have hlt : (t.drop 3).length < fuel := by
          have hpos := List.length_pos_iff.mpr hne
          rw [List.length_drop]
          omega
        obtain ⟨ok, hread, hr⟩ := ih hlt (hclean.of_subset (List.drop_subset 3 t)) _ _ _ _ hs₁ hrec
        refine ⟨ok, ?_, hr⟩
        cases hread with
        | read hmem hs' heof =>
            have hmem' := (mem_drop_iff hlen).mp hmem
            rw [afterLine_drop hmem' (hlen hmem')] at hs'
            exact .read hmem' hs' heof
        | missed hover hwhy => exact .missed hover (hwhy.imp_left (mt (mem_drop_iff hlen).mpr))

/-! ## One answer -/

/-- What a prompt at `t` leads to. -/
inductive Prompted (stripNl : Bool) (t : Text) (results : List Text) : CInt → Input → Prop
  | answered {s : Input} (hmem : '\n' ∈ t)
      (hs : Stands (afterLine '\n' t) (results ++ [answerOf stripNl t]) s) :
      Prompted stripNl t results 1 s
  | failed {s : Input} (hs : Over results s) (hwhy : '\n' ∉ t ∨ s.err = true) :
      Prompted stripNl t results 0 s

theorem keepResult_meets (result : Text) : Meets prompting (Stands t results) (keepResult result)
    fun r s => r = some 1 ∧ Stands t (results ++ [result]) s := by
  intro s tr r s' hs hexec
  obtain ⟨rc, s₁, tr', rfl, ha, hret⟩ := Exec.call_bind_inv prompting_quiet hexec
  obtain ⟨hrc, rfl⟩ := ha
  obtain ⟨rfl, rfl, rfl⟩ := Exec.ret_inv prompting_quiet hret
  refine ⟨?_, hs.rest, hs.err, congrArg (· ++ [result]) hs.results, hs.eof⟩
  exact if_neg fun hneg => Bool.false_ne_true (hrc.symm.trans hneg)

/-- The two flags that are looked at before an answer is taken. -/
theorem flags_spec {p : ConsoleProg (Option CInt)} {tr : List (Event ConsoleCall ConsoleAnswer)}
    {r : Option CInt} (h : Exec prompting (feof stream >>= fun rc => if rc ≠ 0 then .ret (some 0)
      else ferror stream >>= fun rc => if rc ≠ 0 then .ret (some 0) else p) s tr r s') :
    ((s.eof = true ∨ s.err = true) ∧ r = some 0 ∧ s' = s) ∨
      (s.err = false ∧ ∃ tr', Exec prompting p s tr' r s') := by
  obtain ⟨(rc : CInt), s₁, tr₁, rfl, ⟨heof, heq⟩, h₁⟩ := Exec.call_bind_inv prompting_quiet h
  subst heq
  rcases Exec.ite_inv h₁ with ⟨hrc, hret⟩ | ⟨-, h₁⟩
  · obtain ⟨rfl, rfl, rfl⟩ := Exec.ret_inv prompting_quiet hret
    exact Or.inl ⟨Or.inl (heof.mp hrc), rfl, rfl⟩
  obtain ⟨(rc' : CInt), s₂, tr₂, rfl, ⟨herr, heq⟩, h₂⟩ := Exec.call_bind_inv prompting_quiet h₁
  subst heq
  rcases Exec.ite_inv h₂ with ⟨hrc', hret⟩ | ⟨hrc', h₂⟩
  · obtain ⟨rfl, rfl, rfl⟩ := Exec.ret_inv prompting_quiet hret
    exact Or.inl ⟨Or.inr (herr.mp hrc'), rfl, rfl⟩
  · exact Or.inr ⟨Bool.eq_false_iff.mpr (mt herr.mpr hrc'), tr₂, h₂⟩

theorem answerOf_fits (stripNl : Bool) (hlt : (line '\n' t).length < BUFSIZ - 2) :
    (if stripNl then (line '\n' t ++ ['\n']).takeWhile (· ≠ '\n') else line '\n' t ++ ['\n']) =
      answerOf stripNl t := by
  have hstrip : (line '\n' t ++ ['\n']).takeWhile (· ≠ '\n') = line '\n' t := by
    rw [List.takeWhile_append_of_pos, List.takeWhile_cons_of_neg (by simp), List.append_nil]
    intro a ha
    have hne : a ≠ '\n' := by
      intro heq
      subst heq
      exact not_mem_line _ t ha
    simpa using hne
  rw [hstrip, answerOf, List.take_of_length_le (by omega), List.take_of_length_le]
  rw [List.length_append, List.length_singleton]
  omega

theorem answerOf_cut (stripNl : Bool) (hmem : '\n' ∈ t)
    (hle : BUFSIZ - 2 ≤ (line '\n' t).length) : t.take (BUFSIZ - 2) = answerOf stripNl t := by
  have htake : t.take (BUFSIZ - 2) = (line '\n' t).take (BUFSIZ - 2) :=
    calc t.take (BUFSIZ - 2) = (line '\n' t ++ '\n' :: afterLine '\n' t).take (BUFSIZ - 2) := by
          rw [line_append hmem]
      _ = (line '\n' t).take (BUFSIZ - 2) := List.take_append_of_le_length hle
  rw [htake, answerOf, List.take_append_of_le_length hle, ite_self]

theorem readResult_meets (st : Statics) (stripNl : Bool) (hfuel : t.length < fuel)
    (hclean : Clean t) : Meets prompting (Stands t results) (readResult fuel st stripNl)
      fun r s => ∃ ok, r = some ok ∧ Prompted stripNl t results ok s := by
  intro s tr r s' hs hexec
  obtain ⟨buf, s₁, tr', rfl, ha, hrest⟩ := Exec.call_bind_inv prompting_quiet hexec
  rcases fgets_spec (n := BUFSIZ - 2) hs hclean ha with ⟨rfl, hover, hwhy⟩ |
    ⟨hmem, hlt, rfl, hs₁, heof⟩ | ⟨hne, hlen, rfl, hs₁⟩
  · obtain ⟨rfl, rfl, rfl⟩ := Exec.ret_inv prompting_quiet hrest
    exact ⟨0, rfl, .failed hover hwhy⟩
  · -- the line is in the buffer
    rcases flags_spec hrest with ⟨hflags, -⟩ | ⟨-, tr₂, hrest⟩
    · rw [heof, hs₁.err] at hflags
      exact absurd hflags (by decide)
    rcases Exec.ite_inv hrest with ⟨-, hkeep⟩ | ⟨hnot, -⟩
    · obtain ⟨rfl, hs'⟩ := keepResult_meets _ _ _ _ _ hs₁ hkeep
      rw [answerOf_fits stripNl hlt] at hs'
      exact ⟨1, rfl, .answered hmem hs'⟩
    · exact absurd (List.mem_append_right _ List.mem_cons_self) hnot
  · rcases flags_spec hrest with ⟨hflags, rfl, heq⟩ | ⟨-, tr₂, hrest⟩
    · -- the text ends without a newline
      subst heq
      rw [hs₁.err] at hflags
      have hend : s'.eof = true := hflags.resolve_right Bool.false_ne_true
      refine ⟨0, rfl, .failed ⟨hs₁.results, Or.inr ⟨?_, hend⟩⟩ (Or.inl fun hmem => ?_)⟩
      · rw [hs₁.rest, hs₁.eof hend]
      · have hmem' := (mem_drop_iff hlen).mpr hmem
        rw [hs₁.eof hend] at hmem'
        exact List.not_mem_nil hmem'
    rcases Exec.ite_inv hrest with ⟨hin, -⟩ | ⟨-, hrest⟩
    · exact absurd hin (not_mem_take hlen)
    -- the rest of the line is dropped
    have hfuel' : (t.drop (BUFSIZ - 2)).length < fuel := by
      rw [List.length_drop]
      omega
    obtain ⟨tr₃, tr₄, ok, s₂, rfl, htill, hrest⟩ := Exec.bind_inv hrest
    obtain ⟨ok, hread, rfl⟩ := readTillNl_meets results _ hfuel'
      (hclean.of_subset (List.drop_subset _ t)) _ _ _ _ hs₁ htill
    cases hread with
    | read hmem hs₂ _ =>
        have hmem' := (mem_drop_iff hlen).mp hmem
        rw [afterLine_drop hmem' (hlen hmem')] at hs₂
        obtain ⟨rfl, hs'⟩ := keepResult_meets _ _ _ _ _ hs₂ hrest
        rw [answerOf_cut stripNl hmem' (hlen hmem')] at hs'
        exact ⟨1, rfl, .answered hmem' hs'⟩
    | missed hover hwhy =>
        obtain ⟨rfl, rfl, rfl⟩ := Exec.ret_inv prompting_quiet hrest
        exact ⟨0, rfl, .failed hover (hwhy.imp_left (mt (mem_drop_iff hlen).mpr))⟩

/-- Switching the mode works, and the stream is not touched. -/
theorem changeMode_spec {mode : DWORD} {tr : List (Event ConsoleCall ConsoleAnswer)} {rc : CInt}
    (h : Exec prompting (changeMode mode) s tr rc s') : rc ≠ 0 ∧ s' = s := by
  obtain ⟨(handle : Handle), s₁, tr₁, rfl, ha, h₁⟩ := Exec.call_bind_inv prompting_quiet h
  obtain ⟨hnull, hinvalid, rfl⟩ := ha
  rcases Exec.ite_inv h₁ with ⟨-, h₁⟩ | ⟨hno, -⟩
  · obtain ⟨(type : DWORD), s₂, tr₂, rfl, ha, h₂⟩ := Exec.call_bind_inv prompting_quiet h₁
    obtain rfl : s₂ = s₁ := ha
    rcases Exec.ite_inv h₂ with ⟨-, h₂⟩ | ⟨-, hret⟩
    · obtain ⟨rc', s₃, tr₃, rfl, ha, hret⟩ := Exec.call_inv prompting_quiet h₂
      obtain ⟨rfl, rfl, rfl⟩ := Exec.ret_inv prompting_quiet hret
      exact ha
    · obtain ⟨rfl, rfl, rfl⟩ := Exec.ret_inv prompting_quiet hret
      exact ⟨by decide, rfl⟩
  · exact absurd ⟨hnull, hinvalid⟩ hno

/-- What is true of the reading is true of the whole prompt. -/
theorem readStringInner_of {st : Statics} {stripNl : Bool} {P : Input → Prop}
    {Q : CInt → Input → Prop} (echo : Bool)
    (h : Meets prompting P (readResult fuel st stripNl) fun r s => ∃ ok, r = some ok ∧ Q ok s) :
    Meets prompting P (readStringInner fuel st echo stripNl)
      fun r s => ∃ ok, r = some ok ∧ Q ok s := by
  intro s tr r s' hs hexec
  cases echo with
  | true => exact h s tr r s' hs hexec
  | false =>
      obtain ⟨tr₁, tr₂, rc, s₁, rfl, hoff, h₁⟩ := Exec.bind_inv hexec
      obtain ⟨hrc, rfl⟩ := changeMode_spec hoff
      rcases Exec.ite_inv h₁ with ⟨hzero, -⟩ | ⟨-, h₁⟩
      · exact absurd hzero hrc
      obtain ⟨tr₃, tr₄, ok, s₂, rfl, hread, h₂⟩ := Exec.bind_inv h₁
      obtain ⟨ok, rfl, hQ⟩ := h _ _ _ _ hs hread
      obtain ⟨u, s₃, tr₅, rfl, ha, h₃⟩ := Exec.call_bind_inv prompting_quiet h₂
      obtain rfl : s₃ = s₂ := ha
      obtain ⟨tr₆, tr₇, rc', s₄, rfl, hon, h₄⟩ := Exec.bind_inv h₃
      obtain ⟨hrc', rfl⟩ := changeMode_spec hon
      rcases Exec.ite_inv h₄ with ⟨hzero, -⟩ | ⟨-, hret⟩
      · exact absurd hzero hrc'
      · obtain ⟨rfl, rfl, rfl⟩ := Exec.ret_inv prompting_quiet hret
        exact ⟨ok, rfl, hQ⟩

/-! ## Once the input is over -/

theorem fgets_over (hs : Over results s) {size : Nat} {r : Option Text} (h : s.Fgets size r s') :
    Over results s' ∧ (r ≠ none → s'.err = true) := by
  obtain ⟨rfl, hover⟩ := hs
  rcases h with ⟨rfl, rest, rfl⟩ | h
  · exact ⟨⟨rfl, Or.inl rfl⟩, fun h => absurd rfl h⟩
  by_cases hend : s.eof = true ∨ s.rest = []
  · rw [if_pos hend] at h
    obtain ⟨rfl, rfl⟩ := h
    exact ⟨⟨rfl, hover.imp_right fun h => ⟨h.1, rfl⟩⟩, fun h => absurd rfl h⟩
  · rw [if_neg hend] at h
    obtain ⟨-, rfl⟩ := h
    have herr : s.err = true := hover.resolve_right fun h => hend (Or.inl h.2)
    exact ⟨⟨rfl, Or.inl herr⟩, fun _ => herr⟩

theorem readResult_over (st : Statics) (stripNl : Bool) :
    Meets prompting (Over results) (readResult fuel st stripNl)
      fun r s => ∃ ok, r = some ok ∧ ok = 0 ∧ Over results s := by
  intro s tr r s' hs hexec
  obtain ⟨(buf : Option Text), s₁, tr', rfl, ha, hrest⟩ := Exec.call_bind_inv prompting_quiet hexec
  obtain ⟨hover, herr⟩ := fgets_over hs ha
  cases buf with
  | none =>
      obtain ⟨rfl, rfl, rfl⟩ := Exec.ret_inv prompting_quiet hrest
      exact ⟨0, rfl, rfl, hover⟩
  | some buf =>
      rcases flags_spec hrest with ⟨-, rfl, heq⟩ | ⟨hno, -⟩
      · subst heq
        exact ⟨0, rfl, rfl, hover⟩
      · exact absurd (hno.symm.trans (herr (Option.some_ne_none buf))) Bool.false_ne_true

end Reads

/-! ## Prompts in turn -/

/-- A call of `read_string_inner`; `fuel` is more than enough for what it has to read. -/
structure Prompting where
  fuel : Nat
  echo : Bool
  stripNl : Bool
  tr : List (Event ConsoleCall ConsoleAnswer)
  rc : Option CInt
  before : Input
  after : Input

/-- Calls in turn, in one session. -/
inductive PromptRun (st : Statics) : List Prompting → Input → Input → Prop
  | nil (s : Input) : PromptRun st [] s s
  | call {x : Prompting} {l : List Prompting} {s' : Input}
      (hexec : Exec prompting (readStringInner x.fuel st x.echo x.stripNl) x.before x.tr x.rc
        x.after) (hrest : PromptRun st l x.after s') : PromptRun st (x :: l) x.before s'

/-- Of the calls, the first `k` succeed, each with a line of its own, and the others fail. -/
structure Answered (input : Text) (l : List Prompting) (k : Nat) : Prop where
  /-- The `i`-th call reads line `i`, and nothing else. -/
  answered : ∀ i x, l[i]? = some x → i < k → x.rc = some 1 ∧
    '\n' ∈ (afterLine '\n')^[i] input ∧ x.before.rest = (afterLine '\n')^[i] input ∧
    x.after.rest = (afterLine '\n')^[i + 1] input ∧
    x.after.results = x.before.results ++ [answerOf x.stripNl ((afterLine '\n')^[i] input)]
  failed : ∀ i x, l[i]? = some x → k ≤ i → x.rc = some 0 ∧ x.after.results = x.before.results
  /-- The first to fail comes to the end of the text, or to an error. -/
  why : ∀ x, l[k]? = some x → '\n' ∉ (afterLine '\n')^[k] input ∨ x.after.err = true

section Runs

variable {st : Statics} {l : List Prompting} {s s' : Input} {t : Text} {results : List Text}

theorem PromptRun.ended (hrun : PromptRun st l s s') (hs : Over results s) :
    ∀ x ∈ l, x.rc = some 0 ∧ x.after.results = x.before.results := by
  induction hrun with
  | nil _ => exact fun x hx => absurd hx List.not_mem_nil
  | @call x l s' hexec _ ih =>
      obtain ⟨ok, hrc, rfl, hover⟩ := readStringInner_of x.echo (readResult_over st x.stripNl)
        _ _ _ _ hs hexec
      intro y hy
      rcases List.mem_cons.mp hy with rfl | hy
      · exact ⟨hrc, hover.results.trans hs.results.symm⟩
      · exact ih hover y hy

/-- **One line, one answer**: no call takes what another line has left over. -/
theorem prompts_answered (hrun : PromptRun st l s s') (hs : Stands t results s) (hclean : Clean t)
    (hfuel : ∀ x ∈ l, t.length < x.fuel) : ∃ k ≤ l.length, Answered t l k := by
  induction hrun generalizing t results with
  | nil _ =>
      refine ⟨0, Nat.le_refl _, ⟨fun i x hx => ?_, fun i x hx => ?_, fun x hx => ?_⟩⟩
      · exact absurd hx (by simp)
      · exact absurd hx (by simp)
      · exact absurd hx (by simp)
  | @call x l s' hexec hrest ih =>
      obtain ⟨ok, hrc, hprompted⟩ := readStringInner_of x.echo
        (readResult_meets st x.stripNl (hfuel x List.mem_cons_self) hclean) _ _ _ _ hs hexec
      cases hprompted with
      | answered hmem hafter =>
          have hsuffix := afterLine_suffix '\n' t
          obtain ⟨k, hk, hl⟩ := ih hafter (hclean.of_subset hsuffix.subset) fun y hy =>
            Nat.lt_of_le_of_lt hsuffix.length_le (hfuel y (List.mem_cons_of_mem _ hy))
          refine ⟨k + 1, Nat.succ_le_succ hk, ⟨fun i y hy hi => ?_, fun i y hy hi => ?_, hl.why⟩⟩
          · cases i with
            | zero =>
                obtain rfl : x = y := Option.some.inj hy
                refine ⟨hrc, hmem, hs.rest, hafter.rest, ?_⟩
                rw [hafter.results, hs.results]
                rfl
            | succ i => exact hl.answered i y hy (Nat.lt_of_succ_lt_succ hi)
          · obtain ⟨i, rfl⟩ : ∃ j, i = j + 1 := ⟨i - 1, by omega⟩
            exact hl.failed i y hy (Nat.le_of_succ_le_succ hi)
      | failed hover hwhy =>
          refine ⟨0, Nat.zero_le _, ⟨fun i y _ hi => absurd hi (Nat.not_lt_zero i),
            fun i y hy _ => ?_, fun y hy => ?_⟩⟩
          · cases i with
            | zero =>
                obtain rfl : x = y := Option.some.inj hy
                exact ⟨hrc, hover.results.trans hs.results.symm⟩
            | succ i => exact hrest.ended hover y (List.mem_of_getElem? hy)
          · obtain rfl : x = y := Option.some.inj hy
            exact hwhy

/-! ## A run -/

/-- As much of a line of 514 letters as there is room for. -/
def longPart : Text := List.replicate (BUFSIZ - 2) 'a'

/-- The long line, and `cd`. -/
def sampleText : Text := longPart ++ ['a', 'a', 'a', 'a', '\n', 'c', 'd', '\n']

/-- The stream and the answers, between two calls. -/
def sampleInput (rest : Text) (results : List Text) : Input := ⟨rest, false, false, results⟩

/-- Two prompts; the first has two more reads to get to the end of its line. -/
def samplePrompts : List Prompting :=
  [⟨600, true, true, [⟨.fgets 511 (some .stdin), some longPart⟩,
      ⟨.feof (some .stdin), (0#32 : CInt)⟩, ⟨.ferror (some .stdin), (0#32 : CInt)⟩,
      ⟨.fgets 4 (some .stdin), some ['a', 'a', 'a']⟩, ⟨.fgets 4 (some .stdin), some ['a', '\n']⟩,
      ⟨.setResult longPart, (0#32 : CInt)⟩], some 1,
    sampleInput sampleText [], sampleInput ['c', 'd', '\n'] [longPart]⟩,
   ⟨600, true, true, [⟨.fgets 511 (some .stdin), some ['c', 'd', '\n']⟩,
      ⟨.feof (some .stdin), (0#32 : CInt)⟩, ⟨.ferror (some .stdin), (0#32 : CInt)⟩,
      ⟨.setResult ['c', 'd'], (0#32 : CInt)⟩], some 1,
    sampleInput ['c', 'd', '\n'] [longPart], sampleInput [] [longPart, ['c', 'd']]⟩]

def sampleStatics : Statics := ⟨0, some .stdin, some .stderr, 1⟩

theorem longPart_letters : ∀ c ∈ longPart, c = 'a' := fun _ hc => List.eq_of_mem_replicate hc

theorem not_mem_longPart : '\n' ∉ longPart := fun h => absurd (longPart_letters _ h) (by decide)

/-- The first read fills the buffer. -/
theorem sampleText_fgets : (sampleInput sampleText []).Fgets 511 (some longPart)
    (sampleInput ['a', 'a', 'a', 'a', '\n', 'c', 'd', '\n'] []) := by
  have hlen : longPart.length = 510 := List.length_replicate
  have hcut : takeLine '\n' 510 sampleText = longPart := by
    have hline : line '\n' sampleText = longPart ++ ['a', 'a', 'a', 'a'] := by
      have hnot : '\n' ∉ longPart ++ ['a', 'a', 'a', 'a'] := by simp [not_mem_longPart]
      rw [← line_append_cons hnot ['c', 'd', '\n'], sampleText]
      simp
    rw [takeLine_cut fun _ => by rw [hline]; simp [hlen]]
    exact List.take_left' hlen
  have hclean : Clean longPart := fun c hc => by rw [longPart_letters c hc]; decide
  refine Or.inr ?_
  rw [if_neg (by simp [sampleInput, sampleText])]
  show some longPart = some (presented (takeLine '\n' 510 sampleText)) ∧
    sampleInput ['a', 'a', 'a', 'a', '\n', 'c', 'd', '\n'] [] =
      ⟨sampleText.drop (takeLine '\n' 510 sampleText).length,
        decide ((takeLine '\n' 510 sampleText).length < 510
          ∧ '\n' ∉ takeLine '\n' 510 sampleText), false, []⟩
  rw [hcut, presented_of_clean hclean, hlen, sampleText, List.drop_left' hlen]
  exact ⟨rfl, rfl⟩

theorem sample_flag : (0#32 : CInt) ≠ 0#32 ↔ false = true :=
  ⟨fun h => absurd rfl h, fun h => absurd h Bool.false_ne_true⟩

/-- A buffer without a line feed is kept once the rest of the line has been thrown away. -/
theorem sampleLong_exec {part rest : Text} (hpart : '\n' ∉ part)
    (hread : (sampleInput (part ++ rest) []).Fgets 511 (some part) (sampleInput rest []))
    {tr : List (Event ConsoleCall ConsoleAnswer)} {s : Input}
    (hrest : Exec prompting (readTillNl (some .stdin) 600) (sampleInput rest []) tr (some 1) s) :
    Exec prompting (readStringInner 600 sampleStatics true true) (sampleInput (part ++ rest) [])
      (⟨.fgets 511 (some .stdin), some part⟩ :: ⟨.feof (some .stdin), (0#32 : CInt)⟩ ::
        ⟨.ferror (some .stdin), (0#32 : CInt)⟩ :: (tr ++ [⟨.setResult part, (0#32 : CInt)⟩]))
      (some 1) { s with results := s.results ++ [part] } := by
  refine .call hread (.call ⟨sample_flag, rfl⟩ (.call ⟨sample_flag, rfl⟩ ?_))
  show Exec prompting (if '\n' ∈ part then _ else _) _ _ _ _
  rw [if_neg hpart]
  exact hrest.bind (.call ⟨rfl, rfl⟩ (.ret _ _))

theorem samplePrompts_run : PromptRun sampleStatics samplePrompts (sampleInput sampleText [])
    (sampleInput [] [longPart, ['c', 'd']]) := by
  have hshort : prompting.Answer (sampleInput ['c', 'd', '\n'] [longPart])
      (.fgets 511 (some .stdin)) (some ['c', 'd', '\n']) (sampleInput [] [longPart]) :=
    Or.inr ⟨rfl, rfl⟩
  have hmore : prompting.Answer (sampleInput ['a', 'a', 'a', 'a', '\n', 'c', 'd', '\n'] [])
      (.fgets 4 (some .stdin)) (some ['a', 'a', 'a'])
      (sampleInput ['a', '\n', 'c', 'd', '\n'] []) := Or.inr ⟨rfl, rfl⟩
  have hend : prompting.Answer (sampleInput ['a', '\n', 'c', 'd', '\n'] [])
      (.fgets 4 (some .stdin)) (some ['a', '\n']) (sampleInput ['c', 'd', '\n'] []) :=
    Or.inr ⟨rfl, rfl⟩
  have hlong := sampleLong_exec not_mem_longPart sampleText_fgets
    (.call hmore (.call hend (.ret _ _)))
  exact .call hlong (.call (.call hshort (.call ⟨sample_flag, rfl⟩ (.call ⟨sample_flag, rfl⟩
    (.call ⟨rfl, rfl⟩ (.ret _ _))))) (.nil _))

theorem prompts_answered_sample :
    ∃ k ≤ samplePrompts.length, Answered sampleText samplePrompts k := by
  have hlen : longPart.length = 510 := List.length_replicate
  have hclean : Clean sampleText := by
    have hrest : Clean ['a', 'a', 'a', 'a', '\n', 'c', 'd', '\n'] := by simp [Clean]
    intro c hc
    rcases List.mem_append.mp hc with hc | hc
    · rw [longPart_letters c hc]
      decide
    · exact hrest c hc
  refine prompts_answered samplePrompts_run ⟨rfl, rfl, rfl, fun h => absurd h Bool.false_ne_true⟩
    hclean fun x hx => ?_
  have hfuel : x.fuel = 600 := by
    simp only [samplePrompts, List.mem_cons, List.not_mem_nil, or_false] at hx
    rcases hx with rfl | rfl <;> rfl
  rw [hfuel, sampleText, List.length_append, hlen]
  decide

end Runs

end LibrePortable.Win
