import LibrePortable.Lib.Lines
import LibrePortable.Build.CMake

/-!
# The symbols that libcrypto exports

Both build systems take `crypto.sym`, a symbol in every line, and leave one symbol out. CMake
replaces its name and the end of the line by nothing, anywhere in the file; so a name that
only ends with it loses this end, and is joined with the next line. automake leaves out every
line in which the name occurs. The two agree with each other, and with the list without the
symbol, unless the name is part of another one. And without any symbol CMake stops, since an
argument that is empty is none.
-/

namespace LibrePortable.Build

open Lib Regex

/-- A name that may stand in `crypto.sym`. -/
structure Symbol where
  name : Text
  ne_nil : name ≠ []
  chars : ∀ c ∈ name, (c.isAlphanum || c = '_') = true

/-- The file `crypto.sym`. -/
def symFile (syms : List Symbol) : Text := terminated '\n' (syms.map Symbol.name)

def bioSLog : Text := "BIO_s_log".toList

/-! ## CMake -/

/-- `CRYPTO_UNEXPORT` -/
def cryptoUnexport : List Text := [bioSLog]

/-- `crypto_p.sym`; no result if CMake stops with an error. -/
def cmakeExport (cryptoSym : Text) : Option Text := do
  let syms ← cryptoUnexport.foldlM
    (fun syms sym => stringReplace (sym ++ ['\n']) [] (unquoted syms)) cryptoSym
  return (unquoted syms).flatten

/-! ## automake -/

/-- `grep -v <pattern>`, where the pattern is a name -/
def grepV (pattern input : Text) : Text :=
  terminated '\n' ((splitLines '\n' input).filter fun l => !decide (pattern <:+: l))

/-- `crypto_portable.sym` -/
def automakeExport (cryptoSym : Text) : Text := grepV bioSLog cryptoSym

/-! ## Removing the ends of lines -/

/-- What is left of a line, if an occurrence of `w` at its end is removed with the separator. -/
def withoutEnd (w l : Text) : Text :=
  if w <:+ l then l.take (l.length - w.length) else l ++ ['\n']

section Lines

variable {w l rest : Text} {ls : List Text}

/-- The pattern can only stand at the end of a line. -/
theorem pattern_ends (hw : '\n' ∉ w) (hl : '\n' ∉ l) (h : w ++ ['\n'] <+: l ++ '\n' :: rest) :
    w = l := by
  obtain ⟨t, ht⟩ := h
  rw [List.append_assoc] at ht
  calc w = line '\n' (w ++ ('\n' :: t)) := (line_append_cons hw t).symm
    _ = line '\n' (l ++ '\n' :: rest) := congrArg (line '\n') ht
    _ = l := line_append_cons hl rest

/-- The line `w` goes, with its separator. -/
theorem replaceAll_removed (w rest : Text) (fuel : Nat) :
    (text (w ++ ['\n'])).replaceAll (fun _ => []) (fuel + 1) (w ++ '\n' :: rest) =
      (text (w ++ ['\n'])).replaceAll (fun _ => []) fuel rest := by
  have hrun : (text (w ++ ['\n'])).run (w ++ '\n' :: rest) = [⟨w ++ ['\n'], rest, []⟩] := by
    rw [List.append_cons w '\n' rest]
    exact run_text rest (w ++ ['\n'])
  rw [replaceAll_of_head (congrArg List.head? hrun) (List.append_ne_nil_of_right_ne_nil _
    (List.cons_ne_nil _ _))]
  exact Option.map_id'

/-- **Every line** is replaced by itself. -/
theorem replaceAll_line (hw : '\n' ∉ w) (rest : Text) (fuel : Nat) : ∀ {l : Text}, '\n' ∉ l →
    (text (w ++ ['\n'])).replaceAll (fun _ => []) (fuel + 1) (l ++ '\n' :: rest) =
      ((text (w ++ ['\n'])).replaceAll (fun _ => [])
        (if w <:+ l then fuel else fuel + 1) rest).map (withoutEnd w l ++ ·) := by
  intro l
  induction l with
  | nil =>
      intro hl
      by_cases heq : w = []
      · subst heq
        exact (replaceAll_removed [] rest fuel).trans Option.map_id'.symm
      · have hsuffix : ¬ w <:+ [] := fun h => heq (List.suffix_nil.mp h)
        rw [withoutEnd, if_neg hsuffix, if_neg hsuffix]
        exact replaceAll_cons (run_text_eq_nil fun h => heq (pattern_ends hw hl h))
  | cons a l ih =>
      intro hl
      by_cases heq : w = a :: l
      · subst heq
        rw [replaceAll_removed, withoutEnd, if_pos List.suffix_rfl, if_pos List.suffix_rfl,
          Nat.sub_self]
        exact Option.map_id'.symm
      · have hsuffix : w <:+ a :: l ↔ w <:+ l :=
          List.suffix_cons_iff.trans (or_iff_right heq)
        have hend : withoutEnd w (a :: l) = a :: withoutEnd w l := by
          rw [withoutEnd, withoutEnd]
          by_cases h : w <:+ l
          · have hlen : w.length ≤ l.length := h.length_le
            rw [if_pos h, if_pos (hsuffix.mpr h), List.length_cons, Nat.succ_sub hlen,
              List.take_succ_cons]
          · rw [if_neg h, if_neg (mt hsuffix.mp h), List.cons_append]
        have hrun : (text (w ++ ['\n'])).run (a :: (l ++ '\n' :: rest)) = [] :=
          run_text_eq_nil fun h => heq (pattern_ends hw hl h)
        rw [List.cons_append, replaceAll_cons hrun, ih fun h => hl (List.mem_cons_of_mem _ h),
          Option.map_map, hend, if_congr hsuffix rfl rfl]
        rfl

theorem replaceAll_file (hw : '\n' ∉ w) : ∀ {ls : List Text}, (∀ l ∈ ls, '\n' ∉ l) →
    ∀ {fuel : Nat}, ls.length < fuel →
      (text (w ++ ['\n'])).replaceAll (fun _ => []) fuel (terminated '\n' ls) =
        some (ls.flatMap (withoutEnd w)) := by
  intro ls
  induction ls with
  | nil =>
      intro _ fuel hfuel
      obtain ⟨fuel, rfl⟩ : ∃ k, fuel = k + 1 := ⟨fuel - 1, by simp at hfuel; omega⟩
      refine replaceAll_of_none (search_eq_none fun u t v hsplit ht => ?_)
      obtain rfl := eq_of_mem_text ht
      have hlen := congrArg List.length hsplit
      simp [terminated] at hlen
  | cons l ls ih =>
      intro hls fuel hfuel
      obtain ⟨hl, hls⟩ := List.forall_mem_cons.mp hls
      obtain ⟨fuel, rfl⟩ : ∃ k, fuel = k + 1 := ⟨fuel - 1, by omega⟩
      have hcons : terminated '\n' (l :: ls) = l ++ '\n' :: terminated '\n' ls := by
        simp [terminated]
      have henough : ls.length < if w <:+ l then fuel else fuel + 1 := by
        rw [List.length_cons] at hfuel
        split <;> omega
      rw [hcons, replaceAll_line hw _ _ hl, ih hls henough]
      rfl

theorem length_le_terminated (ls : List Text) : ls.length ≤ (terminated '\n' ls).length := by
  rw [terminated, List.length_flatMap]
  induction ls with
  | nil => exact Nat.le_refl _
  | cons l ls ih =>
      rw [List.map_cons, List.sum_cons, List.length_append, List.length_cons]
      simp only [List.length_nil, List.length_cons]
      omega

end Lines

/-! ## The two export lists -/

section Exports

variable {syms : List Symbol}

theorem Symbol.not_mem (s : Symbol) {c : Char} (hc : (c.isAlphanum || c = '_') = false) :
    c ∉ s.name := fun hmem => by
  rw [s.chars c hmem] at hc
  cases hc

theorem no_newline (syms : List Symbol) : ∀ l ∈ syms.map Symbol.name, '\n' ∉ l := by
  rintro l hl
  obtain ⟨s, -, rfl⟩ := List.mem_map.mp hl
  exact s.not_mem (by decide)

theorem no_semicolon (syms : List Symbol) : ';' ∉ symFile syms := by
  intro hmem
  obtain ⟨l, hl, hmem⟩ := List.mem_flatMap.mp hmem
  obtain ⟨s, -, rfl⟩ := List.mem_map.mp hl
  rcases List.mem_append.mp hmem with hmem | hmem
  · exact s.not_mem (by decide) hmem
  · simp at hmem

/-- **What CMake writes**: every line without its end, if it ends with the name. -/
theorem cmakeExport_symFile (hne : syms ≠ []) :
    cmakeExport (symFile syms) =
      some ((syms.map Symbol.name).flatMap (withoutEnd bioSLog)) := by
  have hfile : (symFile syms).isEmpty = false := by
    obtain ⟨s, syms, rfl⟩ := List.exists_cons_of_ne_nil hne
    simp [symFile, terminated]
  have hreplace : stringReplace (bioSLog ++ ['\n']) [] (unquoted (symFile syms)) =
      some ((syms.map Symbol.name).flatMap (withoutEnd bioSLog)) := by
    rw [unquoted_eq (no_semicolon syms), hfile, stringReplace]
    show (text _).replaceAll _ (([symFile syms].flatten).length + 1) [symFile syms].flatten = _
    rw [List.flatten_singleton]
    exact replaceAll_file (by decide) (no_newline syms)
      (Nat.lt_succ_of_le (length_le_terminated _))
  have hsemicolon : ';' ∉ (syms.map Symbol.name).flatMap (withoutEnd bioSLog) := by
    intro hmem
    obtain ⟨l, hl, hmem⟩ := List.mem_flatMap.mp hmem
    obtain ⟨s, -, rfl⟩ := List.mem_map.mp hl
    have hname : ';' ∉ s.name := s.not_mem (by decide)
    rw [withoutEnd] at hmem
    split at hmem
    · exact hname (List.mem_of_mem_take hmem)
    · rcases List.mem_append.mp hmem with hmem | hmem
      · exact hname hmem
      · simp at hmem
  rw [cmakeExport, cryptoUnexport, List.foldlM_cons, hreplace]
  exact congrArg some (unquoted_flatten hsemicolon)

/-- Without any symbol, there is an error. -/
theorem cmakeExport_nil : cmakeExport (symFile []) = none := by
  decide

/-- **What automake writes**: the lines in which the name does not occur. -/
theorem automakeExport_symFile (syms : List Symbol) :
    automakeExport (symFile syms) =
      symFile (syms.filter fun s => !decide (bioSLog <:+: s.name)) := by
  rw [automakeExport, grepV, symFile, splitLines_terminated (no_newline syms), List.filter_map]
  rfl

/-- The list without what is withheld. -/
def exported (syms : List Symbol) : List Symbol :=
  syms.filter fun s => !decide (s.name ∈ cryptoUnexport)

theorem exported_cons (s : Symbol) (syms : List Symbol) :
    exported (s :: syms) = if s.name = bioSLog then exported syms else s :: exported syms := by
  rw [exported, List.filter_cons]
  by_cases heq : s.name = bioSLog <;> simp [cryptoUnexport, exported, heq]

theorem symFile_inj {syms' : List Symbol} (h : symFile syms = symFile syms') :
    syms.map Symbol.name = syms'.map Symbol.name :=
  terminated_inj (no_newline syms) (no_newline syms') h

/-- **automake is right** if the name is not part of another one. -/
theorem automakeExport_iff : automakeExport (symFile syms) = symFile (exported syms) ↔
    ∀ s ∈ syms, bioSLog <:+: s.name → s.name = bioSLog := by
  rw [automakeExport_symFile]
  constructor
  · intro h s hs hpart
    by_contra hne
    have hmem : s.name ∈ (exported syms).map Symbol.name :=
      List.mem_map_of_mem (List.mem_filter.mpr ⟨hs, by simp [cryptoUnexport, hne]⟩)
    rw [← symFile_inj h] at hmem
    obtain ⟨s', hs', heq⟩ := List.mem_map.mp hmem
    have hkept := (List.mem_filter.mp hs').2
    rw [heq] at hkept
    simp [hpart] at hkept
  · intro h
    refine congrArg symFile (List.filter_congr fun s hs => ?_)
    have hiff : bioSLog <:+: s.name ↔ s.name ∈ cryptoUnexport := by
      refine Iff.trans ⟨h s hs, fun heq => heq ▸ List.infix_rfl⟩ ?_
      simp [cryptoUnexport]
    exact congrArg (!·) (decide_eq_decide.mpr hiff)

/-- As many lines are left as there were lines that did not end with the name. -/
theorem count_newline {w : Text} : ∀ syms : List Symbol,
    ((syms.map Symbol.name).flatMap (withoutEnd w)).count '\n' =
      (syms.filter fun s => !decide (w <:+ s.name)).length
  | [] => rfl
  | s :: syms => by
      have hname : '\n' ∉ s.name := s.not_mem (by decide)
      have ih := count_newline (w := w) syms
      rw [List.map_cons, List.flatMap_cons, List.count_append, ih, withoutEnd]
      by_cases h : w <:+ s.name
      · have htake : '\n' ∉ s.name.take (s.name.length - w.length) :=
          fun hmem => hname (List.mem_of_mem_take hmem)
        rw [if_pos h, List.count_eq_zero.mpr htake, List.filter_cons_of_neg (by simpa using h),
          Nat.zero_add]
      · rw [if_neg h, List.count_append, List.count_eq_zero.mpr hname,
          List.filter_cons_of_pos (by simpa using h), List.length_cons]
        exact Nat.add_comm ..

theorem count_newline_file (syms : List Symbol) : (symFile syms).count '\n' = syms.length := by
  induction syms with
  | nil => rfl
  | cons s syms ih =>
      have hname : '\n' ∉ s.name := s.not_mem (by decide)
      have hcons : symFile (s :: syms) = (s.name ++ ['\n']) ++ symFile syms := rfl
      rw [hcons, List.count_append, ih, List.count_append, List.count_eq_zero.mpr hname,
        List.length_cons]
      exact Nat.add_comm ..

/-- **CMake is right** if there is a symbol, and no other name ends with this one. -/
theorem cmakeExport_iff : cmakeExport (symFile syms) = some (symFile (exported syms)) ↔
    syms ≠ [] ∧ ∀ s ∈ syms, bioSLog <:+ s.name → s.name = bioSLog := by
  constructor
  · intro h
    have hne : syms ≠ [] := by
      rintro rfl
      rw [cmakeExport_nil] at h
      cases h
    refine ⟨hne, fun s hs hsuffix => ?_⟩
    rw [cmakeExport_symFile hne] at h
    -- what does not end with the name is not the name, and there is as much of either
    have hlength := congrArg (List.count '\n') (Option.some.inj h)
    rw [count_newline, count_newline_file] at hlength
    have hsub : (syms.filter fun s => !decide (bioSLog <:+ s.name)).Sublist (exported syms) := by
      refine List.monotone_filter_right syms fun s hno => ?_
      have hne : s.name ≠ bioSLog := fun heq => by
        rw [heq] at hno
        simp [List.suffix_rfl] at hno
      simp [cryptoUnexport, hne]
    have hsame := hsub.eq_of_length hlength
    by_contra hother
    have hmem : s ∈ exported syms := List.mem_filter.mpr ⟨hs, by simp [cryptoUnexport, hother]⟩
    rw [← hsame] at hmem
    simpa [hsuffix] using (List.mem_filter.mp hmem).2
  · rintro ⟨hne, h⟩
    rw [cmakeExport_symFile hne]
    refine congrArg some ?_
    clear hne
    induction syms with
    | nil => rfl
    | cons s syms ih =>
        obtain ⟨hs, hsyms⟩ := List.forall_mem_cons.mp h
        rw [List.map_cons, List.flatMap_cons, ih hsyms, withoutEnd, exported_cons]
        by_cases hsuffix : bioSLog <:+ s.name
        · have heq := hs hsuffix
          rw [if_pos hsuffix, if_pos heq, heq, Nat.sub_self]
          rfl
        · have hne : s.name ≠ bioSLog := fun heq => hsuffix (heq ▸ List.suffix_rfl)
          rw [if_neg hsuffix, if_neg hne]
          rfl

/-- **The export lists** are the same, and the list without what is withheld, exactly if there is a
symbol and the name that is withheld is not part of another one. -/
theorem export_lists_iff (syms : List Symbol) :
    (cmakeExport (symFile syms) = some (automakeExport (symFile syms)) ∧
      automakeExport (symFile syms) = symFile (exported syms)) ↔
    syms ≠ [] ∧ ∀ s ∈ syms, bioSLog <:+: s.name → s.name = bioSLog := by
  constructor
  · rintro ⟨hcmake, hautomake⟩
    rw [hautomake, cmakeExport_iff] at hcmake
    exact ⟨hcmake.1, automakeExport_iff.mp hautomake⟩
  · rintro ⟨hne, h⟩
    have hautomake := automakeExport_iff.mpr h
    refine ⟨?_, hautomake⟩
    rw [hautomake, cmakeExport_iff]
    exact ⟨hne, fun s hs hsuffix => h s hs hsuffix.isInfix⟩

end Exports

/-- A name that ends with the one that is withheld, and the next one. -/
def logSymbols : List Symbol :=
  [⟨"LBIO_s_log".toList, by decide, List.all_eq_true.mp (by decide)⟩,
    ⟨"BIO_s_mem".toList, by decide, List.all_eq_true.mp (by decide)⟩]

/-- CMake shortens the first name and joins it with the second; automake leaves it out. -/
theorem export_lists_differ :
    (logSymbols.map Symbol.name).Nodup ∧
    cmakeExport (symFile logSymbols) = some "LBIO_s_mem\n".toList ∧
    automakeExport (symFile logSymbols) = "BIO_s_mem\n".toList ∧
    symFile (exported logSymbols) = "LBIO_s_log\nBIO_s_mem\n".toList := by
  decide +kernel

end LibrePortable.Build
