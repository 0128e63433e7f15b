import Mathlib.Data.List.Basic

/-!
# `posix_fgets`

Streams are opened in binary on Windows, and `fgets` is replaced by a function that drops
the CR of a CR LF pair at the end of what it has read. A pair that does not end there is
one that the buffer has cut in two.
-/

namespace LibrePortable.Stdio

/-- `'\r'`. -/
def cr : UInt8 := 13

/-- `'\n'`. -/
def lf : UInt8 := 10

/-- At most `room` bytes off the front of a stream, none of them behind a line feed. -/
def takeLine : Nat → List UInt8 → List UInt8 × List UInt8
  | 0, bs => ([], bs)
  | _ + 1, [] => ([], [])
  | room + 1, b :: bs =>
      if b = lf then ([b], bs) else (b :: (takeLine room bs).1, (takeLine room bs).2)

/-- `fgets`: the bytes it writes into the buffer, or NULL at the end of the stream. -/
def fgets (size : Nat) (stream : List UInt8) : Option (List UInt8) × List UInt8 :=
  if stream = [] then (none, [])
  else (some ((takeLine (size - 1) stream).1 ++ [0]), (takeLine (size - 1) stream).2)

/-- The string that a buffer holds. -/
def text (s : List UInt8) : List UInt8 := s.takeWhile (· ≠ 0)

def strlen (s : List UInt8) : Nat := (text s).length

/-- `posix_fgets`. -/
def posixFgets (size : Nat) (stream : List UInt8) : Option (List UInt8) × List UInt8 :=
  match fgets size stream with
  | (none, stream) => (none, stream)
  | (some ret, stream) =>
      let fin := strlen ret
      if fin ≥ 2 ∧ ret[fin - 2]? = some cr ∧ ret[fin - 1]? = some lf then
        (some ((ret.set (fin - 2) lf).set (fin - 1) 0), stream)
      else (some ret, stream)

/-- Everything `posix_fgets` returns until it returns NULL, one string behind the other;
`sizes k` is the size of the `k`-th buffer. -/
def readToEnd (sizes : Nat → Nat) : Nat → Nat → List UInt8 → Option (List UInt8)
  | 0, _, _ => none
  | fuel + 1, k, stream =>
      match posixFgets (sizes k) stream with
      | (none, _) => some []
      | (some ret, rest) => (readToEnd sizes fuel (k + 1) rest).map (text ret ++ ·)

/-! ## What it should return, and when it does -/

/-- A stream with every CR LF pair replaced by LF. -/
def asText : List UInt8 → List UInt8
  | [] => []
  | b :: bs => if b = cr ∧ bs.head? = some lf then asText bs else b :: asText bs

/-- Some buffer is full right between the CR and the LF of a pair. -/
inductive CutsPair (sizes : Nat → Nat) : Nat → List UInt8 → Prop where
  | here {k : Nat} {stream line rest : List UInt8} :
      takeLine (sizes k - 1) stream = (line ++ [cr], lf :: rest) → CutsPair sizes k stream
  | later {k : Nat} {stream : List UInt8} : stream ≠ [] →
      CutsPair sizes (k + 1) (takeLine (sizes k - 1) stream).2 → CutsPair sizes k stream

/-- Both sequences of buffer sizes make the same text of a stream, the right one. -/
def PresentsText (bytes : List UInt8) (sizes sizes' : Nat → Nat) : Prop :=
  ∀ fuel, bytes.length < fuel → readToEnd sizes fuel 0 bytes = some (asText bytes)
    ∧ readToEnd sizes' fuel 0 bytes = some (asText bytes)

/-! ## One line -/

section Line

variable {room : Nat} {bs line rest : List UInt8}

theorem takeLine_append : ∀ (room : Nat) (bs : List UInt8),
    (takeLine room bs).1 ++ (takeLine room bs).2 = bs
  | 0, _ => rfl
  | _ + 1, [] => rfl
  | room + 1, b :: bs => by
      unfold takeLine
      split
      · rfl
      · exact congrArg (b :: ·) (takeLine_append room bs)

theorem takeLine_ne_nil (hroom : 0 < room) (hbs : bs ≠ []) : (takeLine room bs).1 ≠ [] := by
  obtain ⟨room, rfl⟩ : ∃ n, room = n + 1 := ⟨room - 1, by omega⟩
  cases bs with
  | nil => exact absurd rfl hbs
  | cons b bs =>
      unfold takeLine
      split
      · exact List.cons_ne_nil _ _
      · exact List.cons_ne_nil _ _

/-- What is left is shorter. -/
theorem takeLine_shorter (hroom : 0 < room) (hbs : bs ≠ []) :
    (takeLine room bs).2.length < bs.length := by
  have hlen := congrArg List.length (takeLine_append room bs)
  rw [List.length_append] at hlen
  have := List.length_pos_of_ne_nil (takeLine_ne_nil hroom hbs)
  omega

/-- **A line feed ends a line**, so there is none before the last byte. -/
theorem takeLine_lf : ∀ (room : Nat) (bs : List UInt8), lf ∉ (takeLine room bs).1.dropLast
  | 0, _ => List.not_mem_nil
  | _ + 1, [] => List.not_mem_nil
  | room + 1, b :: bs => by
      unfold takeLine
      split
      · exact List.not_mem_nil
      · rename_i hb
        have ih := takeLine_lf room bs
        intro hmem
        cases hl : (takeLine room bs).1 with
        | nil => rw [hl] at hmem; exact absurd hmem List.not_mem_nil
        | cons c cs =>
            rw [hl] at hmem ih
            rcases List.mem_cons.mp hmem with h | h
            · exact hb h.symm
            · exact ih h

end Line

/-! ## Replacing the pairs -/

section Pairs

variable {line rest : List UInt8}

/-- A cut that does not fall inside a pair does not matter. -/
theorem asText_append (h : ¬ (line.getLast? = some cr ∧ rest.head? = some lf)) :
    asText (line ++ rest) = asText line ++ asText rest := by
  induction line with
  | nil => rfl
  | cons b bs ih =>
      cases bs with
      | nil =>
          have hb : ¬ (b = cr ∧ rest.head? = some lf) := fun hc => h ⟨by rw [hc.1]; rfl, hc.2⟩
          have hnil : ¬ (b = cr ∧ ([] : List UInt8).head? = some lf) := fun hc => nomatch hc.2
          simp only [List.singleton_append, asText, if_neg hb, if_neg hnil]
      | cons c cs =>
          rw [List.getLast?_cons_cons] at h
          rw [List.cons_append, asText, asText, ih h, List.cons_append, List.head?_cons,
            List.head?_cons]
          split
          · rfl
          · rfl

/-- A cut inside a pair: the CR is no part of the text. -/
theorem asText_cut (line rest : List UInt8) :
    asText ((line ++ [cr]) ++ lf :: rest) = asText line ++ asText (lf :: rest) := by
  have hcr : asText (cr :: lf :: rest) = asText (lf :: rest) := if_pos ⟨rfl, rfl⟩
  rw [List.append_assoc, List.singleton_append, asText_append, hcr]
  exact fun h => absurd (Option.some.inj h.2) (by decide)

theorem asText_of_not_mem : ∀ {line : List UInt8}, lf ∉ line → asText line = line
  | [], _ => rfl
  | b :: bs, h => by
      have hhead : bs.head? ≠ some lf :=
        fun hc => h (List.mem_cons_of_mem _ (List.mem_of_head? hc))
      rw [asText, if_neg fun hc => hhead hc.2,
        asText_of_not_mem fun hm => h (List.mem_cons_of_mem _ hm)]

/-- A line that ends in a pair. -/
theorem asText_pair (h : lf ∉ line) : asText (line ++ [cr, lf]) = line ++ [lf] := by
  have hne : ¬ (line.getLast? = some cr ∧ [cr, lf].head? = some lf) :=
    fun hc => absurd hc.2 (by decide)
  rw [asText_append hne, asText_of_not_mem h]
  rfl

/-- A line that does not. -/
theorem asText_line (hlf : lf ∉ line.dropLast) (hpair : ∀ l, line ≠ l ++ [cr, lf]) :
    asText line = line := by
  rcases List.eq_nil_or_concat line with rfl | ⟨l, b, rfl⟩
  · rfl
  · rw [List.concat_eq_append] at hpair hlf ⊢
    rw [List.dropLast_concat] at hlf
    have hne : ¬ (l.getLast? = some cr ∧ [b].head? = some lf) := by
      intro h
      obtain ⟨hl, hb⟩ := h
      obtain ⟨l', rfl⟩ := List.getLast?_eq_some_iff.mp hl
      obtain rfl := Option.some.inj hb
      exact hpair l' (by rw [List.append_assoc]; rfl)
    rw [asText_append hne, asText_of_not_mem hlf, asText, if_neg fun hc => nomatch hc.2]
    rfl

end Pairs

/-! ## One call -/

section Call

variable {size : Nat} {stream line : List UInt8}

/-- The string a call returns, for a stream without NULs. -/
theorem text_nul (h : (0 : UInt8) ∉ line) (l : List UInt8) : text (line ++ 0 :: l) = line := by
  unfold text
  rw [List.takeWhile_append_of_pos, List.takeWhile_cons_of_neg (by decide), List.append_nil]
  intro b hb
  exact decide_eq_true fun h0 => h (h0 ▸ hb)

/-- **One call of `posix_fgets`** returns a line with its pair replaced. -/
theorem posixFgets_spec (hnul : (0 : UInt8) ∉ stream) (hne : stream ≠ []) :
    ∃ ret, posixFgets size stream = (some ret, (takeLine (size - 1) stream).2)
      ∧ text ret = asText (takeLine (size - 1) stream).1 := by
  have happ := takeLine_append (size - 1) stream
  have hlf := takeLine_lf (size - 1) stream
  have hnul' : (0 : UInt8) ∉ (takeLine (size - 1) stream).1 :=
    fun h => hnul (happ ▸ List.mem_append_left _ h)
  unfold posixFgets fgets
  rw [if_neg hne]
  generalize (takeLine (size - 1) stream).1 = line at hlf hnul'
  have hlen : strlen (line ++ [0]) = line.length := congrArg List.length (text_nul hnul' [])
  dsimp only
  rw [hlen]
  by_cases hpair : ∃ l, line = l ++ [cr, lf]
  · obtain ⟨l, rfl⟩ := hpair
    have hl : lf ∉ l := by
      intro h
      have hdrop : (l ++ [cr, lf]).dropLast = l ++ [cr] := List.dropLast_append_of_ne_nil (by simp)
      exact hlf (hdrop ▸ List.mem_append_left _ h)
    have h2 : (l ++ [cr, lf]).length = l.length + 2 := List.length_append
    have hset : (((l ++ [cr, lf]) ++ [0]).set l.length lf).set (l.length + 1) 0
        = (l ++ [lf]) ++ 0 :: [0] := by
      simp [List.append_assoc]
    refine ⟨(l ++ [lf]) ++ 0 :: [0], ?_, ?_⟩
    · rw [if_pos ⟨by omega, by simp [h2, List.append_assoc], by simp [h2, List.append_assoc]⟩, h2]
      exact congrArg (fun s => (some s, _)) hset
    · have hl0 : (0 : UInt8) ∉ l ++ [lf] := by
        intro h
        rcases List.mem_append.mp h with h | h
        · exact hnul' (List.mem_append_left _ h)
        · exact absurd (List.mem_singleton.mp h) (by decide)
      rw [text_nul hl0, asText_pair hl]
  · refine ⟨line ++ [0], if_neg ?_, ?_⟩
    · -- two bytes before the NUL that are a pair would be the end of the line
      intro hboth
      obtain ⟨h2, hcr, hlf'⟩ := hboth
      refine hpair ⟨line.take (line.length - 2), ?_⟩
      rw [List.getElem?_append_left (by omega)] at hcr hlf'
      obtain ⟨h1, hcr⟩ := List.getElem?_eq_some_iff.mp hcr
      obtain ⟨h1', hlf'⟩ := List.getElem?_eq_some_iff.mp hlf'
      refine (List.take_append_drop (line.length - 2) line).symm.trans (congrArg _ ?_)
      rw [List.drop_eq_getElem_cons h1, hcr, show line.length - 2 + 1 = line.length - 1 by omega,
        List.drop_eq_getElem_cons h1', hlf', show line.length - 1 + 1 = line.length by omega,
        List.drop_length]
    · rw [text_nul hnul', asText_line hlf fun l hl => hpair ⟨l, hl⟩]

end Call

/-! ## A whole stream -/

section Whole

variable {sizes sizes' : Nat → Nat}

/-- What is read to the end is the text, and longer than it if a pair was cut. -/
theorem readToEnd_spec (hsizes : ∀ k, 2 ≤ sizes k) : ∀ {fuel k : Nat} {bytes : List UInt8},
    (0 : UInt8) ∉ bytes → bytes.length < fuel → ∃ out, readToEnd sizes fuel k bytes = some out
      ∧ (asText bytes).length ≤ out.length
      ∧ (CutsPair sizes k bytes → (asText bytes).length < out.length)
      ∧ (¬ CutsPair sizes k bytes → out = asText bytes) := by
  intro fuel
  induction fuel with
  | zero => intro k bytes _ h; exact absurd h (Nat.not_lt_zero _)
  | succ fuel ih =>
      intro k bytes hnul hfuel
      have hroom : 0 < sizes k - 1 := by have := hsizes k; omega
      by_cases hbytes : bytes = []
      · subst hbytes
        refine ⟨[], by rw [readToEnd]; rfl, Nat.le_refl _, fun hcut => ?_, fun _ => rfl⟩
        cases hcut with
        | here h =>
            have := congrArg (fun p => p.1 ++ p.2) h
            rw [takeLine_append] at this
            exact absurd this.symm (by simp)
        | later hne _ => exact absurd rfl hne
      obtain ⟨ret, hret, htext⟩ := @posixFgets_spec (sizes k) _ hnul hbytes
      have happ := takeLine_append (sizes k - 1) bytes
      have hshort := takeLine_shorter hroom hbytes
      generalize hl : takeLine (sizes k - 1) bytes = p at hret htext happ hshort
      obtain ⟨line, rest⟩ := p
      dsimp only at hret htext happ hshort
      have hnul' : (0 : UInt8) ∉ rest := fun h => hnul (happ ▸ List.mem_append_right _ h)
      obtain ⟨out, hout, hle, hcut, hwhole⟩ := @ih (k + 1) rest hnul' (by omega)
      have hlater : CutsPair sizes (k + 1) rest → CutsPair sizes k bytes :=
        fun h => .later hbytes (by rw [hl]; exact h)
      have hread : readToEnd sizes (fuel + 1) k bytes = some (asText line ++ out) := by
        rw [readToEnd, hret]
        dsimp only
        rw [hout, htext]
        rfl
      refine ⟨asText line ++ out, hread, ?_⟩
      rw [List.length_append]
      by_cases hhere : line.getLast? = some cr ∧ rest.head? = some lf
      · -- this buffer cuts a pair: its CR has been returned, and the text lacks it
        obtain ⟨hcr, hlf⟩ := hhere
        obtain ⟨l, rfl⟩ := List.getLast?_eq_some_iff.mp hcr
        obtain ⟨r, rfl⟩ : ∃ r, rest = lf :: r := List.head?_eq_some_iff.mp hlf
        have hcr' : asText (l ++ [cr]) = asText l ++ [cr] :=
          asText_append fun h => absurd h.2 (by decide)
        rw [← happ, asText_cut, hcr', List.length_append, List.length_append]
        have hcuts : CutsPair sizes k ((l ++ [cr]) ++ lf :: r) := .here (happ ▸ hl)
        refine ⟨?_, fun _ => ?_, fun h => absurd hcuts h⟩
        · omega
        · rw [List.length_singleton]; omega
      · rw [← happ, asText_append hhere, List.length_append]
        refine ⟨by omega, fun h => ?_, fun h => ?_⟩
        · have hrest : CutsPair sizes (k + 1) rest := by
            rw [happ] at h
            cases h with
            | here h =>
                obtain ⟨rfl, rfl⟩ := Prod.mk.inj (hl.symm.trans h)
                exact absurd ⟨List.getLast?_concat .., rfl⟩ hhere
            | later _ h => rwa [hl] at h
          have := hcut hrest
          omega
        · rw [hwhole fun hc => h (happ ▸ hlater hc)]

/-- **When the buffers do not show**: exactly when none of them cuts a pair. -/
theorem presentsText_iff {bytes : List UInt8} (hnul : (0 : UInt8) ∉ bytes)
    (hsizes : ∀ k, 2 ≤ sizes k) (hsizes' : ∀ k, 2 ≤ sizes' k) :
    PresentsText bytes sizes sizes'
      ↔ ¬ CutsPair sizes 0 bytes ∧ ¬ CutsPair sizes' 0 bytes := by
  have hone : ∀ {sizes : Nat → Nat}, (∀ k, 2 ≤ sizes k) →
      ((∀ fuel, bytes.length < fuel → readToEnd sizes fuel 0 bytes = some (asText bytes))
        ↔ ¬ CutsPair sizes 0 bytes) := by
    intro sizes hsizes
    constructor
    · intro h hcut
      obtain ⟨out, hout, -, hlong, -⟩ := readToEnd_spec hsizes (k := 0) hnul
        (Nat.lt_succ_self bytes.length)
      rw [h _ (Nat.lt_succ_self _)] at hout
      obtain rfl := Option.some.inj hout
      exact absurd (hlong hcut) (Nat.lt_irrefl _)
    · intro h fuel hfuel
      obtain ⟨out, hout, -, -, htext⟩ := readToEnd_spec hsizes (k := 0) hnul hfuel
      rw [hout, htext h]
  rw [← hone hsizes, ← hone hsizes']
  exact forall₂_and

/-- A stream of two lines, read once with room for each of them and once without. -/
theorem presentsText_iff_lines :
    PresentsText [97, 13, 10, 98] (fun _ => 100) (fun _ => 4)
      ↔ ¬ CutsPair (fun _ => 100) 0 [97, 13, 10, 98] ∧ ¬ CutsPair (fun _ => 4) 0 [97, 13, 10, 98] :=
  presentsText_iff (by decide) (fun _ => by decide) (fun _ => by decide)

/-- **A buffer of three bytes** holds the first byte of a line and the CR behind it, and
leaves the CR in the text. -/
theorem presentsText_cut : (0 : UInt8) ∉ [97, 13, 10]
    ∧ readToEnd (fun _ => 3) 4 0 [97, 13, 10] = some [97, 13, 10]
    ∧ readToEnd (fun _ => 100) 4 0 [97, 13, 10] = some [97, 10]
    ∧ ¬ PresentsText [97, 13, 10] (fun _ => 3) (fun _ => 100) := by
  refine ⟨by decide, by decide, by decide, fun h => ?_⟩
  exact absurd (h 4 (by decide)).1 (by decide)

end Whole

end LibrePortable.Stdio
