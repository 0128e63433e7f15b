import Mathlib.Data.List.TakeWhile

/-!
# Reading by lines

A text is read through a buffer of limited size, and no read goes past the end of a line.
What matters of such a read is whether it came to the end of the line; if it did not, the
same line ends where it ended before.
-/

namespace LibrePortable.Lib

variable {α : Type} [DecidableEq α]

/-- What stands in front of the first separator. -/
def line (sep : α) (t : List α) : List α := t.takeWhile (· ≠ sep)

/-- What stands behind the first separator. -/
def afterLine (sep : α) (t : List α) : List α := (t.dropWhile (· ≠ sep)).tail

/-- At most `n` elements off the front of a text, none of them behind a separator. -/
def takeLine (sep : α) : Nat → List α → List α
  | 0, _ => []
  | _ + 1, [] => []
  | n + 1, a :: t => if a = sep then [a] else a :: takeLine sep n t

section

variable {sep : α} {n : Nat} {t : List α}

theorem line_append (hmem : sep ∈ t) : line sep t ++ sep :: afterLine sep t = t := by
  induction t with
  | nil => exact absurd hmem List.not_mem_nil
  | cons a t ih =>
      by_cases ha : a = sep
      · subst ha
        simp [line, afterLine]
      · have htail := ih ((List.mem_cons.mp hmem).resolve_left (Ne.symm ha))
        rw [line, afterLine, List.takeWhile_cons_of_pos (by simpa using ha),
          List.dropWhile_cons_of_pos (by simpa using ha)]
        exact congrArg (a :: ·) htail

theorem line_append_cons {l : List α} (hl : sep ∉ l) (t : List α) :
    line sep (l ++ sep :: t) = l := by
  rw [line, List.takeWhile_append_of_pos fun a ha => by simpa using ne_of_mem_of_not_mem ha hl,
    List.takeWhile_cons_of_neg (by simp), List.append_nil]

theorem afterLine_suffix (sep : α) (t : List α) : afterLine sep t <:+ t :=
  (List.tail_suffix _).trans (List.dropWhile_suffix _)

theorem not_mem_line (sep : α) (t : List α) : sep ∉ line sep t := fun hmem => by
  have := List.mem_takeWhile_imp hmem
  simp at this

/-- **A line that fits** is read with its separator. -/
theorem takeLine_fits (hmem : sep ∈ t) (hlen : (line sep t).length < n) :
    takeLine sep n t = line sep t ++ [sep] := by
  induction t generalizing n with
  | nil => exact absurd hmem List.not_mem_nil
  | cons a t ih =>
      obtain ⟨n, rfl⟩ : ∃ k, n = k + 1 := ⟨n - 1, by omega⟩
      by_cases ha : a = sep
      · subst ha
        simp [takeLine, line]
      · have hline : line sep (a :: t) = a :: line sep t :=
          List.takeWhile_cons_of_pos (by simpa using ha)
        rw [hline, List.length_cons] at hlen
        rw [takeLine, if_neg ha, hline,
          ih ((List.mem_cons.mp hmem).resolve_left (Ne.symm ha)) (by omega)]
        rfl

/-- **A line that does not fit** is read as far as it goes, and so is a text without a separator. -/
theorem takeLine_cut (hlen : sep ∈ t → n ≤ (line sep t).length) : takeLine sep n t = t.take n := by
  induction t generalizing n with
  | nil => cases n <;> rfl
  | cons a t ih =>
      cases n with
      | zero => rfl
      | succ n =>
          have ha : a ≠ sep := fun heq => by
            have := hlen (heq ▸ List.mem_cons_self)
            simp [line, heq] at this
          have hline : line sep (a :: t) = a :: line sep t :=
            List.takeWhile_cons_of_pos (by simpa using ha)
          rw [takeLine, if_neg ha, List.take_succ_cons, ih fun hmem => ?_]
          have := hlen (List.mem_cons_of_mem _ hmem)
          rw [hline, List.length_cons] at this
          omega

/-- The separator has not been read. -/
theorem not_mem_take (hlen : sep ∈ t → n ≤ (line sep t).length) : sep ∉ t.take n := by
  intro hmem
  have hmem' := List.mem_of_mem_take hmem
  have htake : t.take n = (line sep t).take n :=
    calc t.take n = (line sep t ++ sep :: afterLine sep t).take n := by rw [line_append hmem']
      _ = (line sep t).take n := List.take_append_of_le_length (hlen hmem')
  rw [htake] at hmem
  exact not_mem_line sep t (List.mem_of_mem_take hmem)

theorem drop_fits (hmem : sep ∈ t) : t.drop (line sep t ++ [sep]).length = afterLine sep t :=
  calc t.drop (line sep t ++ [sep]).length
      = (line sep t ++ [sep] ++ afterLine sep t).drop (line sep t ++ [sep]).length := by
        rw [← List.append_cons, line_append hmem]
    _ = afterLine sep t := List.drop_left

theorem mem_drop_iff (hlen : sep ∈ t → n ≤ (line sep t).length) : sep ∈ t.drop n ↔ sep ∈ t := by
  refine ⟨List.mem_of_mem_drop, fun hmem => ?_⟩
  have hsplit : sep ∈ t.take n ++ t.drop n := by rwa [List.take_append_drop]
  exact (List.mem_append.mp hsplit).resolve_left (not_mem_take hlen)

/-- **The line ends where it ended before.** -/
theorem afterLine_drop (hmem : sep ∈ t) (hlen : n ≤ (line sep t).length) :
    afterLine sep (t.drop n) = afterLine sep t := by
  have hdrop : t.drop n = (line sep t).drop n ++ sep :: afterLine sep t :=
    calc t.drop n = (line sep t ++ sep :: afterLine sep t).drop n := by rw [line_append hmem]
      _ = (line sep t).drop n ++ sep :: afterLine sep t := List.drop_append_of_le_length hlen
  rw [hdrop, afterLine, List.dropWhile_append_of_pos, List.dropWhile_cons_of_neg (by simp)]
  · rfl
  · intro a ha
    have hne : a ≠ sep := by
      intro heq
      subst heq
      exact not_mem_line a t (List.mem_of_mem_drop ha)
    simpa using hne

/-! ## Files -/

/-- A file: its lines, each with a separator behind it. -/
def terminated (sep : α) (ls : List (List α)) : List α := ls.flatMap (· ++ [sep])

/-- The lines of a file; what stands behind the last separator is one only if it is not empty. -/
def splitLines (sep : α) (t : List α) : List (List α) :=
  let parts := t.splitOn sep
  if parts.getLast? = some [] then parts.dropLast else parts

variable {ls ls' : List (List α)}

theorem splitOn_terminated (h : ∀ l ∈ ls, sep ∉ l) :
    (terminated sep ls).splitOn sep = ls ++ [[]] := by
  induction ls with
  | nil => rfl
  | cons l ls ih =>
      obtain ⟨hl, hls⟩ := List.forall_mem_cons.mp h
      have hcons : terminated sep (l :: ls) = l ++ sep :: terminated sep ls := by
        simp [terminated]
      rw [hcons, List.splitOn_append_cons_self_of_not_mem hl, ih hls]
      rfl

/-- **Lines are read back** as they were written. -/
theorem splitLines_terminated (h : ∀ l ∈ ls, sep ∉ l) :
    splitLines sep (terminated sep ls) = ls := by
  rw [splitLines, splitOn_terminated h]
  simp

theorem terminated_inj (h : ∀ l ∈ ls, sep ∉ l) (h' : ∀ l ∈ ls', sep ∉ l)
    (heq : terminated sep ls = terminated sep ls') : ls = ls' := by
  rw [← splitLines_terminated h, heq, splitLines_terminated h']

end

end LibrePortable.Lib
