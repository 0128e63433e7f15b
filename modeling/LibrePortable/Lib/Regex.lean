import Mathlib.Computability.Language

/-!
# The match that is taken

A regular expression denotes a language, but a program that replaces what it has matched
depends on more: on which of the possible matches was taken, and on what the groups stand
for in it. A backtracking matcher tries its choices in a fixed order, a repetition the
longest first. So its meaning is a list, all matches at the front of a text, and what is
taken is the head of the list.

A repetition is settled if whatever follows it cannot begin with what it repeats. Then
there is no choice. A repetition of any character never is, and only the text behind it
decides how far it goes.
-/

namespace LibrePortable.Lib

/-- Regular expressions with groups; what is repeated is a single character. -/
inductive Regex (α : Type) where
  | empty
  | one (p : α → Bool)
  | many (p : α → Bool)
  | seq (r r' : Regex α)
  | group (r : Regex α)

/-- A match at the front of a text: what was matched, what is left, and the groups. -/
structure Match (α : Type) where
  text : List α
  rest : List α
  groups : List (List α)

variable {α : Type}

/-- One match behind another. -/
def Match.append (m m' : Match α) : Match α :=
  ⟨m.text ++ m'.text, m'.rest, m.groups ++ m'.groups⟩

/-- What was matched becomes the first group. -/
def Match.grouped (m : Match α) : Match α := { m with groups := m.text :: m.groups }

/-- What stands in front of it becomes part of a match. -/
def Match.after (t : List α) (m : Match α) : Match α := { m with text := t ++ m.text }

namespace Regex

/-- A fixed text. -/
def text [DecidableEq α] : List α → Regex α
  | [] => .empty
  | a :: l => .seq (.one (· = a)) (text l)

/-- Repetition, at least once. -/
def plus (p : α → Bool) : Regex α := .seq (.one p) (.many p)

/-- The matches of `many p`, the longest first. -/
def runMany (p : α → Bool) : List α → List (Match α)
  | [] => [⟨[], [], []⟩]
  | a :: s =>
      (if p a then (runMany p s).map fun m => { m with text := a :: m.text } else [])
        ++ [⟨[], a :: s, []⟩]

/-- The match of `one p`, if there is one. -/
def runOne (p : α → Bool) : List α → List (Match α)
  | [] => []
  | a :: s => if p a then [⟨[a], s, []⟩] else []

/-- The matches at the front of a text, in the order in which they are tried. -/
def run : Regex α → List α → List (Match α)
  | .empty, s => [⟨[], s, []⟩]
  | .one p, s => runOne p s
  | .many p, s => runMany p s
  | .seq r r', s => (r.run s).flatMap fun m => (r'.run m.rest).map m.append
  | .group r, s => (r.run s).map Match.grouped

/-- The leftmost match, and what stands in front of it. -/
def search (r : Regex α) : List α → Option (List α × Match α)
  | [] => (r.run []).head?.map fun m => ([], m)
  | a :: s =>
      match (r.run (a :: s)).head? with
      | some m => some ([], m)
      | none => (search r s).map fun x => (a :: x.1, x.2)

/-- Every match is replaced. No result if one of them is empty, or if there are `fuel` of them. -/
def replaceAll (r : Regex α) (f : Match α → List α) : (fuel : Nat) → List α → Option (List α)
  | 0, _ => none
  | fuel + 1, s =>
      match search r s with
      | none => some s
      | some (pre, m) =>
          if m.text.isEmpty then none
          else (replaceAll r f fuel m.rest).map fun out => pre ++ f m ++ out

/-- The texts that can be matched. -/
def lang : Regex α → Language α
  | .empty => 1
  | .one p => {t | ∃ a, p a = true ∧ t = [a]}
  | .many p => {t | ∀ a ∈ t, p a = true}
  | .seq r r' => r.lang * r'.lang
  | .group r => r.lang

/-! ## What is matched -/

theorem runMany_sound (p : α → Bool) : ∀ {s : List α} {m : Match α}, m ∈ runMany p s →
    s = m.text ++ m.rest ∧ ∀ a ∈ m.text, p a = true
  | [], m, hm => by
      obtain rfl := List.mem_singleton.mp hm
      exact ⟨rfl, fun _ ha => absurd ha List.not_mem_nil⟩
  | a :: s, m, hm => by
      rcases List.mem_append.mp hm with hm | hm
      · by_cases ha : p a = true
        · rw [if_pos ha] at hm
          obtain ⟨m', hm', rfl⟩ := List.mem_map.mp hm
          obtain ⟨hs, hall⟩ := runMany_sound p hm'
          exact ⟨congrArg (a :: ·) hs, List.forall_mem_cons.mpr ⟨ha, hall⟩⟩
        · rw [if_neg ha] at hm
          exact absurd hm List.not_mem_nil
      · obtain rfl := List.mem_singleton.mp hm
        exact ⟨rfl, fun _ ha => absurd ha List.not_mem_nil⟩

/-- **A match** is a text of the language at the front. -/
theorem run_sound : ∀ {r : Regex α} {s : List α} {m : Match α}, m ∈ r.run s →
    s = m.text ++ m.rest ∧ m.text ∈ r.lang
  | .empty, s, m, hm => by
      obtain rfl := List.mem_singleton.mp hm
      exact ⟨rfl, rfl⟩
  | .one p, [], m, hm => absurd hm List.not_mem_nil
  | .one p, a :: s, m, hm => by
      by_cases ha : p a = true
      · rw [run, runOne, if_pos ha] at hm
        obtain rfl := List.mem_singleton.mp hm
        exact ⟨rfl, a, ha, rfl⟩
      · rw [run, runOne, if_neg ha] at hm
        exact absurd hm List.not_mem_nil
  | .many p, s, m, hm => runMany_sound p hm
  | .seq r r', s, m, hm => by
      obtain ⟨m₁, hm₁, hm⟩ := List.mem_flatMap.mp hm
      obtain ⟨m₂, hm₂, rfl⟩ := List.mem_map.mp hm
      obtain ⟨hs₁, hl₁⟩ := run_sound hm₁
      obtain ⟨hs₂, hl₂⟩ := run_sound hm₂
      refine ⟨?_, Language.mem_mul.mpr ⟨_, hl₁, _, hl₂, rfl⟩⟩
      rw [hs₁, hs₂]
      exact (List.append_assoc ..).symm
  | .group r, s, m, hm => by
      obtain ⟨m', hm', rfl⟩ := List.mem_map.mp hm
      show s = m'.text ++ m'.rest ∧ m'.text ∈ r.lang
      exact run_sound hm'

theorem runMany_complete (p : α → Bool) (u : List α) : ∀ {t : List α}, (∀ a ∈ t, p a = true) →
    ∃ m ∈ runMany p (t ++ u), m.text = t ∧ m.rest = u
  | [], _ => by
      cases u with
      | nil => exact ⟨_, List.mem_singleton_self _, rfl, rfl⟩
      | cons a u => exact ⟨_, List.mem_append_right _ (List.mem_singleton_self _), rfl, rfl⟩
  | a :: t, hall => by
      obtain ⟨ha, hall⟩ := List.forall_mem_cons.mp hall
      obtain ⟨m, hm, htext, hrest⟩ := runMany_complete p u hall
      refine ⟨{ m with text := a :: m.text }, List.mem_append_left _ ?_, ?_, hrest⟩
      · rw [if_pos ha]
        exact List.mem_map_of_mem hm
      · exact congrArg (a :: ·) htext

/-- **Every text of the language** is matched where it stands. -/
theorem run_complete : ∀ {r : Regex α} {t : List α} (u : List α), t ∈ r.lang →
    ∃ m ∈ r.run (t ++ u), m.text = t ∧ m.rest = u
  | .empty, t, u, ht => by
      obtain rfl : t = [] := ht
      exact ⟨_, List.mem_singleton_self _, rfl, rfl⟩
  | .one p, t, u, ht => by
      obtain ⟨a, ha, rfl⟩ := ht
      refine ⟨⟨[a], u, []⟩, ?_, rfl, rfl⟩
      show (⟨[a], u, []⟩ : Match α) ∈ if p a = true then [⟨[a], u, []⟩] else []
      rw [if_pos ha]
      exact List.mem_singleton_self _
  | .many p, t, u, ht => runMany_complete p u ht
  | .seq r r', t, u, ht => by
      obtain ⟨t₁, ht₁, t₂, ht₂, rfl⟩ := Language.mem_mul.mp ht
      obtain ⟨m₁, hm₁, htext₁, hrest₁⟩ := run_complete (t₂ ++ u) ht₁
      obtain ⟨m₂, hm₂, htext₂, hrest₂⟩ := run_complete u ht₂
      rw [← hrest₁] at hm₂
      refine ⟨m₁.append m₂, ?_, ?_, hrest₂⟩
      · rw [List.append_assoc]
        exact List.mem_flatMap.mpr ⟨m₁, hm₁, List.mem_map_of_mem hm₂⟩
      · show m₁.text ++ m₂.text = _
        rw [htext₁, htext₂]
  | .group r, t, u, ht => by
      obtain ⟨m, hm, htext, hrest⟩ := run_complete (r := r) u ht
      exact ⟨m.grouped, List.mem_map_of_mem hm, htext, hrest⟩

theorem text_mem_lang [DecidableEq α] : ∀ l : List α, l ∈ (text l).lang
  | [] => rfl
  | a :: l => Language.mem_mul.mpr ⟨[a], ⟨a, by simp, rfl⟩, l, text_mem_lang l, rfl⟩

theorem eq_of_mem_text [DecidableEq α] : ∀ {l t : List α}, t ∈ (text l).lang → t = l
  | [], _, ht => ht
  | a :: l, _, ht => by
      obtain ⟨_, ⟨b, hb, rfl⟩, t, htext, rfl⟩ := Language.mem_mul.mp ht
      obtain rfl : b = a := of_decide_eq_true hb
      exact congrArg (b :: ·) (eq_of_mem_text htext)

theorem mem_plus {p : α → Bool} {t : List α} :
    t ∈ (plus p).lang ↔ t ≠ [] ∧ ∀ a ∈ t, p a = true := by
  constructor
  · rintro ⟨_, ⟨a, ha, rfl⟩, t, ht, rfl⟩
    exact ⟨List.cons_ne_nil _ _, List.forall_mem_cons.mpr ⟨ha, ht⟩⟩
  · rintro ⟨hne, hall⟩
    obtain ⟨a, t, rfl⟩ := List.exists_cons_of_ne_nil hne
    obtain ⟨ha, hall⟩ := List.forall_mem_cons.mp hall
    exact ⟨[a], ⟨a, ha, rfl⟩, t, hall, rfl⟩

/-! ## Which match is taken -/

section Taken

variable {r r' : Regex α} {p q : α → Bool} {s t : List α} {m : Match α}

theorem run_seq_of_eq (h : r.run s = [m]) : (seq r r').run s = (r'.run m.rest).map m.append := by
  rw [run, h]
  exact List.append_nil _

theorem run_one_cons {a : α} (ha : p a = true) : (one p).run (a :: s) = [⟨[a], s, []⟩] :=
  if_pos ha

theorem run_text [DecidableEq α] (s : List α) : ∀ t : List α, (text t).run (t ++ s) = [⟨t, s, []⟩]
  | [] => rfl
  | a :: t => by
      have hone : (one (· = a)).run (a :: (t ++ s)) = [⟨[a], t ++ s, []⟩] :=
        run_one_cons (decide_eq_true rfl)
      show (seq (one (· = a)) (text t)).run (a :: (t ++ s)) = _
      rw [run_seq_of_eq hone, run_text s t]
      rfl

/-- Nothing that begins with a `p` is matched. -/
def Rejects (r : Regex α) (p : α → Bool) : Prop := ∀ a s, p a = true → r.run (a :: s) = []

/-- **There is no choice**: after any other match than the first, a `p` is left over. -/
def Settled (r : Regex α) (p : α → Bool) (s : List α) (m : Match α) : Prop :=
  ∃ l, r.run s = m :: l ∧ ∀ m' ∈ l, ∃ a v, p a = true ∧ m'.rest = a :: v

theorem Rejects.one (h : ∀ a, p a = true → q a = false) : Rejects (one q) p :=
  fun a _ ha => if_neg (by rw [h a ha]; exact Bool.false_ne_true)

theorem Rejects.seq (h : Rejects r p) : Rejects (seq r r') p := fun a s ha => by
  rw [run, h a s ha]
  rfl

theorem runMany_of_pos {a : α} (ha : p a = true) :
    runMany p (a :: s) = (runMany p s).map (Match.after [a]) ++ [⟨[], a :: s, []⟩] := by
  rw [runMany, if_pos ha]
  rfl

theorem Settled.many (ht : ∀ a ∈ t, p a = true) (hs : ∀ a ∈ s.head?, p a = false) :
    Settled (many p) p (t ++ s) ⟨t, s, []⟩ := by
  induction t with
  | nil =>
      cases s with
      | nil => exact ⟨[], rfl, fun _ hm => absurd hm List.not_mem_nil⟩
      | cons a s =>
          refine ⟨[], ?_, fun _ hm => absurd hm List.not_mem_nil⟩
          show (if p a = true then _ else []) ++ _ = _
          rw [if_neg (by rw [hs a rfl]; exact Bool.false_ne_true)]
          rfl
  | cons a t ih =>
      obtain ⟨ha, ht⟩ := List.forall_mem_cons.mp ht
      obtain ⟨l, hrun, hall⟩ := ih ht
      have hrun : runMany p (t ++ s) = ⟨t, s, []⟩ :: l := hrun
      refine ⟨l.map (Match.after [a]) ++ [⟨[], a :: (t ++ s), []⟩], ?_, ?_⟩
      · rw [List.cons_append, run, runMany_of_pos ha, hrun]
        rfl
      · intro m hm
        rcases List.mem_append.mp hm with hm | hm
        · obtain ⟨m', hm', rfl⟩ := List.mem_map.mp hm
          exact hall m' hm'
        · obtain rfl := List.mem_singleton.mp hm
          exact ⟨a, t ++ s, ha, rfl⟩

theorem Settled.plus (hne : t ≠ []) (ht : ∀ a ∈ t, p a = true) (hs : ∀ a ∈ s.head?, p a = false) :
    Settled (plus p) p (t ++ s) ⟨t, s, []⟩ := by
  obtain ⟨a, t, rfl⟩ := List.exists_cons_of_ne_nil hne
  obtain ⟨ha, ht⟩ := List.forall_mem_cons.mp ht
  obtain ⟨l, hrun, hall⟩ := Settled.many ht hs
  refine ⟨l.map (Match.append ⟨[a], t ++ s, []⟩), ?_, fun m hm => ?_⟩
  · show (seq (one p) (.many p)).run (a :: (t ++ s)) = _
    rw [run_seq_of_eq (run_one_cons ha), hrun]
    rfl
  · obtain ⟨m', hm', rfl⟩ := List.mem_map.mp hm
    exact hall m' hm'

theorem Settled.group (h : Settled r p s m) : Settled (group r) p s m.grouped := by
  obtain ⟨l, hrun, hall⟩ := h
  refine ⟨l.map Match.grouped, ?_, fun m hm => ?_⟩
  · rw [run, hrun]
    rfl
  · obtain ⟨m', hm', rfl⟩ := List.mem_map.mp hm
    exact hall m' hm'

/-- What follows a settled repetition follows its longest match. -/
theorem Settled.run_seq (h : Settled r p s m) (hr : Rejects r' p) :
    (seq r r').run s = (r'.run m.rest).map m.append := by
  obtain ⟨l, hrun, hall⟩ := h
  have hrest : l.flatMap (fun m => (r'.run m.rest).map m.append) = [] := by
    refine List.flatMap_eq_nil_iff.mpr fun m' hm' => ?_
    obtain ⟨a, v, ha, hv⟩ := hall m' hm'
    rw [hv, hr a v ha]
    rfl
  rw [run, hrun, List.flatMap_cons, hrest, List.append_nil]

/-- The last match that is tried is the empty one. -/
theorem runMany_last (p : α → Bool) : ∀ s : List α,
    ∃ l, runMany p s = l ++ [⟨[], s, []⟩] ∧ ∀ m ∈ l, m.text ≠ []
  | [] => ⟨[], rfl, fun _ hm => absurd hm List.not_mem_nil⟩
  | a :: s => by
      refine ⟨_, rfl, fun m hm => ?_⟩
      split at hm
      · obtain ⟨m', -, rfl⟩ := List.mem_map.mp hm
        exact List.cons_ne_nil _ _
      · exact absurd hm List.not_mem_nil

/-- **A repetition goes as far as it can**: if nothing is matched further to the right, the first
match has it end in front of `s`. -/
theorem run_many_seq_head (ht : ∀ a ∈ t, p a = true)
    (hlast : ∀ u v, s = u ++ v → u ≠ [] → r.run v = []) (hm : (r.run s).head? = some m) :
    ((seq (many p) r).run (t ++ s)).head? = some (m.after t) := by
  induction t with
  | nil =>
      obtain ⟨l, hrun, hall⟩ := runMany_last p s
      have hlonger : l.flatMap (fun m => (r.run m.rest).map m.append) = [] := by
        refine List.flatMap_eq_nil_iff.mpr fun m' hm' => ?_
        have hmem : m' ∈ runMany p s := hrun ▸ List.mem_append_left _ hm'
        rw [hlast _ _ (runMany_sound p hmem).1 (hall m' hm')]
        rfl
      show ((runMany p s).flatMap _).head? = _
      rw [hrun, List.flatMap_append, hlonger, List.nil_append, List.flatMap_cons,
        List.flatMap_nil, List.append_nil, List.head?_map, hm]
      rfl
  | cons a t ih =>
      obtain ⟨ha, ht⟩ := List.forall_mem_cons.mp ht
      have hmap : ∀ l : List (Match α),
          (l.map (Match.after [a])).flatMap (fun m => (r.run m.rest).map m.append) =
            (l.flatMap fun m => (r.run m.rest).map m.append).map (Match.after [a]) := fun l => by
        rw [List.flatMap_map, List.map_flatMap]
        refine congrArg (l.flatMap ·) (funext fun m => ?_)
        rw [List.map_map]
        rfl
      show ((runMany p (a :: (t ++ s))).flatMap _).head? = _
      rw [runMany_of_pos ha, List.flatMap_append, hmap, List.head?_append, List.head?_map]
      have hhead : ((runMany p (t ++ s)).flatMap fun m => (r.run m.rest).map m.append).head? =
          some (m.after t) := ih ht
      rw [hhead]
      rfl

/-! ## Searching and replacing -/

/-- A match at the very front is the leftmost. -/
theorem search_of_head (hm : (r.run s).head? = some m) : search r s = some ([], m) := by
  cases s with
  | nil => rw [search, hm]; rfl
  | cons a s => rw [search, hm]

/-- **Nothing is found** where no text of the language stands anywhere. -/
theorem search_eq_none (h : ∀ u t v, s = u ++ t ++ v → t ∉ r.lang) : search r s = none := by
  have hrun : ∀ u v, s = u ++ v → r.run v = [] := fun u v hs => by
    refine List.eq_nil_iff_forall_not_mem.mpr fun m hm => ?_
    obtain ⟨hv, hlang⟩ := run_sound hm
    exact h u m.text m.rest (by rw [hs, List.append_assoc, ← hv]) hlang
  clear h
  induction s with
  | nil =>
      rw [search, hrun [] [] rfl]
      rfl
  | cons a s ih =>
      rw [search, hrun [] (a :: s) rfl]
      dsimp only [List.head?_nil]
      rw [ih fun u v hs => hrun (a :: u) v (congrArg (a :: ·) hs)]
      rfl

/-- A text of the language in front is enough for something to be found. -/
theorem search_isSome (h : t ∈ r.lang) (s : List α) : (search r (t ++ s)).isSome = true := by
  obtain ⟨m, hm, -⟩ := run_complete s h
  obtain ⟨m', hm'⟩ : ∃ m', (r.run (t ++ s)).head? = some m' := by
    cases hrun : r.run (t ++ s) with
    | nil =>
        rw [hrun] at hm
        exact absurd hm List.not_mem_nil
    | cons m' l => exact ⟨m', rfl⟩
  rw [search_of_head hm']
  rfl

theorem replaceAll_of_none {f : Match α → List α} {fuel : Nat} (h : search r s = none) :
    replaceAll r f (fuel + 1) s = some s := by
  rw [replaceAll, h]

/-- What is matched at the front is replaced, -/
theorem replaceAll_of_head {f : Match α → List α} {fuel : Nat} (hm : (r.run s).head? = some m)
    (htext : m.text ≠ []) :
    replaceAll r f (fuel + 1) s = (replaceAll r f fuel m.rest).map (f m ++ ·) := by
  rw [replaceAll, search_of_head hm]
  exact if_neg (by simpa using htext)

/-- and where nothing is, one character is kept. -/
theorem replaceAll_cons {f : Match α → List α} {fuel : Nat} {a : α} (h : r.run (a :: s) = []) :
    replaceAll r f fuel (a :: s) = (replaceAll r f fuel s).map (a :: ·) := by
  cases fuel with
  | zero => rfl
  | succ fuel =>
      rw [replaceAll, replaceAll, search, h]
      dsimp only [List.head?_nil]
      cases search r s with
      | none => rfl
      | some x =>
          obtain ⟨pre, m⟩ := x
          dsimp only [Option.map_some]
          split
          · rfl
          · rw [Option.map_map]
            rfl

/-- A fixed text is only found where it stands. -/
theorem run_text_eq_nil [DecidableEq α] (h : ¬ t <+: s) : (text t).run s = [] := by
  refine List.eq_nil_iff_forall_not_mem.mpr fun m hm => h ?_
  obtain ⟨hs, hlang⟩ := run_sound hm
  rw [hs, eq_of_mem_text hlang]
  exact List.prefix_append t m.rest

end Taken

end Regex

end LibrePortable.Lib
