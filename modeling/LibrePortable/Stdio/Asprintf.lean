import Mathlib.Logic.Function.Basic
import LibrePortable.Lib.Hoare
import LibrePortable.Stdio.Getdelim

/-!
# `vasprintf` and `asprintf`

A text is formatted into a buffer of a fixed size, and formatted again into a larger one if
it does not fit. Every allocation may fail, and so may either call of `vsnprintf`; nothing
that was allocated may be left behind then. The format and its arguments are the same for
both passes, so all that matters of them is the text they expand to.
-/

namespace LibrePortable.Stdio

open Lib Prog

/-! ## The program -/

/-- What `vasprintf` asks of the library, and the two variables that it sets. -/
inductive PrintCall where
  | malloc (size : Nat)
  | realloc (p size : Nat)
  | free (p : Nat)
  | vsnprintf (p size : Nat)
  /-- `*str = p`. -/
  | setStr (p : Option Nat)
  | setErrno (e : Int)

def PrintAnswer : PrintCall → Type
  | .malloc _ | .realloc .. => Option Nat
  | .vsnprintf .. => Int
  | .free _ | .setStr _ | .setErrno _ => Unit

abbrev PrintProg : Type → Type := Prog PrintCall PrintAnswer

namespace Print

def malloc (size : Nat) : PrintProg (Option Nat) := .call (.malloc size) .ret
def realloc (p size : Nat) : PrintProg (Option Nat) := .call (.realloc p size) .ret
def free (p : Nat) : PrintProg Unit := .call (.free p) .ret
def vsnprintf (p size : Nat) : PrintProg Int := .call (.vsnprintf p size) .ret
def setStr (p : Option Nat) : PrintProg Unit := .call (.setStr p) .ret
def setErrno (e : Int) : PrintProg Unit := .call (.setErrno e) .ret

end Print

open Print

/-- `INIT_SZ`. -/
def initSz : Nat := 128

/-- `INT_MAX`. -/
def intMax : Int := 2147483647

/-- `ENOMEM`. -/
def enomem : Int := 12

/-- `fail:`. -/
def fail : PrintProg Int := do
  setStr none
  setErrno enomem
  return -1

/-- The second pass, behind a first one that returned `ret`. -/
def secondPass (string : Nat) (ret : Int) : PrintProg Int := do
  let len := ret.toNat + 1
  match ← realloc string len with
  | none =>
    free string
    fail
  | some newstr =>
    let ret ← vsnprintf newstr len
    if ret < 0 ∨ ret.toNat ≥ len then
      free newstr
      fail
    else
      setStr (some newstr)
      return ret

/-- `vasprintf`, with a first buffer of this size. -/
def vasprintfFrom (size : Nat) : PrintProg Int := do
  match ← malloc size with
  | none => fail
  | some string =>
    let ret ← vsnprintf string size
    if ret ≥ 0 ∧ ret < size then
      setStr (some string)
      return ret
    else if ret = intMax ∨ ret < 0 then
      free string
      fail
    else secondPass string ret

/-- `vasprintf`. -/
def vasprintf : PrintProg Int := vasprintfFrom initSz

/-- `asprintf`. -/
def asprintf : PrintProg Int := do
  setStr none
  vasprintf

/-! ## The library -/

/-- The buffers, the two variables, and a record of what happened. -/
structure Memory where
  heap : Nat → Option Block
  str : Option Nat
  errno : Int
  /-- A call was given a pointer that is no buffer, or more of one than there is. -/
  misused : Bool
  /-- A call has failed. -/
  refused : Bool

/-- What `vsnprintf` writes of a text. -/
def formatted (s : List UInt8) (size : Nat) : List UInt8 :=
  if size = 0 then [] else s.take (size - 1) ++ [0]

/-- A buffer that these bytes were written into, from its start on. -/
def Block.over (b : Block) (t : List UInt8) : Block :=
  { b with cell := fun i => if i < t.length then t[i]? else b.cell i }

namespace Memory

/-- A buffer is put at `p`, or what is there is taken away; any errno may be left. -/
def Puts (m : Memory) (p : Nat) (b : Option Block) (m' : Memory) : Prop :=
  ∃ e, m' = { m with heap := Function.update m.heap p b, errno := e }

/-- The call fails. -/
def Refuses (m m' : Memory) : Prop := ∃ e, m' = { m with errno := e, refused := true }

/-- `malloc`. -/
def Mallocs (m : Memory) (size : Nat) : Option Nat → Memory → Prop
  | none, m' => m.Refuses m'
  | some a, m' => m.heap a = none ∧ ∃ cell, m.Puts a (some ⟨size, cell⟩) m'

/-- `realloc` of this buffer, which may stay where it is or move. -/
def Reallocs (m : Memory) (p : Nat) (b : Block) (size : Nat) : Option Nat → Memory → Prop
  | none, m' => m.Refuses m'
  | some a, m' => (a = p ∨ m.heap a = none) ∧ ∃ cell, (∀ i < min b.size size, cell i = b.cell i) ∧
      { m with heap := Function.update m.heap p none }.Puts a (some ⟨size, cell⟩) m'

/-- `vsnprintf` of the text `s` into this buffer: it returns the full length, or else any
negative value, and then the bytes it may write can be anything. -/
def Formats (s : List UInt8) (m : Memory) (p : Nat) (b : Block) (size : Nat) (ret : Int)
    (m' : Memory) : Prop :=
  ret = s.length ∧ (s.length : Int) ≤ intMax ∧ m.Puts p (some (b.over (formatted s size))) m' ∨
  ret < 0 ∧ ∃ cell, (∀ i, size ≤ i → cell i = b.cell i) ∧
    { m with refused := true }.Puts p (some { b with cell := cell }) m'

/-- How the library answers. Once it is misused, anything may happen. -/
def Answers (s : List UInt8) (m : Memory) : (e : PrintCall) → PrintAnswer e → Memory → Prop
  | .malloc size, r, m' => m.Mallocs size r m'
  | .realloc p size, r, m' =>
      match m.heap p with
      | some b => m.Reallocs p b size r m'
      | none => m'.misused = true
  | .free p, _, m' =>
      match m.heap p with
      | some _ => m.Puts p none m'
      | none => m'.misused = true
  | .vsnprintf p size, rc, m' =>
      match m.heap p with
      | some b => if size ≤ b.size then Formats s m p b size rc m' else m'.misused = true
      | none => m'.misused = true
  | .setStr p, _, m' => m' = { m with str := p }
  | .setErrno e, _, m' => m' = { m with errno := e }

/-- The library, for a format that expands to the text `s`. -/
def library (s : List UInt8) : Surroundings PrintCall PrintAnswer Memory where
  Answer := Answers s
  Drift _ _ := False

end Memory

open Memory

/-! ## Buffers -/

/-- The buffer holds this text and its NUL, with room for both. -/
structure Block.Holds (b : Block) (s : List UInt8) : Prop where
  size : s.length < b.size
  text : ∀ i < s.length, b.cell i = s[i]?
  nul : b.cell s.length = some 0

section Buffers

variable {s : List UInt8} {size : Nat} {b : Block}

theorem formatted_large (hsize : s.length < size) : formatted s size = s ++ [0] := by
  rw [formatted, if_neg (by omega), List.take_of_length_le (by omega)]

/-- **A large enough buffer** gets the whole text. -/
theorem over_holds (hsize : s.length < size) (hb : size ≤ b.size) :
    (b.over (formatted s size)).Holds s := by
  rw [formatted_large hsize]
  constructor
  · exact Nat.lt_of_lt_of_le hsize hb
  · intro i hi
    have hlt : i < (s ++ [0]).length := by
      rw [List.length_append]
      omega
    show (if i < (s ++ [0]).length then (s ++ [0])[i]? else b.cell i) = s[i]?
    rw [if_pos hlt, List.getElem?_append_left hi]
  · show (if s.length < (s ++ [0]).length then (s ++ [0])[s.length]? else b.cell s.length) = some 0
    rw [if_pos (by simp), List.getElem?_concat_length]

/-- Two buffers that hold a text agree on it. -/
theorem Block.Holds.agree {b' : Block} (hb : b.Holds s) (hb' : b'.Holds s) :
    ∀ i ≤ s.length, b.cell i = b'.cell i := by
  intro i hi
  rcases Nat.lt_or_eq_of_le hi with hlt | rfl
  · rw [hb.text i hlt, hb'.text i hlt]
  · rw [hb.nul, hb'.nul]

end Buffers

/-! ## What the functions leave behind -/

/-- Of the text, the buffer holds what one call into a large enough buffer gives. -/
def Block.AsOneCall (b : Block) (s : List UInt8) : Prop :=
  ∀ (big : Block) (n : Nat), s.length < n → n ≤ big.size →
    ∀ i ≤ s.length, b.cell i = (big.over (formatted s n)).cell i

/-- The text is in a new buffer, and nothing else has changed in memory. -/
def Prints (s : List UInt8) (m₀ : Memory) (rc : Int) (m : Memory) : Prop :=
  rc = s.length ∧ ∃ a b, m.str = some a ∧ m₀.heap a = none ∧
    m.heap = Function.update m₀.heap a (some b) ∧ b.Holds s ∧ b.AsOneCall s

/-- Nothing is left behind; and a call has failed, or the text is as long as no `int` may tell. -/
def GivesUp (s : List UInt8) (m₀ : Memory) (rc : Int) (m : Memory) : Prop :=
  rc = -1 ∧ m.str = none ∧ m.errno = enomem ∧ m.heap = m₀.heap ∧
    (m.refused = true ∨ (s.length : Int) = intMax)

/-- One of the two, and every call was given what it may be given. -/
def Outcome (s : List UInt8) (m₀ : Memory) (rc : Int) (m : Memory) : Prop :=
  (Prints s m₀ rc m ∨ GivesUp s m₀ rc m) ∧ m.misused = m₀.misused

/-- The buffers are as they were, and there is a reason to give up. -/
structure Restored (s : List UInt8) (m₀ m : Memory) : Prop where
  heap : m.heap = m₀.heap
  misused : m.misused = m₀.misused
  reason : m.refused = true ∨ (s.length : Int) = intMax

/-- There is one buffer more. -/
structure Owns (m₀ : Memory) (a : Nat) (b : Block) (m : Memory) : Prop where
  fresh : m₀.heap a = none
  heap : m.heap = Function.update m₀.heap a (some b)
  misused : m.misused = m₀.misused

section Calls

variable {s : List UInt8} {m₀ m m' : Memory} {a size : Nat} {b : Block} {rc : Int}
  {P : Memory → Prop}

theorem quiet (P : Memory → Prop) : (library s).Stable P := fun _ _ _ hdrift => hdrift.elim

theorem Owns.at (ho : Owns m₀ a b m) : m.heap a = some b := by
  rw [ho.heap, Function.update_self]

/-- Without the buffer, memory is as it was. -/
theorem Owns.freed (ho : Owns m₀ a b m) : Function.update m.heap a none = m₀.heap := by
  rw [ho.heap, Function.update_idem, ← ho.fresh, Function.update_eq_self]

theorem Restored.refuses (hheap : m.heap = m₀.heap) (hmisused : m.misused = m₀.misused)
    (hr : m.Refuses m') : Restored s m₀ m' := by
  obtain ⟨e, rfl⟩ := hr
  exact ⟨hheap, hmisused, Or.inl rfl⟩

/-- `malloc`: a buffer of this size, or a reason to give up. -/
theorem mallocs_spec {r : Option Nat} (hr : m₀.Mallocs size r m') :
    match r with
    | none => Restored s m₀ m'
    | some a => ∃ b, Owns m₀ a b m' ∧ b.size = size := by
  cases r with
  | none => exact .refuses rfl rfl hr
  | some a =>
      obtain ⟨hfresh, cell, e, rfl⟩ := hr
      exact ⟨_, ⟨hfresh, rfl, rfl⟩, rfl⟩

/-- `realloc` of the buffer: another one of this size in its place, or it stays. -/
theorem reallocs_spec (ho : Owns m₀ a b m) {r : Option Nat} (hr : m.Reallocs a b size r m') :
    match r with
    | none => Owns m₀ a b m' ∧ m'.refused = true
    | some a' => ∃ b', Owns m₀ a' b' m' ∧ b'.size = size := by
  cases r with
  | none =>
      obtain ⟨e, rfl⟩ := hr
      exact ⟨⟨ho.fresh, ho.heap, ho.misused⟩, rfl⟩
  | some a' =>
      obtain ⟨hplace, cell, -, e, rfl⟩ := hr
      refine ⟨⟨size, cell⟩, ⟨?_, ?_, ho.misused⟩, rfl⟩
      · rcases hplace with rfl | hfree
        · exact ho.fresh
        · by_cases heq : a' = a
          · rw [heq]
            exact ho.fresh
          · rwa [ho.heap, Function.update_of_ne heq] at hfree
      · show Function.update (Function.update m.heap a none) a' _ = _
        rw [ho.freed]

/-- `free` of the buffer. -/
theorem frees_spec (ho : Owns m₀ a b m) (hreason : m.refused = true ∨ (s.length : Int) = intMax)
    (hf : m.Puts a none m') : Restored s m₀ m' := by
  obtain ⟨e, rfl⟩ := hf
  exact ⟨ho.freed, ho.misused, hreason⟩

/-- `vsnprintf` into the buffer: what it returns says whether the text is there. -/
theorem formats_spec (ho : Owns m₀ a b m) (hsize : b.size = size)
    (hf : Formats s m a b size rc m') :
    (∃ b', Owns m₀ a b' m' ∧ b'.size = size ∧ (0 ≤ rc → rc < size → b'.Holds s)) ∧
      (0 ≤ rc → rc = s.length ∧ rc ≤ intMax) ∧ (rc < 0 → m'.refused = true) := by
  rcases hf with ⟨rfl, hmax, e, rfl⟩ | ⟨hneg, cell, -, e, rfl⟩
  · refine ⟨⟨b.over (formatted s size), ⟨ho.fresh, ?_, ho.misused⟩, hsize, fun _ hlt => ?_⟩,
      fun _ => ⟨rfl, hmax⟩, fun hneg => absurd hneg (by omega)⟩
    · show Function.update m.heap a _ = _
      rw [ho.heap, Function.update_idem]
    · exact over_holds (by omega) (by omega)
  · refine ⟨⟨{ b with cell := cell }, ⟨ho.fresh, ?_, ho.misused⟩, hsize, fun hge => ?_⟩,
      fun hge => absurd hneg (by omega), fun _ => rfl⟩
    · show Function.update m.heap a _ = _
      rw [ho.heap, Function.update_idem]
    · exact absurd hneg (by omega)

/-! ## Programs -/

theorem fail_meets : Meets (library s) (Restored s m₀) fail (Outcome s m₀) := by
  refine .call_bind (M := fun _ m => Restored s m₀ m ∧ m.str = none) (quiet _) ?_ fun _ => ?_
  · intro m r m' hm ha
    subst ha
    exact ⟨⟨hm.heap, hm.misused, hm.reason⟩, rfl⟩
  refine .call_bind (M := fun _ m => Restored s m₀ m ∧ m.str = none ∧ m.errno = enomem) (quiet _)
    ?_ fun _ => ?_
  · intro m r m' hm ha
    subst ha
    exact ⟨⟨hm.1.heap, hm.1.misused, hm.1.reason⟩, hm.2, rfl⟩
  refine .ret (quiet _) fun m hm => ?_
  obtain ⟨hr, hstr, herrno⟩ := hm
  exact ⟨Or.inr ⟨rfl, hstr, herrno, hr.heap, hr.reason⟩, hr.misused⟩

/-- The buffer is given back, and the call fails. -/
theorem free_fail_meets : Meets (library s)
    (fun m => (∃ b, Owns m₀ a b m) ∧ (m.refused = true ∨ (s.length : Int) = intMax))
    (free a >>= fun _ => fail) (Outcome s m₀) := by
  refine .call_bind (M := fun _ => Restored s m₀) (quiet _) ?_ fun _ => fail_meets
  intro m r m' hm ha
  obtain ⟨⟨b, ho⟩, hreason⟩ := hm
  have hf : m.Puts a none m' := by
    rw [show (library s).Answer = Answers s from rfl, Answers, ho.at] at ha
    exact ha
  exact frees_spec ho hreason hf

/-- The buffer with the text is handed to the caller. -/
theorem hand_meets : Meets (library s)
    (fun m => (∃ b, Owns m₀ a b m ∧ b.Holds s) ∧ rc = s.length)
    (setStr (some a) >>= fun _ => .ret rc) (Outcome s m₀) := by
  refine .call_bind (M := fun _ => Outcome s m₀ rc) (quiet _) ?_ fun _ => .ret (quiet _) fun _ => id
  intro m r m' hm ha
  subst ha
  obtain ⟨⟨b, ho, hb⟩, hrc⟩ := hm
  exact ⟨Or.inl ⟨hrc, a, b, rfl, ho.fresh, ho.heap, hb, fun big n hn hbig =>
    hb.agree (over_holds hn hbig)⟩, ho.misused⟩

/-- What is known once `vsnprintf` has returned `rc`. -/
def AfterPass (s : List UInt8) (m₀ : Memory) (a size : Nat) (rc : Int) (m : Memory) : Prop :=
  (∃ b, Owns m₀ a b m ∧ b.size = size ∧ (0 ≤ rc → rc < size → b.Holds s)) ∧
    (0 ≤ rc → rc = s.length ∧ rc ≤ intMax) ∧ (rc < 0 → m.refused = true)

/-- **A pass**, into a buffer of this size. -/
theorem pass_meets {f : Int → PrintProg Int}
    (rest : ∀ rc, Meets (library s) (AfterPass s m₀ a size rc) (f rc) (Outcome s m₀)) :
    Meets (library s) (fun m => ∃ b, Owns m₀ a b m ∧ b.size = size)
      (vsnprintf a size >>= f) (Outcome s m₀) := by
  refine .call_bind (M := fun rc => AfterPass s m₀ a size rc) (quiet _) ?_ rest
  intro m rc m' hm ha
  obtain ⟨b, ho, hsize⟩ := hm
  have hf : Formats s m a b size rc m' := by
    rw [show (library s).Answer = Answers s from rfl, Answers, ho.at] at ha
    dsimp only at ha
    rwa [if_pos (by omega)] at ha
  exact formats_spec ho hsize hf

theorem secondPass_meets (hrc : rc = s.length) : Meets (library s)
    (fun m => ∃ b, Owns m₀ a b m) (secondPass a rc) (Outcome s m₀) := by
  refine .call_bind (M := fun r m => match r with
    | none => ∃ b, Owns m₀ a b m ∧ m.refused = true
    | some a' => ∃ b, Owns m₀ a' b m ∧ b.size = rc.toNat + 1) (quiet _) ?_ fun r => ?_
  · intro m r m' hm ha
    obtain ⟨b, ho⟩ := hm
    have hr : m.Reallocs a b (rc.toNat + 1) r m' := by
      rw [show (library s).Answer = Answers s from rfl, Answers, ho.at] at ha
      exact ha
    have hspec := reallocs_spec ho hr
    cases r with
    | none => exact ⟨b, hspec⟩
    | some a' => exact hspec
  cases r with
  | none =>
      refine free_fail_meets.pre fun m hm => ?_
      obtain ⟨b, ho, hrefused⟩ := hm
      exact ⟨⟨b, ho⟩, Or.inl hrefused⟩
  | some a' =>
      refine pass_meets fun ret => .ite (fun hbad => ?_) fun hgood => ?_
      · refine free_fail_meets.pre fun m hm => ?_
        obtain ⟨⟨b, ho, -⟩, hlen, hneg⟩ := hm
        refine ⟨⟨b, ho⟩, Or.inl (hneg ?_)⟩
        -- the same text is as long as before, and fits
        rcases hbad with hneg | hlong
        · exact hneg
        · by_contra hge
          have := (hlen (by omega)).1
          omega
      · refine hand_meets.pre fun m hm => ?_
        obtain ⟨⟨b, ho, -, hholds⟩, hlen, -⟩ := hm
        have hge : 0 ≤ ret := by omega
        have hlt : ret.toNat < rc.toNat + 1 := by omega
        exact ⟨⟨b, ho, hholds hge (by omega)⟩, (hlen hge).1⟩

theorem vasprintfFrom_meets (s : List UInt8) (m₀ : Memory) (size : Nat) :
    Meets (library s) (· = m₀) (vasprintfFrom size) (Outcome s m₀) := by
  refine .call_bind (M := fun r m => match r with
    | none => Restored s m₀ m
    | some a => ∃ b, Owns m₀ a b m ∧ b.size = size) (quiet _) ?_ fun r => ?_
  · intro m r m' hm ha
    subst hm
    have hspec := mallocs_spec (s := s) (show Memory.Mallocs m size r m' from ha)
    cases r with
    | none => exact hspec
    | some a => exact hspec
  cases r with
  | none => exact fail_meets
  | some a =>
      refine pass_meets fun rc => .ite (fun hfits => ?_) fun _ => .ite (fun hbad => ?_)
        fun hlong => ?_
      · refine hand_meets.pre fun m hm => ?_
        obtain ⟨⟨b, ho, -, hholds⟩, hlen, -⟩ := hm
        exact ⟨⟨b, ho, hholds hfits.1 hfits.2⟩, (hlen hfits.1).1⟩
      · refine free_fail_meets.pre fun m hm => ?_
        obtain ⟨⟨b, ho, -⟩, hlen, hneg⟩ := hm
        refine ⟨⟨b, ho⟩, ?_⟩
        rcases hbad with hmax | hneg'
        · refine Or.inr ?_
          rw [← (hlen (by rw [hmax]; decide)).1, hmax]
        · exact Or.inl (hneg hneg')
      · have hge : 0 ≤ rc := by omega
        intro m tr x m' hm hexec
        obtain ⟨⟨b, ho, -⟩, hlen, -⟩ := hm
        exact secondPass_meets (hlen hge).1 m tr x m' ⟨b, ho⟩ hexec

theorem Owns.formats (ho : Owns m₀ a b m) (hmax : (s.length : Int) ≤ intMax) :
    ∃ m' b', (library s).Answer m (.vsnprintf a b.size) (s.length : Int) m' ∧ Owns m₀ a b' m' := by
  refine ⟨{ m with heap := Function.update m.heap a (some (b.over (formatted s b.size))) },
    b.over (formatted s b.size), ?_, ho.fresh, ?_, ho.misused⟩
  · unfold library Answers
    dsimp only
    rw [ho.at]
    dsimp only
    rw [if_pos (Nat.le_refl _)]
    exact Or.inl ⟨rfl, hmax, m.errno, rfl⟩
  · show Function.update m.heap a _ = _
    rw [ho.heap, Function.update_idem]

/-- Where nothing fails, the text is counted. -/
theorem vasprintf_can_print (hmax : (s.length : Int) < intMax) (hfree : m₀.heap a = none) :
    ∃ tr m, Exec (library s) vasprintf m₀ tr (s.length : Int) m := by
  have hmalloc : (library s).Answer m₀ (.malloc initSz) (some a)
      { m₀ with heap := Function.update m₀.heap a (some ⟨initSz, fun _ => none⟩) } :=
    ⟨hfree, fun _ => none, m₀.errno, rfl⟩
  have howns : Owns m₀ a ⟨initSz, fun _ => none⟩
      { m₀ with heap := Function.update m₀.heap a (some ⟨initSz, fun _ => none⟩) } :=
    ⟨hfree, rfl, rfl⟩
  refine Exec.exists_call_bind hmalloc ?_
  obtain ⟨m₁, b, hfirst, ho⟩ := howns.formats (Int.le_of_lt hmax)
  refine Exec.exists_call_bind hfirst ?_
  by_cases hfits : (s.length : Int) < initSz
  · rw [if_pos ⟨by omega, hfits⟩]
    exact Exec.exists_call (r := ()) rfl ⟨_, _, .ret _ _⟩
  · rw [if_neg fun h => hfits h.2, if_neg (by omega)]
    -- the buffer may stay where it is
    have hrealloc : (library s).Answer m₁ (.realloc a ((s.length : Int).toNat + 1)) (some a)
        { m₁ with
          heap := Function.update (Function.update m₁.heap a none) a
            (some ⟨(s.length : Int).toNat + 1, b.cell⟩) } := by
      unfold library Answers
      dsimp only
      rw [ho.at]
      exact ⟨Or.inl rfl, b.cell, fun _ _ => rfl, m₁.errno, rfl⟩
    have howns' : Owns m₀ a ⟨(s.length : Int).toNat + 1, b.cell⟩
        { m₁ with
          heap := Function.update (Function.update m₁.heap a none) a
            (some ⟨(s.length : Int).toNat + 1, b.cell⟩) } :=
      ⟨ho.fresh, by rw [ho.freed], ho.misused⟩
    refine Exec.exists_call_bind hrealloc ?_
    obtain ⟨m₂, b', hsecond, -⟩ := howns'.formats (Int.le_of_lt hmax)
    refine Exec.exists_call_bind hsecond ?_
    rw [if_neg (by omega)]
    exact Exec.exists_call (r := ()) rfl ⟨_, _, .ret _ _⟩

/-- **Either the text or nothing**, whatever fails and however long the text is; and it does not
matter in which of the two passes it fits, since the same holds for every size of the first
buffer. The text can be had wherever there is room for it and an `int` can count it. -/
theorem vasprintf_prints (s : List UInt8) (m₀ : Memory) :
    Meets (library s) (· = m₀) vasprintf (Outcome s m₀) ∧
      Meets (library s) (· = m₀) asprintf (Outcome s m₀) ∧
      (∀ size, Meets (library s) (· = m₀) (vasprintfFrom size) (Outcome s m₀)) ∧
      ((s.length : Int) < intMax → (∃ a, m₀.heap a = none) →
        ∃ tr rc m, Exec (library s) vasprintf m₀ tr rc m ∧ Prints s m₀ rc m) := by
  refine ⟨vasprintfFrom_meets s m₀ initSz, ?_, vasprintfFrom_meets s m₀, fun hmax hroom => ?_⟩
  · refine .call_bind (M := fun _ m => m = { m₀ with str := none }) (quiet _) ?_ fun _ =>
      vasprintfFrom_meets s { m₀ with str := none } initSz
    intro m r m' hm ha
    rw [hm] at ha
    exact ha
  · obtain ⟨a, hfree⟩ := hroom
    obtain ⟨tr, m, hexec⟩ := vasprintf_can_print hmax hfree
    refine ⟨tr, _, m, hexec, ?_⟩
    obtain ⟨hprints | hgives, -⟩ := vasprintfFrom_meets s m₀ initSz m₀ tr _ m rfl hexec
    · exact hprints
    · have hrc : (s.length : Int) = -1 := hgives.1
      omega

end Calls

end LibrePortable.Stdio
