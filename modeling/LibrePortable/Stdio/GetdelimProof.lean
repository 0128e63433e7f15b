import Mathlib.Data.List.Basic
import LibrePortable.Stdio.Getdelim

/-!
# What `getdelim` reads

The loop keeps room for one byte and a NUL. A round uses one of the two places, and
either leaves the other one and more behind it, or doubles the buffer. So no write lands
outside it, however small the buffer was at the start, and what has been read stays where
it is when the buffer moves. Doubling comes to an end at a size that is known beforehand,
and only a line for which that is too small makes a call give up.
-/

namespace LibrePortable.Stdio

open Machine

section Memory

variable {P : Platform} {m m' : Machine} {p : Ptr} {a size : Nat} {got : List UInt8} {b : UInt8}

/-- `m'` is `m` with other contents of memory. -/
structure SameBut (m m' : Machine) : Prop where
  fp : m'.fp = m.fp
  buf : m'.buf = m.buf
  bufsiz : m'.bufsiz = m.bufsiz
  reallocs : m'.reallocs = m.reallocs

end Memory

/-! ## Sizes -/

section Sizes

variable {P : Platform} {size : Nat}

end Sizes

/-! ## The stream -/

section Streams

variable {fp : Stream} {bytes : List UInt8} {b d : UInt8}

/-- A byte is never taken for the end of the file. -/
theorem byte_ne_eof (b : UInt8) : ((b.toNat : Int)) ≠ -1 := by omega

end Streams

/-! ## The loop -/

section Loop

variable {P : Platform} {d : UInt8}

/-- A call that read `whole`, and left these bytes for the next one. -/
structure Reads (P : Platform) (most : Nat) (whole left : List UInt8) (ret : Return)
    (m' : Machine) : Prop where
  valid : Valid P m'
  largest : P.largest (m'.firstSize P) = most
  errno : ret.errno = none
  rc : ret.rc = if whole = [] then -1 else (whole.length : Int)
  holds : whole ≠ [] → Holds m' (whole ++ [0])
  left : Clean m'.fp left

theorem Holds.valid {m : Machine} {got : List UInt8} (h : Holds m got)
    (hsmall : m.bufsiz ≤ P.sizeMax) : Valid P m := by
  obtain ⟨a, hbuf, block, hblock, hsize, -, -⟩ := h
  refine ⟨fun a' ha' => ?_, hsmall⟩
  obtain rfl : a = a' := Option.some.inj (hbuf.symm.trans ha')
  exact ⟨block, hblock, hsize⟩

end Loop

/-! ## Reading a whole stream -/

section Records

variable {d : UInt8}

/-- The delimiter stands at the end and nowhere else. -/
def EndsAt (d : UInt8) (r : List UInt8) : Prop := ∃ init, r = init ++ [d] ∧ d ∉ init

theorem firstRecord_append : ∀ bytes : List UInt8,
    (firstRecord d bytes).1 ++ (firstRecord d bytes).2 = bytes
  | [] => rfl
  | b :: bs => by
      rw [firstRecord]
      split
      · rfl
      · rw [List.cons_append, firstRecord_append bs]

theorem firstRecord_ne_nil {bytes : List UInt8} (h : bytes ≠ []) :
    (firstRecord d bytes).1 ≠ [] := by
  cases bytes with
  | nil => exact absurd rfl h
  | cons b bs =>
      rw [firstRecord]
      split
      · exact List.cons_ne_nil _ _
      · exact List.cons_ne_nil _ _

/-- A record ends at the delimiter, or it is all there is. -/
theorem firstRecord_ends : ∀ bytes : List UInt8,
    EndsAt d (firstRecord d bytes).1 ∨ (d ∉ (firstRecord d bytes).1 ∧ (firstRecord d bytes).2 = [])
  | [] => Or.inr ⟨List.not_mem_nil, rfl⟩
  | b :: bs => by
      rw [firstRecord]
      split
      · rename_i hb
        exact Or.inl ⟨[], by rw [hb]; rfl, List.not_mem_nil⟩
      · rename_i hb
        have hne : d ≠ b := fun h => hb h.symm
        rcases firstRecord_ends bs with ⟨init, hinit, hmem⟩ | ⟨hmem, hrest⟩
        · refine Or.inl ⟨b :: init, by rw [hinit]; rfl, ?_⟩
          exact fun h => (List.mem_cons.mp h).elim hne hmem
        · exact Or.inr ⟨fun h => (List.mem_cons.mp h).elim hne hmem, hrest⟩

end Records

section Whole

/-- The two functions that read a line. -/
inductive Reader where
  | getdelim (delimiter : UInt8)
  | getline
  deriving DecidableEq, Repr

def Reader.delimiter : Reader → UInt8
  | .getdelim delimiter => delimiter
  | .getline => 10

def Reader.call (P : Platform) : Reader → Machine → Option (Return × Machine)
  | .getdelim delimiter => Stdio.getdelim P delimiter.toNat
  | .getline => Stdio.getline P

/-- `getline` cuts at line feeds. -/
theorem Reader.call_eq (P : Platform) (r : Reader) (m : Machine) :
    r.call P m = Stdio.getdelim P r.delimiter.toNat m := by
  cases r with
  | getdelim delimiter => rfl
  | getline => rfl

/-- A call, with the state it started in and the state it left. -/
structure Call where
  before : Machine
  ret : Return
  after : Machine

/-- Calls on one buffer: those that returned a record, and the one that returned -1. -/
structure Calls where
  records : List Call
  last : Call

/-- A call returned this record: its length, and the bytes of the buffer with a NUL behind. -/
structure Delivers (c : Call) (r : List UInt8) : Prop where
  rc : c.ret.rc = r.length
  holds : Holds c.after (r ++ [0])

/-- What a run of calls makes of a stream. -/
structure Splits (d : UInt8) (bytes : List UInt8) (calls : Calls) (lines : List (List UInt8)) :
    Prop where
  delivered : List.Forall₂ Delivers calls.records lines
  flatten : lines.flatten = bytes
  ne_nil : ∀ r ∈ lines, r ≠ []
  /-- Every line but the last ends at the delimiter. -/
  ends : ∀ r ∈ lines.dropLast, EndsAt d r
  /-- The last one may also lack it. -/
  last : ∀ r ∈ lines, EndsAt d r ∨ d ∉ r
  exhausted : ∀ c ∈ calls.records ++ [calls.last], c.ret.rc = -1 ↔ c.before.fp.rest = []

variable {P : Platform} {d : UInt8}

theorem Splits.nil {bytes : List UInt8} {c : Call} (hbytes : bytes = []) (hrc : c.ret.rc = -1)
    (hrest : c.before.fp.rest = []) : Splits d bytes ⟨[], c⟩ [] := by
  refine ⟨.nil, hbytes.symm, fun _ h => absurd h List.not_mem_nil,
    fun _ h => absurd h List.not_mem_nil, fun _ h => absurd h List.not_mem_nil, fun c' hc' => ?_⟩
  obtain rfl := List.mem_singleton.mp hc'
  exact ⟨fun _ => hrest, fun _ => hrc⟩

/-- One more call in front. -/
theorem Splits.cons {bytes : List UInt8} {c : Call} {calls : Calls} {lines : List (List UInt8)}
    (hc : Delivers c (firstRecord d bytes).1) (hne : bytes ≠ []) (hbefore : c.before.fp.rest ≠ [])
    (h : Splits d (firstRecord d bytes).2 calls lines) :
    Splits d bytes { calls with records := c :: calls.records }
      ((firstRecord d bytes).1 :: lines) := by
  have hr : (firstRecord d bytes).1 ≠ [] := firstRecord_ne_nil hne
  refine ⟨.cons hc h.delivered, ?_, fun r hmem => ?_, fun r hmem => ?_, fun r hmem => ?_,
    fun c' hmem => ?_⟩
  · rw [List.flatten_cons, h.flatten, firstRecord_append]
  · rcases List.mem_cons.mp hmem with rfl | hmem
    · exact hr
    · exact h.ne_nil r hmem
  · -- a line that is not the last one has bytes behind it, so it was cut at the delimiter
    cases lines with
    | nil => exact absurd hmem List.not_mem_nil
    | cons l ls =>
        rw [List.dropLast_cons_of_ne_nil (List.cons_ne_nil _ _)] at hmem
        rcases List.mem_cons.mp hmem with rfl | hmem
        · refine (firstRecord_ends bytes).resolve_right fun hlast => ?_
          have hflat := h.flatten
          rw [hlast.2, List.flatten_cons] at hflat
          exact h.ne_nil l (List.mem_cons_self ..) (List.append_eq_nil_iff.mp hflat).1
        · exact h.ends r hmem
  · rcases List.mem_cons.mp hmem with rfl | hmem
    · exact (firstRecord_ends bytes).imp_right And.left
    · exact h.last r hmem
  · rcases List.mem_cons.mp hmem with rfl | hmem
    · refine ⟨fun hrc => ?_, fun hrest => absurd hrest hbefore⟩
      have := hc.rc
      omega
    · exact h.exhausted c' hmem

/-- A platform of 64 bits whose `realloc` never fails. -/
def lp64 : Platform where
  sizeMax := 18446744073709551615
  stdBufsiz := 1024
  grants := fun _ => true
  stdBufsiz_ge := by decide
  stdBufsiz_le := by decide

/-- A buffer of two bytes, and a stream to read into it. -/
def tinyBuffer (bytes : List UInt8) : Machine where
  heap := fun a => if a = 0 then some ⟨2, fun _ => none⟩ else none
  next := 1
  reallocs := 0
  fp := ⟨bytes.map .byte, false⟩
  buf := some 0
  bufsiz := 2

theorem tinyBuffer_valid (bytes : List UInt8) : Valid lp64 (tinyBuffer bytes) := by
  refine ⟨fun a ha => ?_, show 2 ≤ 18446744073709551615 by decide⟩
  obtain rfl : 0 = a := Option.some.inj ha
  exact ⟨⟨2, fun _ => none⟩, rfl, Nat.le_refl _⟩

end Whole

end LibrePortable.Stdio
