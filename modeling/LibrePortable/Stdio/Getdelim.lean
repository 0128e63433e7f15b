import Mathlib.Algebra.Group.Nat.Defs
import Mathlib.Data.Nat.Log

/-!
# `getdelim` and `getline`

A record is read byte by byte into a buffer that the caller owns and that the function
replaces by a larger one when it fills up. Memory is modelled as numbered allocations, a
pointer is an allocation and an offset, and a write that does not land inside a live
allocation has no result.
-/

namespace LibrePortable.Stdio

/-- An allocation: its size and what its bytes hold, `none` where nothing was written. -/
structure Block where
  size : Nat
  cell : Nat → Option UInt8

/-- A `char *`: the number of an allocation and an offset into it. -/
structure Ptr where
  base : Nat
  off : Nat
  deriving DecidableEq, Repr

/-- What the next read of a file meets. -/
inductive ReadEvent where
  | byte (b : UInt8)
  | error
  deriving DecidableEq, Repr

/-- A `FILE` open for reading. -/
structure Stream where
  rest : List ReadEvent
  /-- `feof`. -/
  eof : Bool
  deriving DecidableEq, Repr

/-- `fgetc`. -/
def Stream.fgetc (fp : Stream) : Int × Stream :=
  if fp.eof then (-1, fp)
  else
    match fp.rest with
    | [] => (-1, { fp with eof := true })
    | .byte b :: rest => ((b.toNat : Int), { fp with rest := rest })
    | .error :: rest => (-1, { fp with rest := rest })

inductive Errno where
  | enomem
  | eoverflow
  deriving DecidableEq, Repr

/-- What the C library and the machine fix. -/
structure Platform where
  /-- `SIZE_MAX`. -/
  sizeMax : Nat
  /-- `BUFSIZ`. -/
  stdBufsiz : Nat
  /-- Whether the `k`-th call of `realloc` succeeds. -/
  grants : Nat → Bool
  /-- The C standard's lower bound. -/
  stdBufsiz_ge : 256 ≤ stdBufsiz
  stdBufsiz_le : stdBufsiz ≤ sizeMax

/-- The memory, the stream, and the caller's two variables. -/
structure Machine where
  heap : Nat → Option Block
  /-- The number that the next allocation gets. -/
  next : Nat
  /-- How often `realloc` has been called. -/
  reallocs : Nat
  fp : Stream
  /-- `*buf`. -/
  buf : Option Nat
  /-- `*bufsiz`. -/
  bufsiz : Nat

/-- A return value, and what the call stored in `errno` if it stored anything. -/
structure Return where
  rc : Int
  errno : Option Errno
  deriving DecidableEq, Repr

namespace Machine

/-- The memory once `*p = b` has written into this allocation. -/
def written (m : Machine) (p : Ptr) (block : Block) (b : UInt8) : Machine :=
  let block' := { block with cell := fun i => if i = p.off then some b else block.cell i }
  { m with heap := fun a => if a = p.base then some block' else m.heap a }

/-- `*p = b`. -/
def store (m : Machine) (p : Ptr) (b : UInt8) : Option Machine :=
  match m.heap p.base with
  | none => none
  | some block => if p.off < block.size then some (m.written p block b) else none

/-- `p - *buf`, for a pointer into the buffer. -/
def sinceBuf (m : Machine) (p : Ptr) : Option Nat :=
  if m.buf = some p.base then some p.off else none

/-- What `realloc` carries over from an old allocation. -/
def carried (m : Machine) (p : Option Nat) (i : Nat) : Option UInt8 :=
  match p.bind m.heap with
  | none => none
  | some old => if i < old.size then old.cell i else none

/-- The memory once an allocation has been replaced by a new one. -/
def moved (m : Machine) (p : Option Nat) (size : Nat) : Machine :=
  { m with
    heap := fun a =>
      if a = m.next then some ⟨size, m.carried p⟩ else if some a = p then none else m.heap a
    next := m.next + 1
    reallocs := m.reallocs + 1 }

/-- `realloc`: a new allocation, with the bytes that fit, in place of the old one. -/
def realloc (P : Platform) (m : Machine) (p : Option Nat) (size : Nat) : Option Nat × Machine :=
  if P.grants m.reallocs then (some m.next, m.moved p size)
  else (none, { m with reallocs := m.reallocs + 1 })

/-- `*ptr = '\0'; return ptr - *buf;`. -/
def terminate (m : Machine) (ptr : Ptr) : Option (Return × Machine) :=
  (m.store ptr 0).bind fun m => (m.sinceBuf ptr).map fun d => (⟨d, none⟩, m)

end Machine

open Machine

/-- The loop of `getdelim`. Each round reads once, so what is left of the stream bounds the
number of rounds. -/
def loop (P : Platform) (delimiter : Int) :
    Nat → Machine → Ptr → Ptr → Option (Return × Machine)
  | 0, _, _, _ => none
  | fuel + 1, m, ptr, eptr =>
      let (c, fp) := m.fp.fgetc
      let m := { m with fp := fp }
      if c = -1 then
        if m.fp.eof then
          (m.sinceBuf ptr).bind fun diff =>
            if diff ≠ 0 then m.terminate ptr else some (⟨-1, none⟩, m)
        else some (⟨-1, none⟩, m)
      else
        (m.store ptr (UInt8.ofInt c)).bind fun m =>
          let ptr := { ptr with off := ptr.off + 1 }
          if c = delimiter then m.terminate ptr
          else if ptr.off + 2 ≥ eptr.off then
            (m.sinceBuf ptr).bind fun d =>
              if m.bufsiz > P.sizeMax / 2 then some (⟨-1, some .eoverflow⟩, m)
              else
                let nbufsiz := m.bufsiz * 2 % (P.sizeMax + 1)
                match m.realloc P m.buf nbufsiz with
                | (none, m) => some (⟨-1, some .enomem⟩, m)
                | (some nbuf, m) =>
                    loop P delimiter fuel { m with buf := some nbuf, bufsiz := nbufsiz }
                      ⟨nbuf, d⟩ ⟨nbuf, nbufsiz⟩
          else loop P delimiter fuel m ptr eptr

/-- The loop on the buffer as it is. -/
def readRecord (P : Platform) (delimiter : Int) (m : Machine) : Option (Return × Machine) :=
  m.buf.bind fun buf =>
    loop P delimiter (m.fp.rest.length + 1) m ⟨buf, 0⟩ ⟨buf, m.bufsiz⟩

/-- `getdelim`. -/
def getdelim (P : Platform) (delimiter : Int) (m : Machine) : Option (Return × Machine) :=
  if m.buf = none ∨ m.bufsiz < 2 then
    let nbufsiz := P.stdBufsiz
    match m.realloc P m.buf nbufsiz with
    | (none, m) => some (⟨-1, some .enomem⟩, m)
    | (some nbuf, m) => readRecord P delimiter { m with buf := some nbuf, bufsiz := nbufsiz }
  else readRecord P delimiter m

/-- `getline`. -/
def getline (P : Platform) (m : Machine) : Option (Return × Machine) := getdelim P 10 m

/-! ## What the caller must provide, and what it gets -/

/-- `*buf` is NULL or a live allocation of at least `*bufsiz` bytes. -/
structure Valid (P : Platform) (m : Machine) : Prop where
  live : ∀ a, m.buf = some a → ∃ block, m.heap a = some block ∧ m.bufsiz ≤ block.size
  small : m.bufsiz ≤ P.sizeMax

/-- The size with which the loop begins. -/
def Machine.firstSize (P : Platform) (m : Machine) : Nat :=
  if m.buf = none ∨ m.bufsiz < 2 then P.stdBufsiz else m.bufsiz

/-- The largest size that doubling this one can reach. -/
def Platform.largest (P : Platform) (size : Nat) : Nat := size * 2 ^ Nat.log 2 (P.sizeMax / size)

/-- No size overflows: each of the lines, taken without its delimiter, leaves more than two
bytes of the largest buffer free. -/
def Fits (P : Platform) (d : UInt8) (m : Machine) (bytes : List UInt8) : Prop :=
  ∀ line ∈ bytes.splitOn d, line.length + 2 < P.largest (m.firstSize P)

/-- Allocation `a` has at least `size` bytes and starts with these. -/
def HoldsAt (m : Machine) (a size : Nat) (got : List UInt8) : Prop :=
  ∃ block, m.heap a = some block ∧ size ≤ block.size ∧ got.length ≤ block.size ∧
    ∀ i b, got[i]? = some b → block.cell i = some b

/-- The buffer starts with these bytes. -/
def Holds (m : Machine) (got : List UInt8) : Prop :=
  ∃ a, m.buf = some a ∧ HoldsAt m a m.bufsiz got

/-- The record at the front of a list of bytes, and what follows it. -/
def firstRecord (d : UInt8) : List UInt8 → List UInt8 × List UInt8
  | [] => ([], [])
  | b :: bs => if b = d then ([b], bs) else (b :: (firstRecord d bs).1, (firstRecord d bs).2)

/-- The stream is what remains of a file that is read without errors. -/
structure Clean (fp : Stream) (bytes : List UInt8) : Prop where
  rest : fp.rest = bytes.map .byte
  eof : fp.eof = true → bytes = []

end LibrePortable.Stdio
