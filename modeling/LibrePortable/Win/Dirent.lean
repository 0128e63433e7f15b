import Mathlib.Logic.Function.Basic
import LibrePortable.Lib.Prog
import LibrePortable.Lib.Transition
import LibrePortable.Win.Calls

/-!
# Directory streams on Windows

`include/compat/dirent_msvc.h`. A search begins with a call that already returns the first
entry, so a stream keeps that entry until it is asked for. A stream also keeps the search
handle, which it closes once there are no more entries, and the search pattern, which
`rewinddir` starts over with.

What is allocated is a block with an address; what is in a stream is passed along with it.
The two conversions of names are those of the locale. In a string the terminator is not
written.
-/

namespace LibrePortable.Win

open Lib Prog

/-- `wchar_t` -/
abbrev WChar := BitVec 16

/-- `char` -/
abbrev CChar := BitVec 8

abbrev Block := Nat

/-- A search handle; INVALID_HANDLE_VALUE is none. -/
abbrev FindHandle := Nat

def pathMax : Nat := 260

/-- `WIN32_FIND_DATAW` -/
structure FindData where
  dwFileAttributes : BitVec 32
  cFileName : List WChar
  cAlternateFileName : List WChar
  deriving DecidableEq, Repr

def fileAttributeDirectory : BitVec 32 := 0x10#32
def fileAttributeDevice : BitVec 32 := 0x40#32

/-- The file types of `d_type` that occur. -/
inductive FileType where
  | DT_UNKNOWN | DT_REG | DT_DIR | DT_CHR
  deriving DecidableEq, Repr

/-- `struct _wdirent` and `struct dirent` -/
structure Dirent (α : Type) where
  d_ino : Int
  d_reclen : Nat
  d_namlen : Nat
  d_type : FileType
  d_name : List α
  deriving DecidableEq, Repr

/-- What the functions are compiled for: the sizes of their structs, and `SIZE_MAX`. -/
structure DirentAbi where
  sizeofWdirent : Nat
  sizeofDirent : Nat
  sizeofWdir : Nat
  sizeofDir : Nat
  sizeMax : Nat

/-- `mbstowcs_s` and `wcstombs_s` into a buffer of PATH_MAX; none is an error. -/
structure Codepage where
  widen : List CChar → Option (List WChar)
  narrow : List WChar → Option (List CChar)

/-- `dirp->patt`: where it is, and what is there. -/
structure Pattern where
  block : Block
  text : List WChar

/-- The calls the functions make. -/
inductive DirCall where
  | malloc (size : Nat)
  | free (b : Block)
  | getFullPathName (name : List WChar) (buf : Option Block) (size : Nat)
  /-- Wide characters and a terminator are written to a block. -/
  | store (b : Block) (text : List WChar)
  | findFirstFile (patt : Option Pattern)
  | findNextFile (h : FindHandle)
  | findClose (h : FindHandle)
  | setErrno (e : Errno)

/-- What each call returns. The length of a full path comes with what is in the buffer. -/
def DirAnswer : DirCall → Type
  | .malloc _ => Option Block
  | .getFullPathName .. => Nat × List WChar
  | .findFirstFile _ => Option (FindHandle × FindData)
  | .findNextFile _ => Option FindData
  | .free _ | .store .. | .findClose _ | .setErrno _ => Unit

/-- A program over these calls. -/
abbrev DirProg : Type → Type := Prog DirCall DirAnswer

namespace DirCall

def alloc (size : Nat) : DirProg (Option Block) := .call (.malloc size) .ret
def release (b : Block) : DirProg Unit := .call (.free b) .ret
def fullPath (name : List WChar) (buf : Option Block) (size : Nat) : DirProg (Nat × List WChar) :=
  .call (.getFullPathName name buf size) .ret
def write (b : Block) (text : List WChar) : DirProg Unit := .call (.store b text) .ret
def first (patt : Option Pattern) : DirProg (Option (FindHandle × FindData)) :=
  .call (.findFirstFile patt) .ret
def next (h : FindHandle) : DirProg (Option FindData) := .call (.findNextFile h) .ret
def close (h : FindHandle) : DirProg Unit := .call (.findClose h) .ret
def errno (e : Errno) : DirProg Unit := .call (.setErrno e) .ret

end DirCall

open DirCall

/-- `struct _WDIR`, less the entry it returns. -/
structure Wdir where
  block : Block
  data : FindData
  cached : Bool
  handle : Option FindHandle
  patt : Option Pattern

/-- `struct DIR`, less the entry it returns. -/
structure Dir where
  block : Block
  wdirp : Wdir

def enoent : Errno := .other 2

/-! ## Wide-character streams -/

/-- `dirent_first` -/
def direntFirst (dirp : Wdir) : DirProg (Wdir × Option FindData) := do
  match ← first dirp.patt with
  | some (h, data) =>
    return ({ dirp with handle := some h, data := data, cached := true }, some data)
  | none => return ({ dirp with handle := none, cached := false }, none)

/-- `dirent_next` -/
def direntNext (dirp : Wdir) : DirProg (Wdir × Option FindData) :=
  if dirp.cached then
    return ({ dirp with cached := false }, some dirp.data)
  else
    match dirp.handle with
    | some h => do
      match ← next h with
      | some data => return ({ dirp with data := data }, some data)
      | none =>
        close h
        return ({ dirp with handle := none }, none)
    | none => return (dirp, none)

/-- `if (dirp->handle != INVALID_HANDLE_VALUE) FindClose(dirp->handle);` -/
def closeHandle (dirp : Wdir) : DirProg Unit :=
  match dirp.handle with
  | some h => close h
  | none => return

/-- `if (dirp->patt) free(dirp->patt);` -/
def releasePattern (dirp : Wdir) : DirProg Unit :=
  match dirp.patt with
  | some patt => release patt.block
  | none => return

/-- `_wclosedir` -/
def wclosedir (dirp : Option Wdir) : DirProg Int := do
  match dirp with
  | some dirp =>
    closeHandle dirp
    releasePattern dirp
    release dirp.block
    return 0
  | none =>
    errno .EBADF
    return -1

/-- `_wrewinddir`, for a stream. -/
def wrewinddir (dirp : Wdir) : DirProg Wdir := do
  closeHandle dirp
  let (dirp, _) ← direntFirst dirp
  return dirp

/-- `\`, `/` and `:` -/
def separators : List WChar := [0x5c#16, 0x2f#16, 0x3a#16]

/-- Append search pattern `\*` to the directory name. -/
def searchPattern (path : List WChar) : List WChar :=
  match path.getLast? with
  | some c => if c ∈ separators then path ++ [0x2a#16] else path ++ [0x5c#16, 0x2a#16]
  | none => path ++ [0x2a#16]

/-- Set an error and clean up. -/
def wfail (dirp : Wdir) (e : Errno) : DirProg (Option Wdir) := do
  errno e
  let _ ← wclosedir (some dirp)
  return none

/-- `_wopendir` from the search pattern on. -/
def wopenPattern (dirp : Wdir) (patt : Block) (dirname : List WChar) (n : Nat) :
    DirProg (Option Wdir) := do
  let (len, path) ← fullPath dirname (some patt) n
  if 0 < len ∧ len < n then
    write patt (searchPattern path)
    let (dirp, datap) ← direntFirst { dirp with patt := some ⟨patt, searchPattern path⟩ }
    if datap.isSome then return some dirp else wfail dirp enoent
  else wfail { dirp with patt := some ⟨patt, []⟩ } enoent

/-- `_wopendir`. What is in a new block is `junk`. -/
def wopendir (abi : DirentAbi) (junk : FindData) (dirname : Option (List WChar)) :
    DirProg (Option Wdir) := do
  match dirname with
  | none | some [] =>
    errno enoent
    return none
  | some dirname =>
    match ← alloc abi.sizeofWdir with
    | none => return none
    | some block =>
      let dirp : Wdir := ⟨block, junk, false, none, none⟩
      let (n, _) ← fullPath dirname none 0
      if n ≤ (abi.sizeMax - 16) / 2 then
        match ← alloc (2 * n + 16) with
        | some patt => wopenPattern dirp patt dirname n
        | none => wfail dirp .ENOMEM
      else wfail dirp .ENOMEM

def fileType (attr : BitVec 32) : FileType :=
  if attr &&& fileAttributeDevice ≠ 0 then .DT_CHR
  else if attr &&& fileAttributeDirectory ≠ 0 then .DT_DIR
  else .DT_REG

/-- `while (n + 1 < PATH_MAX && datap->cFileName[n] != 0)`, with `room` for `PATH_MAX - 1 - n`. -/
def copyName : (room : Nat) → List WChar → List WChar
  | room + 1, c :: name => if c ≠ 0 then c :: copyName room name else []
  | _, _ => []

/-- What `_wreaddir` returns for an entry. -/
def wentry (abi : DirentAbi) (data : FindData) : Dirent WChar :=
  let name := copyName (pathMax - 1) data.cFileName
  ⟨0, abi.sizeofWdirent, name.length, fileType data.dwFileAttributes, name⟩

/-- `_wreaddir` -/
def wreaddir (abi : DirentAbi) (dirp : Wdir) : DirProg (Wdir × Option (Dirent WChar)) := do
  let (dirp, datap) ← direntNext dirp
  return (dirp, datap.map (wentry abi))

/-! ## Multi-byte streams -/

/-- `opendir` -/
def opendir (abi : DirentAbi) (cp : Codepage) (junk : FindData) (dirname : Option (List CChar)) :
    DirProg (Option Dir) := do
  match dirname with
  | none | some [] =>
    errno enoent
    return none
  | some dirname =>
    match ← alloc abi.sizeofDir with
    | none => return none
    | some block =>
      match cp.widen dirname with
      | some wname =>
        match ← wopendir abi junk (some wname) with
        | some wdirp => return some ⟨block, wdirp⟩
        | none =>
          release block
          return none
      | none =>
        release block
        return none

/-- The name in multi-byte characters, if need be that of the old 8+3 form. -/
def entryName (cp : Codepage) (data : FindData) : Option (List CChar) :=
  match cp.narrow data.cFileName with
  | some name => some name
  | none => if data.cAlternateFileName ≠ [] then cp.narrow data.cAlternateFileName else none

/-- What `readdir` returns for an entry; one without a name is called `?`. -/
def entry (abi : DirentAbi) (cp : Codepage) (data : FindData) : Dirent CChar :=
  match entryName cp data with
  | some name => ⟨0, abi.sizeofDirent, name.length, fileType data.dwFileAttributes, name⟩
  | none => ⟨0, 0, 1, .DT_UNKNOWN, [0x3f#8]⟩

/-- `readdir` -/
def readdir (abi : DirentAbi) (cp : Codepage) (dirp : Dir) :
    DirProg (Dir × Option (Dirent CChar)) := do
  let (wdirp, datap) ← direntNext dirp.wdirp
  return ({ dirp with wdirp := wdirp }, datap.map (entry abi cp))

/-- `closedir` -/
def closedir (dirp : Option Dir) : DirProg Int := do
  match dirp with
  | some dirp =>
    let ok ← wclosedir (some dirp.wdirp)
    release dirp.block
    return ok
  | none =>
    errno .EBADF
    return -1

/-- `rewinddir` -/
def rewinddir (dirp : Dir) : DirProg Dir := do
  let wdirp ← wrewinddir dirp.wdirp
  return { dirp with wdirp := wdirp }

end LibrePortable.Win
