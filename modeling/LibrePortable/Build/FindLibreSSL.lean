import LibrePortable.Build.CMake

/-!
# The version that CMake finds

`update.sh` leaves the version in `opensslv.h`, in one line as the text of a macro, and
`FindLibreSSL.cmake` takes it out of there with a regular expression. In front of the three
numbers stands `.*`, which goes as far as it can: it leaves the first number no more than
its last digit. And behind the third number stands a quotation mark, which a release
candidate has elsewhere.
-/

namespace LibrePortable.Build

open Lib

/-! ## Versions -/

def decimal (n : Nat) : Text := Nat.toDigits 10 n

/-- `N.M.P`, or `N.M.PrcR`. -/
structure Version where
  major : Nat
  minor : Nat
  revision : Nat
  rc : Option Nat
  deriving DecidableEq, Repr

/-- `rcR`, if it is a release candidate. -/
def Version.suffix (v : Version) : Text :=
  match v.rc with
  | none => []
  | some r => 'r' :: 'c' :: decimal r

def Version.text (v : Version) : Text :=
  decimal v.major ++ '.' :: (decimal v.minor ++ '.' :: (decimal v.revision ++ v.suffix))

def macroName : Text := "#define LIBRESSL_VERSION_TEXT".toList

def product : Text := "LibreSSL ".toList

/-- `#define LIBRESSL_VERSION_TEXT "LibreSSL <version>"`, as a line of `opensslv.h`. -/
def versionLine (v : Version) : Text :=
  macroName ++ ' ' :: '"' :: (product ++ (v.text ++ ['"']))

/-! ## `update.sh` -/

/-- `awk '/LIBRESSL_VERSION_TEXT/'` -/
def mentionsVersion (l : Text) : Bool := "LIBRESSL_VERSION_TEXT".toList <:+: l

/-- `awk '{print $i}'` -/
def field (i : Nat) (l : Text) : Text :=
  (((l.splitOnP fun c => c = ' ' || c = '\t').filter fun f => !f.isEmpty)[i - 1]?).getD []

/-- `cut -d\" -f1` -/
def cutQuote (l : Text) : Text := l.takeWhile (· ≠ '"')

/-- The first line that goes into the file `VERSION`. -/
def versionFile (opensslvH : List Text) : Text :=
  (((opensslvH.filter mentionsVersion).map fun l => cutQuote (field 4 l)).head?).getD []

/-- `[[:space:]]` -/
def isSpace (c : Char) : Bool := c = ' ' || ('\t' ≤ c && c ≤ '\r')

/-- `(#define LIBRESSL_VERSION_TEXT[[:space:]]+"LibreSSL )[^"]*"` -/
def sedRegex : Regex Char :=
  .seq (.group (.seq (.text macroName) (.seq (.plus isSpace) (.text ('"' :: product)))))
    (.seq (.many (· ≠ '"')) (.one (· = '"')))

/-- What a group of a match stands for. -/
def reference (i : Nat) (m : Match Char) : Text := (m.groups[i - 1]?).getD []

/-- `sed -E "s/.../\1<version>\"/"`, for one line. -/
def sedVersion (version l : Text) : Text :=
  match sedRegex.search l with
  | none => l
  | some (pre, m) => pre ++ (reference 1 m ++ version ++ ['"']) ++ m.rest

/-- The files `VERSION` and `opensslv.h`, if `LIBRESSL_RC` is `rc`. -/
def updateVersion (rc : Text) (opensslvH : List Text) : Text × List Text :=
  let version := versionFile opensslvH
  if rc ≠ [] then
    let version := version ++ 'r' :: 'c' :: rc
    (version, opensslvH.map (sedVersion version))
  else (version, opensslvH)

/-! ## `FindLibreSSL.cmake` -/

/-- `#define LIBRESSL_VERSION_TEXT[ ]+".*"` -/
def lineRegex : Regex Char :=
  .seq (.text macroName) (.seq (.plus (· = ' ')) (.seq (.one (· = '"'))
    (.seq (.many fun _ => true) (.one (· = '"')))))

/-- `([0-9]+)` -/
def number : Regex Char := .group (.plus Char.isDigit)

/-- `([0-9]+)\.([0-9]+)\.([0-9]+)"` -/
def numbersRegex : Regex Char :=
  .seq number (.seq (.one (· = '.')) (.seq number (.seq (.one (· = '.'))
    (.seq number (.one (· = '"'))))))

/-- `.*".*([0-9]+)\.([0-9]+)\.([0-9]+)"` -/
def versionRegex : Regex Char :=
  .seq (.many fun _ => true) (.seq (.one (· = '"')) (.seq (.many fun _ => true) numbersRegex))

/-- `LIBRESSL_VERSION_MAJOR`, `LIBRESSL_VERSION_MINOR`, `LIBRESSL_VERSION_REVISION` -/
structure Found where
  major : Text
  minor : Text
  revision : Text
  deriving DecidableEq, Repr

/-- `LIBRESSL_VERSION` -/
def Found.version (f : Found) : Text := f.major ++ '.' :: (f.minor ++ '.' :: f.revision)

/-- The variables that are set; no result if CMake stops with an error. -/
def findLibreSSL (opensslvH : List Text) : Option Found := do
  let lines := fileStrings lineRegex opensslvH
  let list ← regexReplace versionRegex
    (fun m => reference 1 m ++ ';' :: (reference 2 m ++ ';' :: reference 3 m)) lines
  let major ← listGet list 0
  let minor ← listGet list 1
  let revision ← listGet list 2
  return ⟨major, minor, revision⟩

end LibrePortable.Build
