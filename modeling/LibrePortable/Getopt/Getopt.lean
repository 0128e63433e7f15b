import LibrePortable.Getopt.Permute

/-!
# `getopt`, `getopt_long`, `getopt_long_only`

The parser keeps its position in global and static variables, so that each call returns
one option and the next call goes on from there. A read outside the argument vector and
its NULL, and a division by zero, have no result.
-/

namespace LibrePortable.Getopt

/-- A `char` of a string, other than the NUL at its end. -/
abbrev Letter : Type := { c : UInt8 // c ≠ 0 }

/-- What a `char *` points at, up to the NUL. -/
abbrev Text : Type := List Letter

/-- `*p`. -/
def deref : Text → UInt8
  | [] => 0
  | c :: _ => c.val

/-- `strchr`, which also finds the NUL. -/
def strchr : Text → UInt8 → Option Text
  | [], ch => if ch = 0 then some [] else none
  | c :: t, ch => if c.val = ch then some (c :: t) else strchr t ch

/-- Whether `strncmp` returns 0. -/
def strncmpEq : Text → Text → Nat → Bool
  | _, _, 0 => true
  | [], [], _ + 1 => true
  | a :: s, b :: t, n + 1 => a = b && strncmpEq s t n
  | _, _, _ + 1 => false

/-- An entry of the table of long options. -/
structure LongOption where
  name : Text
  hasArg : Int
  /-- Which `int` to set, if not NULL. -/
  flag : Option Nat
  val : Int
  deriving DecidableEq

def noArgument : Int := 0
def requiredArgument : Int := 1
def optionalArgument : Int := 2

/-- What `warnx` prints of a string: a character, a string, or the start of a string. -/
inductive Argument where
  | char (c : Int)
  | string (s : Text)
  | start (len : Int) (s : Text)
  deriving DecidableEq

structure Message where
  format : String
  argument : Argument
  deriving DecidableEq

def recargchar : String := "option requires an argument -- %c"
def recargstring : String := "option requires an argument -- %s"
def ambig : String := "ambiguous option -- %.*s"
def noarg : String := "option doesn't take an argument -- %.*s"
def illoptchar : String := "unknown option -- %c"
def illoptstring : String := "unknown option -- %s"

/-- The scanning pointer: the empty message, or a place inside an element. -/
inductive Place where
  | emsg
  | inside (elem : Text) (off : Nat)
  deriving DecidableEq

namespace Place

def text : Place → Text
  | emsg => []
  | inside elem off => elem.drop off

/-- `place++`. -/
def succ : Place → Place
  | emsg => emsg
  | inside elem off => inside elem (off + 1)

end Place

/-- What the implementation and the environment fix. -/
structure Host where
  /-- Whether `char` is signed. -/
  signedChar : Bool
  /-- Whether the environment has `POSIXLY_CORRECT`. -/
  posixlyCorrect : Bool

structure Flags where
  permute : Bool
  allargs : Bool
  longonly : Bool

/-- The variables of the parser, the argument vector without its NULL, and what the caller's
pointers point at. -/
structure State where
  opterr : Int
  optind : Int
  optopt : Int
  optreset : Int
  optarg : Option Text
  place : Place
  nonoptStart : Int
  nonoptEnd : Int
  posixlyCorrect : Int
  nargv : List Text
  /-- `*idx`. -/
  idx : Int
  flags : Nat → Int
  stderr : List Message

/-- The parameters of a call. -/
structure Call where
  nargc : Int
  /-- The option string, if not NULL. -/
  options : Option Text
  /-- The table, if not NULL. -/
  longOptions : Option (List LongOption)
  /-- Whether `idx` is not NULL. -/
  hasIdx : Bool

/-- A `char` as an `int`. -/
def Host.toInt (h : Host) (c : UInt8) : Int :=
  if h.signedChar ∧ 128 ≤ c.toNat then (c.toNat : Int) - 256 else c.toNat

def colon : UInt8 := 58
def badch : Int := 63
def badarg (options : Text) : Int := if deref options = colon then 58 else 63
def inorder : Int := 1

namespace State

/-- `nargv[i]`, where the vector ends in a NULL. -/
def arg (s : State) (i : Int) : Option (Option Text) :=
  if 0 ≤ i then
    match s.nargv[i.toNat]? with
    | some t => some (some t)
    | none => if i.toNat = s.nargv.length then some none else none
  else none

/-- `if (PRINT_ERROR) warnx(...)`. -/
def warn (s : State) (options : Text) (format : String) (argument : Argument) : State :=
  { s with
    stderr := s.stderr ++
      if s.opterr ≠ 0 ∧ deref options ≠ colon then [⟨format, argument⟩] else [] }

end State

/-! ## `parse_long_options` -/

/-- The three running variables of the search. -/
structure Found where
  /-- `match`, with the entry it is the index of. -/
  found : Option (Nat × LongOption)
  exactMatch : Bool
  secondPartialMatch : Bool

/-- The loop over the table, from index `i` on. -/
def findLong (currentArgv : Text) (len : Nat) (shortToo longonly : Bool) :
    Nat → Found → List LongOption → Found
  | _, r, [] => r
  | i, r, o :: os =>
      if !strncmpEq currentArgv o.name len then
        findLong currentArgv len shortToo longonly (i + 1) r os
      else if o.name.length = len then { r with found := some (i, o), exactMatch := true }
      else if shortToo ∧ len = 1 then findLong currentArgv len shortToo longonly (i + 1) r os
      else
        match r.found with
        | none =>
            findLong currentArgv len shortToo longonly (i + 1) { r with found := some (i, o) } os
        | some (_, m) =>
            if longonly ∨ o.hasArg ≠ m.hasArg ∨ o.flag ≠ m.flag ∨ o.val ≠ m.val then
              findLong currentArgv len shortToo longonly (i + 1)
                { r with secondPartialMatch := true } os
            else findLong currentArgv len shortToo longonly (i + 1) r os

/-- The length of the name in `--name=value`, and the value. -/
def splitEqual (currentArgv : Text) : Nat × Option Text :=
  match strchr currentArgv 61 with
  | some e => (currentArgv.length - e.length, some e.tail)
  | none => (currentArgv.length, none)

/-- The search for the text at the scanning pointer. -/
def search (table : List LongOption) (currentArgv : Text) (shortToo longonly : Bool) : Found :=
  findLong currentArgv (splitEqual currentArgv).1 shortToo longonly 0 ⟨none, false, false⟩ table

/-- The argument of a long option. -/
def longArgument (o : LongOption) (hasEqual : Option Text) (s : State) : Option State :=
  if o.hasArg = requiredArgument ∨ o.hasArg = optionalArgument then
    match hasEqual with
    | some e => some { s with optarg := some e }
    | none =>
        if o.hasArg = requiredArgument then
          (s.arg s.optind).map fun a => { s with optarg := a, optind := s.optind + 1 }
        else some s
  else some s

/-- `optopt` after an error that names an entry. -/
def optoptOf (o : LongOption) : Int := if o.flag = none then o.val else 0

/-- The end of `parse_long_options`: store the index, and set the flag or return the value. -/
def longReturn (hasIdx : Bool) (i : Nat) (o : LongOption) (s : State) : Int × State :=
  let s := if hasIdx then { s with idx := i } else s
  match o.flag with
  | some f => (0, { s with flags := fun g => if g = f then o.val else s.flags g })
  | none => (o.val, s)

/-- `parse_long_options`, for an option that was found. -/
def longFound (options : Text) (hasIdx : Bool) (currentArgv : Text) (i : Nat) (o : LongOption)
    (s : State) : Option (Int × State) :=
  let (len, hasEqual) := splitEqual currentArgv
  if o.hasArg = noArgument ∧ hasEqual.isSome then
    let s := s.warn options noarg (.start len currentArgv)
    some (badarg options, { s with optopt := optoptOf o })
  else
    (longArgument o hasEqual s).map fun s =>
      if o.hasArg = requiredArgument ∧ s.optarg = none then
        let s := s.warn options recargstring (.string currentArgv)
        (badarg options, { s with optopt := optoptOf o, optind := s.optind - 1 })
      else longReturn hasIdx i o s

/-- `parse_long_options`. -/
def parseLongOptions (options : Text) (table : List LongOption) (hasIdx shortToo longonly : Bool)
    (s : State) : Option (Int × State) :=
  let currentArgv := s.place.text
  let s := { s with optind := s.optind + 1 }
  let r := search table currentArgv shortToo longonly
  if !r.exactMatch ∧ r.secondPartialMatch then
    let s := s.warn options ambig (.start (splitEqual currentArgv).1 currentArgv)
    some (badch, { s with optopt := 0 })
  else
    match r.found with
    | some (i, o) => longFound options hasIdx currentArgv i o s
    | none =>
        if shortToo then some (-1, { s with optind := s.optind - 1 })
        else
          let s := s.warn options illoptstring (.string currentArgv)
          some (badch, { s with optopt := 0 })

/-! ## `getopt_internal` -/

/-- `-W`, whose argument is a long option. -/
def wOption (c : Call) (options : Text) (table : List LongOption) (longonly : Bool)
    (optchar : Int) (s : State) : Option (Int × State) :=
  let parse := fun s : State =>
    (parseLongOptions options table c.hasIdx false longonly s).map fun (optchar, s) =>
      (optchar, { s with place := .emsg })
  if s.place.text ≠ [] then parse s
  else
    let s := { s with optind := s.optind + 1 }
    if s.optind ≥ c.nargc then
      let s := { s with place := .emsg }
      let s := s.warn options recargchar (.char optchar)
      some (badarg options, { s with optopt := optchar })
    else
      match s.arg s.optind with
      | some (some elem) => parse { s with place := .inside elem 0 }
      | _ => none

/-- The argument of an option letter that takes one; `oli` is at the first colon. -/
def letterArgument (c : Call) (options oli : Text) (optchar : Int) (s : State) :
    Option (Int × State) :=
  let s := { s with optarg := none }
  let done := fun s : State => (optchar, { s with place := .emsg, optind := s.optind + 1 })
  if s.place.text ≠ [] then some (done { s with optarg := some s.place.text })
  else if deref oli.tail ≠ colon then
    let s := { s with optind := s.optind + 1 }
    if s.optind ≥ c.nargc then
      let s := { s with place := .emsg }
      let s := s.warn options recargchar (.char optchar)
      some (badarg options, { s with optopt := optchar })
    else (s.arg s.optind).map fun a => done { s with optarg := a }
  else some (done s)

/-- An option letter of the option string; `oli` is where it stands there. -/
def knownLetter (c : Call) (options oli : Text) (optchar : Int) (s : State) :
    Option (Int × State) :=
  if deref oli.tail ≠ colon then
    some (optchar, if s.place.text = [] then { s with optind := s.optind + 1 } else s)
  else letterArgument c options oli.tail optchar s

/-- One option letter. -/
def shortOption (h : Host) (c : Call) (options : Text) (longonly : Bool) (s : State) :
    Option (Int × State) :=
  let ch := deref s.place.text
  let s := { s with place := s.place.succ }
  let optchar := h.toInt ch
  match if ch = colon then none else strchr options ch with
  | none =>
      let s := if s.place.text = [] then { s with optind := s.optind + 1 } else s
      let s := s.warn options illoptchar (.char optchar)
      some (badch, { s with optopt := optchar })
  | some oli =>
      match c.longOptions with
      | some table =>
          if ch = 87 ∧ deref oli.tail = 59 then wOption c options table longonly optchar s
          else knownLetter c options oli optchar s
      | none => knownLetter c options oli optchar s

/-- The part of `getopt_internal` that looks at the scanning pointer: a long option, or else a
letter. -/
def option (h : Host) (c : Call) (options : Text) (longonly : Bool) (s : State) :
    Option (Int × State) :=
  match c.longOptions with
  | none => shortOption h c options longonly s
  | some table =>
      (s.arg s.optind).bind fun elem =>
        if (∀ t, elem = some t → s.place ≠ .inside t 0) ∧
            (deref s.place.text = 45 ∨ longonly) then
          let dash : Bool := deref s.place.text = 45
          let shortToo : Bool := !dash && deref s.place.text ≠ colon &&
            (strchr options (deref s.place.text)).isSome
          let s := if dash then { s with place := s.place.succ } else s
          (parseLongOptions options table c.hasIdx shortToo longonly s).bind fun (optchar, s) =>
            if optchar ≠ -1 then some (optchar, { s with place := .emsg })
            else shortOption h c options longonly s
        else shortOption h c options longonly s

/-- Whether an element is not an option. -/
def isOperand (options elem : Text) : Bool :=
  deref elem ≠ 45 ∨ (deref elem.tail = 0 ∧ strchr options 45 = none)

/-- The exchange at the end of a scan. -/
def permuteAtEnd (s : State) : Option State :=
  (permuteArgs s.nonoptStart s.nonoptEnd s.optind s.nargv).map fun nargv =>
    { s with nargv := nargv, optind := s.optind - (s.nonoptEnd - s.nonoptStart) }

/-- The end of the vector. -/
def endOfVector (s : State) : Option (Int × State) :=
  let s := { s with place := .emsg }
  let finish := fun s : State => ((-1 : Int), { s with nonoptStart := -1, nonoptEnd := -1 })
  if s.nonoptEnd ≠ -1 then (permuteAtEnd s).map finish
  else if s.nonoptStart ≠ -1 then some (finish { s with optind := s.nonoptStart })
  else some (finish s)

/-- The element `--`. -/
def doubleDash (s : State) : Option (Int × State) :=
  let s := { s with optind := s.optind + 1, place := .emsg }
  let finish := fun s : State => ((-1 : Int), { s with nonoptStart := -1, nonoptEnd := -1 })
  if s.nonoptEnd ≠ -1 then (permuteAtEnd s).map finish else some (finish s)

/-- An operand, when operands are permuted. -/
def skipOperand (s : State) : Option State :=
  let next := fun s : State => { s with optind := s.optind + 1 }
  if s.nonoptStart = -1 then some (next { s with nonoptStart := s.optind })
  else if s.nonoptEnd ≠ -1 then
    (permuteArgs s.nonoptStart s.nonoptEnd s.optind s.nargv).map fun nargv =>
      next { s with
        nargv := nargv
        nonoptStart := s.optind - (s.nonoptEnd - s.nonoptStart)
        nonoptEnd := -1 }
  else some (next s)

/-- The first option behind operands marks their end. -/
def markEnd (s : State) : State :=
  if s.nonoptStart ≠ -1 ∧ s.nonoptEnd = -1 then { s with nonoptEnd := s.optind } else s

/-- An element that starts with `-`. -/
def optionElement (h : Host) (c : Call) (options : Text) (longonly : Bool) (elem : Text)
    (s : State) : Option (Int × State) :=
  if deref elem.tail ≠ 0 then
    -- `++place` is evaluated here whatever follows
    if deref elem.tail = 45 ∧ deref elem.tail.tail = 0 then doubleDash s
    else option h c options longonly { s with place := .inside elem 1 }
  else option h c options longonly { s with place := .inside elem 0 }

/-- The element at `optind`; `again` is the jump to the label `start`. -/
def element (h : Host) (c : Call) (flags : Flags) (options : Text)
    (again : State → Option (Int × State)) (s : State) : Option (Int × State) :=
  if s.optind ≥ c.nargc then endOfVector s
  else
    match s.arg s.optind with
    | some (some elem) =>
        if isOperand options elem then
          let s := { s with place := .emsg }
          if flags.allargs then
            some (inorder, { s with optarg := some elem, optind := s.optind + 1 })
          else if !flags.permute then some (-1, s)
          else (skipOperand s).bind again
        else optionElement h c options flags.longonly elem (markEnd s)
    | _ => none

/-- `getopt_internal` from the label `start` on. Each jump back to the label skips an
element, which bounds the number of jumps. -/
def start (h : Host) (c : Call) (flags : Flags) (options : Text) :
    Nat → State → Option (Int × State)
  | 0, _ => none
  | fuel + 1, s =>
      if s.optreset ≠ 0 ∨ s.place.text = [] then
        element h c flags options (start h c flags options fuel) { s with optreset := 0 }
      else option h c options flags.longonly s

/-- The part of `getopt_internal` before the option string is looked at. -/
def prepare (h : Host) (s : State) : State :=
  let s := if s.optind = 0 then { s with optind := 1, optreset := 1 } else s
  if s.posixlyCorrect = -1 ∨ s.optreset ≠ 0 then
    { s with posixlyCorrect := if h.posixlyCorrect then 1 else 0 }
  else s

/-- The flags, once the environment and the option string have changed them. -/
def modeFlags (posixlyCorrect : Int) (options : Text) (flags : Flags) : Flags :=
  if deref options = 45 then { flags with allargs := true }
  else if posixlyCorrect ≠ 0 ∨ deref options = 43 then { flags with permute := false }
  else flags

/-- The option string behind the character that sets the mode. -/
def skipMode (options : Text) : Text :=
  if deref options = 43 ∨ deref options = 45 then options.tail else options

/-- `getopt_internal`. -/
def getoptInternal (h : Host) (c : Call) (flags : Flags) (s : State) : Option (Int × State) :=
  match c.options with
  | none => some (-1, s)
  | some options =>
      let s := prepare h s
      let flags := modeFlags s.posixlyCorrect options flags
      let s := { s with optarg := none }
      let s := if s.optreset ≠ 0 then { s with nonoptStart := -1, nonoptEnd := -1 } else s
      start h c flags (skipMode options) (c.nargc.toNat + 1) s

/-- `getopt`. -/
def getopt (h : Host) (c : Call) (s : State) : Option (Int × State) :=
  getoptInternal h { c with longOptions := none, hasIdx := false } ⟨false, false, false⟩ s

/-- `getopt_long`. -/
def getoptLong (h : Host) (c : Call) (s : State) : Option (Int × State) :=
  getoptInternal h c ⟨true, false, false⟩ s

/-- `getopt_long_only`. -/
def getoptLongOnly (h : Host) (c : Call) (s : State) : Option (Int × State) :=
  getoptInternal h c ⟨true, false, true⟩ s

/-- Call a parser until it returns -1: what the calls before returned, each with the state it
left, and the state at the end. -/
def scan (call : State → Option (Int × State)) :
    Nat → State → Option (List (Int × State) × State)
  | 0, _ => none
  | fuel + 1, s =>
      (call s).bind fun (rc, s') =>
        if rc = -1 then some ([], s')
        else (scan call fuel s').map fun (rets, last) => ((rc, s') :: rets, last)

end LibrePortable.Getopt
