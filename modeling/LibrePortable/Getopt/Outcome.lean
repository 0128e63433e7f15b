import LibrePortable.Getopt.Reference

/-!
# What a call shows

The reading of the vector as a list of elements, carried further: what the call that
meets an option returns, and what it leaves in the variables that the caller looks at.
-/

namespace LibrePortable.Getopt

/-- What the caller sees of one call. -/
structure Outcome where
  rc : Int
  optarg : Option Text
  /-- The index in the table, if a long option was matched. -/
  index : Option Nat
  /-- `optopt` and the message, if there was an error. -/
  error : Option (Int × Message)
  deriving DecidableEq

namespace Outcome

/-- An option, with its argument. -/
def option (rc : Int) (optarg : Option Text) : Outcome := ⟨rc, optarg, none, none⟩

/-- An error. -/
def fail (rc optopt : Int) (format : String) (argument : Argument) : Outcome :=
  ⟨rc, none, none, some (optopt, ⟨format, argument⟩)⟩

/-- A required argument is missing. -/
def Missing (o : Outcome) : Prop :=
  ∃ optopt m, o.error = some (optopt, m) ∧ (m.format = recargchar ∨ m.format = recargstring)

end Outcome

namespace Rules

variable (r : Rules)

/-- An entry of the table that was found for a text, in front of the elements `rest`. -/
def foundOutcome (rest : List Text) (text : Text) (i : Nat) (o : LongOption) : Outcome :=
  let hasEqual := (splitEqual text).2
  if o.hasArg = noArgument ∧ hasEqual.isSome then
    .fail (badarg r.options) (optoptOf o) noarg (.start (splitEqual text).1 text)
  else
    let optarg := if o.hasArg = requiredArgument then hasEqual.or rest.head?
      else if o.hasArg = optionalArgument then hasEqual else none
    if o.hasArg = requiredArgument ∧ optarg = none then
      .fail (badarg r.options) (optoptOf o) recargstring (.string text)
    else ⟨if o.flag = none then o.val else 0, optarg, some i, none⟩

/-- A text that is read as a long option. -/
def longOutcome (table : List LongOption) (rest : List Text) (text : Text) (shortToo : Bool) :
    Outcome :=
  let f := search table text shortToo r.longonly
  if !f.exactMatch ∧ f.secondPartialMatch then
    .fail badch 0 ambig (.start (splitEqual text).1 text)
  else
    match f.found with
    | some (i, o) => r.foundOutcome rest text i o
    | none => .fail badch 0 illoptstring (.string text)

/-- `-W`, when `t` follows it in its element. -/
def wOutcome (table : List LongOption) (rest : List Text) (optchar : Int) (t : Text) : Outcome :=
  if t ≠ [] then r.longOutcome table rest t false
  else
    match rest with
    | [] => .fail (badarg r.options) optchar recargchar (.char optchar)
    | e :: rest => r.longOutcome table rest e false

/-- A letter of the option string. -/
def knownOutcome (rest : List Text) (optchar : Int) (oli t : Text) : Outcome :=
  if deref oli.tail ≠ colon then .option optchar none
  else if t ≠ [] then .option optchar (some t)
  else if deref oli.tail.tail = colon then .option optchar none
  else
    match rest with
    | [] => .fail (badarg r.options) optchar recargchar (.char optchar)
    | e :: _ => .option optchar (some e)

/-- A letter. -/
def letterOutcome (h : Host) (rest : List Text) (ch : Letter) (t : Text) : Outcome :=
  let optchar := h.toInt ch.val
  match if ch.val = colon then none else strchr r.options ch.val with
  | none => .fail badch optchar illoptchar (.char optchar)
  | some oli =>
      match r.table with
      | some table =>
          if ch.val = 87 ∧ deref oli.tail = 59 then r.wOutcome table rest optchar t
          else r.knownOutcome rest optchar oli t
      | none => r.knownOutcome rest optchar oli t

/-- What is at place `off` of its element, where `ch` and `t` are left of it. -/
def placeOutcome (h : Host) (rest : List Text) (off : Nat) (ch : Letter) (t : Text) : Outcome :=
  if off = 0 ∨ r.long ch t = none then r.letterOutcome h rest ch t
  else
    match r.table with
    | none => r.letterOutcome h rest ch t
    | some table =>
        if ch.val = 45 then r.longOutcome table rest t false
        else
          r.longOutcome table rest (ch :: t) (ch.val ≠ colon ∧ (strchr r.options ch.val).isSome)

/-- A letter that leaves the others of its element to be read. -/
def alone (off : Nat) (ch : Letter) (t : Text) : Bool :=
  decide (off = 0 ∨ r.long ch t = none) &&
    match if ch.val = colon then none else strchr r.options ch.val with
    | none => true
    | some oli => deref oli.tail ≠ colon ∧ ¬ (r.table.isSome ∧ ch.val = 87 ∧ deref oli.tail = 59)

end Rules

/-! ## What it says about the state -/

/-- The variables in which a call leaves what it shows. -/
structure Seen where
  optarg : Option Text
  idx : Int
  optopt : Int
  opterr : Int
  stderr : List Message

def State.seen (s : State) : Seen := ⟨s.optarg, s.idx, s.optopt, s.opterr, s.stderr⟩

/-- What the outcome makes of the variables. -/
def Outcome.shown (o : Outcome) (options : Text) (hasIdx : Bool) (v : Seen) : Seen where
  optarg := o.optarg
  idx := match o.index with
    | some i => if hasIdx then i else v.idx
    | none => v.idx
  optopt := match o.error with
    | some (optopt, _) => optopt
    | none => v.optopt
  opterr := v.opterr
  stderr := match o.error with
    | some (_, m) => v.stderr ++ if v.opterr ≠ 0 ∧ deref options ≠ colon then [m] else []
    | none => v.stderr

/-- The variables of `s'` are those of `s`, changed as the outcome says. -/
def Shows (options : Text) (hasIdx : Bool) (o : Outcome) (s s' : State) : Prop :=
  s'.seen = o.shown options hasIdx s.seen

namespace Shows

variable {options : Text} {hasIdx : Bool} {o : Outcome} {s s' : State}

theorem optarg (h : Shows options hasIdx o s s') : s'.optarg = o.optarg := congrArg Seen.optarg h

theorem idx (h : Shows options hasIdx o s s') :
    s'.idx = (o.shown options hasIdx s.seen).idx := congrArg Seen.idx h

theorem optopt (h : Shows options hasIdx o s s') :
    s'.optopt = (o.shown options hasIdx s.seen).optopt := congrArg Seen.optopt h

end Shows

end LibrePortable.Getopt
