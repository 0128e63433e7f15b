import LibrePortable.Getopt.Safety

/-!
# A reset leaves no trace

Of the variables, a call reads only those that steer the scan; the others it only writes. So
two states that agree on the former take every call alike. A reset makes any state agree with
that of a fresh process as far as the next call looks: the scanning pointer is dropped before
it is read, and the rest is set again.
-/

namespace LibrePortable.Getopt

/-! ## Writes -/

/-- What the parser writes and does not read, and `opterr`, which only decides what is printed. -/
structure Outside where
  opterr : Int
  optopt : Int
  idx : Int
  flags : Nat → Int
  stderr : List Message

def State.outside (s : State) : Outside := ⟨s.opterr, s.optopt, s.idx, s.flags, s.stderr⟩

inductive Write where
  | optopt (v : Int)
  | idx (v : Int)
  | flag (f : Nat) (v : Int)
  | message (m : Message)

namespace Outside

def write (o : Outside) : Write → Outside
  | .optopt v => { o with optopt := v }
  | .idx v => { o with idx := v }
  | .flag f v => { o with flags := fun g => if g = f then v else o.flags g }
  | .message m => { o with stderr := o.stderr ++ if o.opterr ≠ 0 then [m] else [] }

def writes (o : Outside) (ws : List Write) : Outside := ws.foldl write o

theorem writes_append (o : Outside) (ws ws' : List Write) :
    o.writes (ws ++ ws') = (o.writes ws).writes ws' := List.foldl_append

end Outside

/-- What `warn` writes. -/
def warning (options : Text) (format : String) (argument : Argument) : List Write :=
  if deref options ≠ colon then [.message ⟨format, argument⟩] else []

theorem warn_outside (s : State) (options : Text) (format : String) (argument : Argument) :
    (s.warn options format argument).outside =
      s.outside.writes (warning options format argument) := by
  by_cases hcolon : deref options = colon
  · simp [State.warn, State.outside, warning, hcolon, Outside.writes]
  · simp [State.warn, State.outside, warning, hcolon, Outside.writes, Outside.write]

/-! ## States that are alike -/

/-- The two states agree on what the parser reads. -/
structure Alike (s t : State) : Prop where
  optind : t.optind = s.optind
  optreset : t.optreset = s.optreset
  optarg : t.optarg = s.optarg
  place : t.place = s.place
  nonoptStart : t.nonoptStart = s.nonoptStart
  nonoptEnd : t.nonoptEnd = s.nonoptEnd
  posixlyCorrect : t.posixlyCorrect = s.posixlyCorrect
  nargv : t.nargv = s.nargv

/-- What is left alike, with nothing written. -/
inductive SameNext (o p : Outside) : Option State → Option State → Prop
  | undefined : SameNext o p none none
  | goes {s t : State} (ha : Alike s t) (hs : s.outside = o) (ht : t.outside = p) :
      SameNext o p (some s) (some t)

/-- The same value is returned, and the same is written. -/
inductive SameReturn (o p : Outside) : Option (Int × State) → Option (Int × State) → Prop
  | undefined : SameReturn o p none none
  | returns {rc : Int} {s t : State} (ws : List Write) (ha : Alike s t)
      (hs : s.outside = o.writes ws) (ht : t.outside = p.writes ws) :
      SameReturn o p (some (rc, s)) (some (rc, t))

section Rules

variable {o p : Outside} {s t : State} {x y : Option (Int × State)} {u v : Option State}

theorem SameReturn.ite_iff {cond cond' : Prop} [Decidable cond] [Decidable cond']
    {x' y' : Option (Int × State)} (hcond : cond' ↔ cond) (hpos : cond → SameReturn o p x y)
    (hneg : ¬ cond → SameReturn o p x' y') :
    SameReturn o p (if cond then x else x') (if cond' then y else y') := by
  by_cases hc : cond
  · rw [if_pos hc, if_pos (hcond.mpr hc)]
    exact hpos hc
  · rw [if_neg hc, if_neg (mt hcond.mp hc)]
    exact hneg hc

theorem SameReturn.ite {cond : Prop} [Decidable cond] {x' y' : Option (Int × State)}
    (hpos : cond → SameReturn o p x y) (hneg : ¬ cond → SameReturn o p x' y') :
    SameReturn o p (if cond then x else x') (if cond then y else y') := ite_iff Iff.rfl hpos hneg

theorem SameReturn.bind {f : Int × State → Option (Int × State)} (hxy : SameReturn o p x y)
    (hf : ∀ {rc s t}, Alike s t → SameReturn s.outside t.outside (f (rc, s)) (f (rc, t))) :
    SameReturn o p (x.bind f) (y.bind f) := by
  cases hxy with
  | undefined => exact .undefined
  | @returns rc s t ws ha hs ht =>
      have hnext : SameReturn s.outside t.outside (f (rc, s)) (f (rc, t)) := hf ha
      rw [hs, ht] at hnext
      rw [Option.bind_some, Option.bind_some]
      generalize f (rc, s) = a at hnext
      generalize f (rc, t) = b at hnext
      cases hnext with
      | undefined => exact .undefined
      | returns ws' ha' hs' ht' =>
          refine .returns (ws ++ ws') ha' ?_ ?_
          · rw [Outside.writes_append]
            exact hs'
          · rw [Outside.writes_append]
            exact ht'

theorem SameReturn.map {f : Int × State → Int × State} (hxy : SameReturn o p x y)
    (hf : ∀ {rc s t}, Alike s t → SameReturn s.outside t.outside (some (f (rc, s)))
      (some (f (rc, t)))) : SameReturn o p (x.map f) (y.map f) := by
  rw [Option.map_eq_bind, Option.map_eq_bind]
  exact hxy.bind hf

theorem SameNext.bind {f : State → Option (Int × State)} (huv : SameNext o p u v)
    (hf : ∀ {s t}, Alike s t → SameReturn s.outside t.outside (f s) (f t)) :
    SameReturn o p (u.bind f) (v.bind f) := by
  cases huv with
  | undefined => exact .undefined
  | goes ha hs ht =>
      subst hs ht
      exact hf ha

theorem SameNext.map {f : State → Int × State} (huv : SameNext o p u v)
    (hf : ∀ {s t}, Alike s t → SameReturn s.outside t.outside (some (f s)) (some (f t))) :
    SameReturn o p (u.map f) (v.map f) := by
  rw [Option.map_eq_bind, Option.map_eq_bind]
  exact huv.bind hf

/-- A return that writes nothing. -/
theorem SameReturn.ret {rc : Int} (ha : Alike s t) :
    SameReturn s.outside t.outside (some (rc, s)) (some (rc, t)) := .returns [] ha rfl rfl

/-- A return with a message, and with `optopt` set. -/
theorem SameReturn.error {rc w : Int} {options : Text} {format : String} {argument : Argument}
    {s' t' : State} (ha : Alike s' t')
    (hs : s'.outside = { (s.warn options format argument).outside with optopt := w })
    (ht : t'.outside = { (t.warn options format argument).outside with optopt := w }) :
    SameReturn s.outside t.outside (some (rc, s')) (some (rc, t')) := by
  refine .returns (warning options format argument ++ [.optopt w]) ha ?_ ?_
  · rw [hs, warn_outside, Outside.writes_append]
    rfl
  · rw [ht, warn_outside, Outside.writes_append]
    rfl

end Rules

namespace Alike

variable {h : Host} {c : Call} {options oli currentArgv elem : Text} {table : List LongOption}
  {hasIdx shortToo longonly : Bool} {o : LongOption} {hasEqual : Option Text} {i : Nat} {rc : Int}
  {flags : Flags} {s t : State}

theorem arg (ha : Alike s t) (i : Int) : t.arg i = s.arg i := by
  rw [State.arg, State.arg, ha.nargv]

theorem ite_iff {cond cond' : Prop} [Decidable cond] [Decidable cond'] {s' t' : State}
    (hcond : cond' ↔ cond) (hpos : Alike s t) (hneg : Alike s' t') :
    Alike (if cond then s else s') (if cond' then t else t') := by
  by_cases hc : cond
  · rw [if_pos hc, if_pos (hcond.mpr hc)]
    exact hpos
  · rw [if_neg hc, if_neg (mt hcond.mp hc)]
    exact hneg

/-! ## `parse_long_options` -/

theorem longArgument (ha : Alike s t) : SameNext s.outside t.outside
    (longArgument o hasEqual s) (longArgument o hasEqual t) := by
  unfold Getopt.longArgument
  by_cases harg : o.hasArg = requiredArgument ∨ o.hasArg = optionalArgument
  · rw [if_pos harg, if_pos harg]
    cases hasEqual with
    | some e => exact .goes { ha with optarg := rfl } rfl rfl
    | none =>
        dsimp only
        by_cases hrequired : o.hasArg = requiredArgument
        · rw [if_pos hrequired, if_pos hrequired, ha.optind, ha.arg]
          cases s.arg s.optind with
          | none => exact .undefined
          | some a => exact .goes { ha with optarg := rfl, optind := rfl } rfl rfl
        · rw [if_neg hrequired, if_neg hrequired]
          exact .goes ha rfl rfl
  · rw [if_neg harg, if_neg harg]
    exact .goes ha rfl rfl

theorem longReturn (ha : Alike s t) : SameReturn s.outside t.outside
    (some (longReturn hasIdx i o s)) (some (longReturn hasIdx i o t)) := by
  rw [Getopt.longReturn, Getopt.longReturn]
  cases hasIdx with
  | false =>
      cases o.flag with
      | none => exact .ret ha
      | some f => exact .returns [.flag f o.val] { ha with } rfl rfl
  | true =>
      cases o.flag with
      | none => exact .returns [.idx i] { ha with } rfl rfl
      | some f => exact .returns [.idx i, .flag f o.val] { ha with } rfl rfl

theorem longFound (ha : Alike s t) : SameReturn s.outside t.outside
    (longFound options hasIdx currentArgv i o s) (longFound options hasIdx currentArgv i o t) := by
  rw [Getopt.longFound, Getopt.longFound]
  dsimp only
  refine .ite (fun _ => .error { ha with } rfl rfl) fun _ => ha.longArgument.map fun {s t} ha => ?_
  by_cases hmissing : o.hasArg = requiredArgument ∧ s.optarg = none
  · rw [if_pos hmissing, if_pos (ha.optarg.symm ▸ hmissing)]
    exact .error { ha with optind := congrArg (· - 1) ha.optind } rfl rfl
  · rw [if_neg hmissing, if_neg (ha.optarg.symm ▸ hmissing)]
    exact ha.longReturn

theorem parseLongOptions (ha : Alike s t) : SameReturn s.outside t.outside
    (parseLongOptions options table hasIdx shortToo longonly s)
    (parseLongOptions options table hasIdx shortToo longonly t) := by
  have hnext : Alike { s with optind := s.optind + 1 }
      { t with optind := t.optind + 1, place := s.place } :=
    { ha with optind := congrArg (· + 1) ha.optind, place := rfl }
  rw [Getopt.parseLongOptions, Getopt.parseLongOptions]
  dsimp only
  rw [ha.place]
  refine .ite (fun _ => .error { hnext with } rfl rfl) fun _ => ?_
  cases (search table s.place.text shortToo longonly).found with
  | some m => exact hnext.longFound
  | none =>
      refine .ite (fun _ => ?_) fun _ => .error { hnext with } rfl rfl
      exact .returns [] { hnext with optind := congrArg (· - 1) hnext.optind } rfl rfl

/-! ## `getopt_internal` -/

theorem wOption (ha : Alike s t) : SameReturn s.outside t.outside
    (wOption c options table longonly rc s) (wOption c options table longonly rc t) := by
  have hparse : ∀ {s t : State}, Alike s t → SameReturn s.outside t.outside
      ((Getopt.parseLongOptions options table c.hasIdx false longonly s).map fun x =>
        (x.1, { x.2 with place := .emsg }))
      ((Getopt.parseLongOptions options table c.hasIdx false longonly t).map fun x =>
        (x.1, { x.2 with place := .emsg })) :=
    fun ha => ha.parseLongOptions.map fun ha => .returns [] { ha with place := rfl } rfl rfl
  rw [Getopt.wOption, Getopt.wOption]
  dsimp only
  rw [ha.place, ha.optind]
  refine .ite (fun _ => hparse ha) fun _ => .ite (fun _ => ?_) fun _ => ?_
  · exact .error { ha with place := rfl, optind := rfl } rfl rfl
  · have hnext : Alike { s with optind := s.optind + 1 }
        { t with optind := s.optind + 1, place := s.place } :=
      { ha with optind := rfl, place := rfl }
    rw [hnext.arg]
    cases ({ s with optind := s.optind + 1 } : State).arg (s.optind + 1) with
    | none => exact .undefined
    | some a =>
        cases a with
        | none => exact .undefined
        | some elem =>
            have helem : Alike { s with place := .inside elem 0, optind := s.optind + 1 }
                { t with place := .inside elem 0, optind := s.optind + 1 } :=
              { ha with place := rfl, optind := rfl }
            exact hparse helem

theorem letterArgument (ha : Alike s t) : SameReturn s.outside t.outside
    (letterArgument c options oli rc s) (letterArgument c options oli rc t) := by
  rw [Getopt.letterArgument, Getopt.letterArgument]
  dsimp only
  rw [ha.place, ha.optind]
  refine .ite (fun _ => ?_) fun _ => .ite (fun _ => .ite (fun _ => ?_) fun _ => ?_) fun _ => ?_
  · exact .returns [] { ha with optarg := rfl, place := rfl, optind := rfl } rfl rfl
  · exact .error { ha with optarg := rfl, place := rfl, optind := rfl } rfl rfl
  · have hnext : Alike { s with optarg := none, optind := s.optind + 1 }
        { t with optarg := none, optind := s.optind + 1, place := s.place } :=
      { ha with optarg := rfl, optind := rfl, place := rfl }
    rw [hnext.arg]
    cases ({ s with optarg := none, optind := s.optind + 1 } : State).arg (s.optind + 1) with
    | none => exact .undefined
    | some a => exact .returns [] { hnext with optarg := rfl, place := rfl, optind := rfl } rfl rfl
  · exact .returns [] { ha with optarg := rfl, place := rfl, optind := rfl } rfl rfl

theorem knownLetter (ha : Alike s t) : SameReturn s.outside t.outside
    (knownLetter c options oli rc s) (knownLetter c options oli rc t) := by
  rw [Getopt.knownLetter, Getopt.knownLetter]
  refine .ite (fun _ => ?_) fun _ => ha.letterArgument
  rw [ha.place]
  by_cases hend : s.place.text = []
  · rw [if_pos hend, if_pos hend]
    exact .returns [] { ha with place := rfl, optind := congrArg (· + 1) ha.optind } rfl rfl
  · rw [if_neg hend, if_neg hend]
    exact .ret ha

theorem shortOption (ha : Alike s t) : SameReturn s.outside t.outside
    (shortOption h c options longonly s) (shortOption h c options longonly t) := by
  have hnext : Alike { s with place := s.place.succ } { t with place := s.place.succ } :=
    { ha with place := rfl }
  rw [Getopt.shortOption, Getopt.shortOption]
  dsimp only
  rw [ha.place]
  cases if deref s.place.text = colon then none else strchr options (deref s.place.text) with
  | none =>
      dsimp only
      by_cases hend : s.place.succ.text = []
      · rw [if_pos hend, if_pos hend]
        exact .error { hnext with optind := congrArg (· + 1) hnext.optind } rfl rfl
      · rw [if_neg hend, if_neg hend]
        exact .error { hnext with } rfl rfl
  | some oli =>
      cases c.longOptions with
      | none => exact hnext.knownLetter
      | some table => exact .ite (fun _ => hnext.wOption) fun _ => hnext.knownLetter

theorem option (ha : Alike s t) : SameReturn s.outside t.outside
    (option h c options longonly s) (option h c options longonly t) := by
  rw [Getopt.option, Getopt.option]
  cases c.longOptions with
  | none => exact ha.shortOption
  | some table =>
      dsimp only
      rw [ha.optind, ha.arg]
      cases s.arg s.optind with
      | none => exact .undefined
      | some elem =>
          rw [Option.bind_some, Option.bind_some, ha.place]
          refine .ite (fun _ => ?_) fun _ => ha.shortOption
          refine .bind ?_ fun ha => .ite (fun _ => .returns [] { ha with place := rfl } rfl rfl)
            fun _ => ha.shortOption
          by_cases hdash : deref s.place.text = 45
          · rw [if_pos (decide_eq_true hdash), if_pos (decide_eq_true hdash)]
            exact parseLongOptions (s := { s with place := s.place.succ })
              (t := { t with place := s.place.succ, optind := s.optind })
              { ha with place := rfl, optind := rfl }
          · rw [if_neg (by simpa using hdash), if_neg (by simpa using hdash)]
            exact ha.parseLongOptions

theorem permuteAtEnd (ha : Alike s t) :
    SameNext s.outside t.outside (permuteAtEnd s) (permuteAtEnd t) := by
  rw [Getopt.permuteAtEnd, Getopt.permuteAtEnd, ha.nonoptStart, ha.nonoptEnd, ha.optind, ha.nargv]
  cases permuteArgs s.nonoptStart s.nonoptEnd s.optind s.nargv with
  | none => exact .undefined
  | some nargv =>
      exact .goes { ha with nargv := rfl, optind := rfl, nonoptStart := rfl, nonoptEnd := rfl }
        rfl rfl

theorem endOfVector (ha : Alike s t) : SameReturn s.outside t.outside
    (endOfVector s) (endOfVector t) := by
  have hemsg : Alike { s with place := .emsg } { t with place := .emsg } :=
    { ha with place := rfl }
  rw [Getopt.endOfVector, Getopt.endOfVector]
  dsimp only
  refine .ite_iff (by rw [ha.nonoptEnd]) (fun _ => ?_) fun _ => .ite_iff (by rw [ha.nonoptStart])
    (fun _ => ?_) fun _ => ?_
  · exact hemsg.permuteAtEnd.map fun ha =>
      .returns [] { ha with nonoptStart := rfl, nonoptEnd := rfl } rfl rfl
  · exact .returns []
      { hemsg with optind := ha.nonoptStart, nonoptStart := rfl, nonoptEnd := rfl } rfl rfl
  · exact .returns [] { hemsg with nonoptStart := rfl, nonoptEnd := rfl } rfl rfl

theorem doubleDash (ha : Alike s t) : SameReturn s.outside t.outside
    (doubleDash s) (doubleDash t) := by
  have hnext : Alike { s with optind := s.optind + 1, place := .emsg }
      { t with optind := t.optind + 1, place := .emsg } :=
    { ha with optind := congrArg (· + 1) ha.optind, place := rfl }
  rw [Getopt.doubleDash, Getopt.doubleDash]
  dsimp only
  refine .ite_iff (by rw [ha.nonoptEnd]) (fun _ => ?_) fun _ => ?_
  · exact hnext.permuteAtEnd.map fun ha =>
      .returns [] { ha with nonoptStart := rfl, nonoptEnd := rfl } rfl rfl
  · exact .returns [] { hnext with nonoptStart := rfl, nonoptEnd := rfl } rfl rfl

theorem skipOperand (ha : Alike s t) :
    SameNext s.outside t.outside (skipOperand s) (skipOperand t) := by
  have hnext : Alike { s with optind := s.optind + 1 } { t with optind := t.optind + 1 } :=
    { ha with optind := congrArg (· + 1) ha.optind }
  rw [Getopt.skipOperand, Getopt.skipOperand]
  dsimp only
  by_cases hstart : s.nonoptStart = -1
  · rw [if_pos hstart, if_pos (ha.nonoptStart.trans hstart)]
    exact .goes { hnext with nonoptStart := ha.optind } rfl rfl
  · rw [if_neg hstart, if_neg fun h => hstart (ha.nonoptStart.symm.trans h)]
    by_cases hend : s.nonoptEnd = -1
    · rw [if_neg (not_not.mpr hend), if_neg (not_not.mpr (ha.nonoptEnd.trans hend))]
      exact .goes hnext rfl rfl
    · rw [if_pos hend, if_pos fun h => hend (ha.nonoptEnd.symm.trans h), ha.nonoptStart,
        ha.nonoptEnd, ha.optind, ha.nargv]
      cases permuteArgs s.nonoptStart s.nonoptEnd s.optind s.nargv with
      | none => exact .undefined
      | some nargv =>
          exact .goes
            { ha with nargv := rfl, nonoptStart := rfl, nonoptEnd := rfl, optind := rfl } rfl rfl

theorem markEnd (ha : Alike s t) : Alike (markEnd s) (markEnd t) := by
  refine .ite_iff (by rw [ha.nonoptStart, ha.nonoptEnd]) ?_ ha
  exact { ha with nonoptEnd := ha.optind }

theorem optionElement (ha : Alike s t) : SameReturn s.outside t.outside
    (optionElement h c options longonly elem s) (optionElement h c options longonly elem t) := by
  have hinside : ∀ off, Alike { s with place := .inside elem off }
    { t with place := .inside elem off } := fun off => { ha with place := rfl }
  rw [Getopt.optionElement, Getopt.optionElement]
  exact .ite (fun _ => .ite (fun _ => ha.doubleDash) fun _ => (hinside 1).option)
    fun _ => (hinside 0).option

theorem element {again : State → Option (Int × State)}
    (hagain : ∀ {s t}, Alike s t → SameReturn s.outside t.outside (again s) (again t))
    (ha : Alike s t) : SameReturn s.outside t.outside
      (element h c flags options again s) (element h c flags options again t) := by
  rw [Getopt.element, Getopt.element, ha.optind, ha.arg]
  refine .ite (fun _ => ha.endOfVector) fun _ => ?_
  cases s.arg s.optind with
  | none => exact .undefined
  | some a =>
      cases a with
      | none => exact .undefined
      | some elem =>
          have hemsg : Alike { s with place := .emsg }
            { t with place := .emsg, optind := s.optind } := { ha with place := rfl, optind := rfl }
          refine .ite (fun _ => .ite (fun _ => ?_) fun _ => .ite (fun _ => .ret hemsg)
            fun _ => hemsg.skipOperand.bind hagain) fun _ => ?_
          · exact .returns [] { hemsg with optarg := rfl, optind := rfl } rfl rfl
          · have houtside : ∀ s : State, (Getopt.markEnd s).outside = s.outside := fun s => by
              rw [Getopt.markEnd]
              split <;> rfl
            have hmark : SameReturn (Getopt.markEnd s).outside (Getopt.markEnd t).outside
                (Getopt.optionElement h c options flags.longonly elem (Getopt.markEnd s))
                (Getopt.optionElement h c options flags.longonly elem (Getopt.markEnd t)) :=
              ha.markEnd.optionElement
            rw [houtside, houtside] at hmark
            exact hmark

theorem start : ∀ {fuel : Nat} {s t : State}, Alike s t → SameReturn s.outside t.outside
    (start h c flags options fuel s) (start h c flags options fuel t) := by
  intro fuel
  induction fuel with
  | zero => exact fun _ => .undefined
  | succ fuel ih =>
      intro s t ha
      rw [Getopt.start, Getopt.start]
      refine .ite_iff (by rw [ha.optreset, ha.place]) (fun _ => ?_) fun _ => ha.option
      exact element ih (s := { s with optreset := 0 }) (t := { t with optreset := 0 })
        { ha with optreset := rfl }

theorem prepare (ha : Alike s t) : Alike (prepare h s) (prepare h t) := by
  have hzero : Alike (if s.optind = 0 then { s with optind := 1, optreset := 1 } else s)
      (if t.optind = 0 then { t with optind := 1, optreset := 1 } else t) :=
    .ite_iff (by rw [ha.optind]) { ha with optind := rfl, optreset := rfl } ha
  refine .ite_iff (by rw [hzero.posixlyCorrect, hzero.optreset]) ?_ hzero
  exact { hzero with posixlyCorrect := rfl }

theorem enter (ha : Alike s t) : Alike (enter h s) (enter h t) := by
  have harg : Alike { Getopt.prepare h s with optarg := none }
      { Getopt.prepare h t with optarg := none } := { ha.prepare with optarg := rfl }
  refine .ite_iff (by rw [harg.optreset]) ?_ harg
  exact { harg with nonoptStart := rfl, nonoptEnd := rfl }

end Alike

/-! ## Calls -/

section Calls

variable {h : Host} {c : Call} {flags : Flags} {options : Text} {s t : State}

theorem enter_outside (h : Host) (s : State) : (enter h s).outside = s.outside := by
  have hprepare : (prepare h s).outside = s.outside := by
    rw [prepare]
    split <;> split <;> rfl
  rw [← hprepare, enter]
  split <;> rfl

/-- **Alike states take a call alike.** -/
theorem Alike.getoptInternal (ha : Alike s t) : SameReturn s.outside t.outside
    (getoptInternal h c flags s) (getoptInternal h c flags t) := by
  cases hoptions : c.options with
  | none =>
      rw [Getopt.getoptInternal, Getopt.getoptInternal, hoptions]
      exact .ret ha
  | some options =>
      rw [getoptInternal_eq hoptions, getoptInternal_eq hoptions, ha.enter.posixlyCorrect,
        ← enter_outside h s, ← enter_outside h t]
      exact ha.enter.start

/-- The caller asks for a reset. -/
def IsReset (s : State) : Prop := s.optind = 0 ∨ s.optreset = 1 ∧ s.optind = 1

/-- Where the scan of a vector starts. -/
def State.begun (h : Host) (s : State) : State :=
  { s with
    optind := 1
    optreset := 0
    optarg := none
    place := .emsg
    nonoptStart := -1
    nonoptEnd := -1
    posixlyCorrect := if h.posixlyCorrect then 1 else 0 }

theorem IsReset.getoptInternal (hs : IsReset s) (hoptions : c.options = some options) :
    getoptInternal h c flags s =
      start h c (modeFlags (if h.posixlyCorrect then 1 else 0) options flags) (skipMode options)
        (c.nargc.toNat + 1) (s.begun h) := by
  have henter : enter h s = { s.begun h with optreset := 1, place := s.place } := by
    rcases hs with hzero | ⟨hreset, hone⟩
    · simp [enter, prepare, State.begun, hzero]
    · simp [enter, prepare, State.begun, hreset, hone]
  rw [getoptInternal_eq hoptions, henter, start_reset Int.one_ne_zero]
  rfl

theorem Fresh.getoptInternal (ht : Fresh t) (hoptions : c.options = some options) :
    getoptInternal h c flags t =
      start h c (modeFlags (if h.posixlyCorrect then 1 else 0) options flags) (skipMode options)
        (c.nargc.toNat + 1) (t.begun h) := by
  have henter : enter h t = t.begun h := by
    simp [enter, prepare, State.begun, ht.optind, ht.optreset, ht.place, ht.nonoptStart,
      ht.nonoptEnd, ht.posixlyCorrect]
  rw [getoptInternal_eq hoptions, henter]
  rfl

/-- What a call shows is the same in both runs. -/
structure SameShown (c : Call) (s t s' t' : State) : Prop where
  nargv : t'.nargv = s'.nargv
  optarg : c.options ≠ none → t'.optarg = s'.optarg
  optind : c.options ≠ none → t'.optind = s'.optind
  /-- Without an option string a call looks at nothing. -/
  nothing : c.options = none → s' = s ∧ t' = t
  /-- `optopt` on errors, and whatever else is written. -/
  writes : ∃ ws, s'.outside = s.outside.writes ws ∧ t'.outside = t.outside.writes ws

/-- **The same calls** from two states return the same values and show the same. -/
inductive SameCalls (h : Host) : List (Parser × Call) → State → State → Prop
  | done {s t : State} : SameCalls h [] s t
  | undefined {parser : Parser} {c : Call} {later : List (Parser × Call)} {s t : State}
      (hs : parser.run h c s = none) (ht : parser.run h c t = none) :
      SameCalls h ((parser, c) :: later) s t
  | call {parser : Parser} {c : Call} {later : List (Parser × Call)} {rc : Int} {s t s' t' : State}
      (hs : parser.run h c s = some (rc, s')) (ht : parser.run h c t = some (rc, t'))
      (hshown : SameShown c s t s' t') (hlater : SameCalls h later s' t') :
      SameCalls h ((parser, c) :: later) s t

/-- Before the first call of the second process, and from then on. -/
def Paired (s t : State) : Prop := Alike s t ∨ IsReset s ∧ Fresh t ∧ t.nargv = s.nargv

theorem Paired.nargv (hf : Paired s t) : t.nargv = s.nargv :=
  hf.elim Alike.nargv fun h => h.2.2

theorem Paired.getoptInternal (hf : Paired s t) (hoptions : c.options = some options) :
    SameReturn s.outside t.outside (getoptInternal h c flags s) (getoptInternal h c flags t) := by
  rcases hf with ha | ⟨hs, ht, hnargv⟩
  · exact ha.getoptInternal
  · have hbegun : Alike (s.begun h) (t.begun h) := ⟨rfl, rfl, rfl, rfl, rfl, rfl, rfl, hnargv⟩
    rw [hs.getoptInternal hoptions, ht.getoptInternal hoptions]
    exact hbegun.start

/-- **Two states that follow each other** take any calls alike. -/
theorem Paired.sameCalls : ∀ {later : List (Parser × Call)} {s t : State}, Paired s t →
    SameCalls h later s t := by
  intro later
  induction later with
  | nil => exact fun _ => .done
  | cons x later ih =>
      intro s t hf
      obtain ⟨parser, c⟩ := x
      have hpassed : (parser.passed c).options = c.options := by cases parser <;> rfl
      cases hoptions : c.options with
      | none =>
          have hrun : ∀ s, parser.run h c s = some (-1, s) := fun s => by
            rw [parser.run_eq, Getopt.getoptInternal, hpassed, hoptions]
          exact .call (hrun s) (hrun t) ⟨hf.nargv, fun h => absurd hoptions h,
            fun h => absurd hoptions h, fun _ => ⟨rfl, rfl⟩, [], rfl, rfl⟩ (ih hf)
      | some options =>
          have hreturn : SameReturn s.outside t.outside
              (Getopt.getoptInternal h (parser.passed c) parser.flags s)
              (Getopt.getoptInternal h (parser.passed c) parser.flags t) :=
            hf.getoptInternal (hpassed.trans hoptions)
          rw [← parser.run_eq, ← parser.run_eq] at hreturn
          generalize hs : parser.run h c s = x at hreturn
          generalize ht : parser.run h c t = y at hreturn
          cases hreturn with
          | undefined => exact .undefined hs ht
          | returns ws ha hws hwt =>
              have hshown : SameShown c s t _ _ := ⟨ha.nargv, fun _ => ha.optarg,
                fun _ => ha.optind, fun hnone => absurd (hoptions.symm.trans hnone)
                  (Option.some_ne_none options), ws, hws, hwt⟩
              exact .call hs ht hshown (ih (Or.inl ha))

/-- **A reset leaves no trace**, in whatever state it is asked for: all later calls are those of
a fresh process with the same vector. -/
theorem reset_forgets (hs : IsReset s) (ht : Fresh t) (hnargv : t.nargv = s.nargv)
    (later : List (Parser × Call)) : SameCalls h later s t :=
  Paired.sameCalls (Or.inr ⟨hs, ht, hnargv⟩)

/-- In the middle of `-ab` of another vector, with an operand skipped. -/
def interrupted : State :=
  { freshState sampleArgs with
    optind := 0
    optarg := some (textOf [121])
    optopt := 98
    place := .inside (textOf [45, 97, 98]) 2
    nonoptStart := 1
    nonoptEnd := 2
    posixlyCorrect := 1 }

theorem reset_forgets_sample :
    SameCalls signedHost [(.getoptLong, sampleCall), (.getopt, sampleCall)] interrupted
      (freshState sampleArgs) :=
  reset_forgets (s := interrupted) (Or.inl rfl) (freshState_fresh _) rfl _

end Calls

end LibrePortable.Getopt
