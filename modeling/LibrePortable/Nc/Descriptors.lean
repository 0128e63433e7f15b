import LibrePortable.Nc.ReadpassphraseProof

/-!
# Descriptor 0

Whether echo is turned off and whether the terminal is closed again both depend on a
comparison of the descriptor that `open` returned with `STDIN_FILENO`. It is meant to tell
the terminal from standard input, and does so while descriptor 0 is open: `open` returns the
lowest number that is not. In a process that has closed it, the terminal gets this number.
The descriptor then stays open, so only the first pass is affected.
-/

namespace LibrePortable.Nc

open Lib Prog

/-! ## The descriptors -/

/-- What an open descriptor refers to. -/
inductive File where
  | tty
  | other (n : Nat)
  deriving DecidableEq

/-- The descriptors of the process, and the terminal. -/
structure Table where
  file : Nat → Option File
  attr : Termios
  /-- The number of bytes read from the terminal while its `ECHO` bit was set. -/
  shown : Nat

namespace Table

/-- The file behind a descriptor. -/
def get (s : Table) : Int → Option File
  | .ofNat n => s.file n
  | .negSucc _ => none

/-- The set of open descriptors. -/
def openFds (s : Table) : Set Nat := {n | s.file n ≠ none}

end Table

/-- The number that `open` returns. -/
def Lowest (file : Nat → Option File) (n : Nat) : Prop := file n = none ∧ ∀ m < n, file m ≠ none

/-- How the calls may be answered, where the terminal can be opened and its attributes can be
read and set: a call that turns echo off does not fail. The call that restores them may be
interrupted, and while the process is stopped by a signal others have the terminal. -/
def Table.Answers (s : Table) : (e : TtyCall) → TtyAnswer e → Table → Prop
  | .openTty, (fd : Int), s' => ∃ n : Nat, fd = n ∧ Lowest s.file n ∧
      s' = { s with file := Function.update s.file n (some .tty) }
  | .close fd, _, s' => s' = { s with file := fun n => if (n : Int) = fd then none else s.file n }
  | .tcgetattr fd, r, s' => (s.get fd = some .tty → r = some s.attr) ∧ s' = s
  | .tcsetattr fd term, (rc : Int), s' =>
      (rc = 0 ∧ s' = if s.get fd = some .tty then { s with attr := term } else s) ∨
      (rc = -1 ∧ ¬ (s.get fd = some .tty ∧ s.attr.echo = true ∧ term.echo = false) ∧ s' = s)
  | .read fd, (r : Int × UInt8), s' => s' =
      if r.1 = 1 ∧ s.get fd = some .tty ∧ s.attr.echo = true then { s with shown := s.shown + 1 }
      else s
  | .kill _, (), s' => ∃ attr, s' = { s with attr := attr }
  | _, _, s' => s' = s

/-- The descriptors and the terminal, with any signals at any time. -/
def descriptors : Surroundings TtyCall TtyAnswer Table where
  Answer := Table.Answers
  Drift _ _ := False

/-! ## What the parts of a pass leave alone -/

/-- Nothing is opened, closed or read. -/
def Leaves : TtyCall → Prop
  | .openTty | .close _ | .read _ => False
  | _ => True

/-- Nothing is opened, closed or switched, and only `input` is read. -/
def ReadsOnly (input : Int) : TtyCall → Prop
  | .read fd => fd = input
  | .openTty | .close _ | .tcsetattr .. | .kill _ => False
  | _ => True

/-- Only actions are set. -/
def SetsActions : TtyCall → Prop
  | .sigaction .. => True
  | _ => False

theorem SetsActions.leaves (e : TtyCall) (he : SetsActions e) : Leaves e := by
  cases e <;> first | exact he.elim | trivial

theorem SetsActions.readsOnly (input : Int) (e : TtyCall) (he : SetsActions e) :
    ReadsOnly input e := by
  cases e <;> first | exact he.elim | trivial

theorem setAction_only (signum : Signal) (act : Sigaction) :
    (setAction signum act).OnlyCalls SetsActions := by
  have hsigaction : ∀ act, (Tty.sigaction signum act).OnlyCalls SetsActions :=
    fun _ => ⟨trivial, fun _ => trivial⟩
  exact OnlyCalls.ite (hsigaction act) ((hsigaction act).bind fun _ =>
    OnlyCalls.ite ((hsigaction _).bind fun _ => trivial) trivial)

theorem catchSignals_only : ∀ (sigs : List Signal) (save : Signal → Sigaction),
    (catchSignals sigs save).OnlyCalls SetsActions
  | [], _ => trivial
  | _ :: sigs, _ => (setAction_only ..).bind fun _ => catchSignals_only sigs _

theorem giveBack_only (save : Signal → Sigaction) : ∀ sigs : List Signal,
    (giveBack save sigs).OnlyCalls SetsActions
  | [] => trivial
  | _ :: sigs => (setAction_only ..).bind fun _ => giveBack_only save sigs

theorem clearAll_leaves : ∀ sigs : List Signal, (clearAll sigs).OnlyCalls Leaves
  | [] => trivial
  | _ :: sigs => ⟨trivial, fun _ => clearAll_leaves sigs⟩

theorem readLoop_only (host : Host) (flags : CInt) (bufsiz : Nat) (input : Int) :
    ∀ (fuel : Nat) (buf : List UInt8),
      (readLoop host flags bufsiz input fuel buf).OnlyCalls (ReadsOnly input)
  | 0, _ => trivial
  | fuel + 1, _ => ⟨rfl, fun (_ : Int × UInt8) => OnlyCalls.ite
      (OnlyCalls.ite (readLoop_only host flags bufsiz input fuel _)
        (readLoop_only host flags bufsiz input fuel _)) trivial⟩

theorem prompted_only (host : Host) (prompt : List UInt8) (bufsiz : Nat) (flags : CInt)
    (input output : Int) (term : Termios) (fuel : Nat) :
    (prompted host prompt bufsiz flags input output term fuel).OnlyCalls (ReadsOnly input) := by
  have hwrite : ∀ text, (Tty.write output text).OnlyCalls (ReadsOnly input) :=
    fun _ => ⟨trivial, fun _ => trivial⟩
  refine (onlyIf_only (hwrite prompt)).bind fun _ => (readLoop_only ..).bind fun r => ?_
  cases r with
  | none => trivial
  | some r =>
      exact ⟨trivial, fun (_ : Int) => ⟨trivial, fun (_ : Int) =>
        (onlyIf_only (hwrite _)).bind fun _ => trivial⟩⟩

theorem restoreLoop_leaves (input : Int) (oterm : Termios) : ∀ fuel : Nat,
    (restoreLoop input oterm fuel).OnlyCalls Leaves
  | 0 => trivial
  | fuel + 1 => ⟨trivial, fun (_ : Int) => OnlyCalls.ite
      ⟨trivial, fun (_ : Int) => OnlyCalls.ite
        ⟨trivial, fun (_ : Bool) => OnlyCalls.ite trivial (restoreLoop_leaves input oterm fuel)⟩
        trivial⟩ trivial⟩

theorem restoreTerminal_leaves (input : Int) (term oterm : Termios) (fuel : Nat) :
    (restoreTerminal input term oterm fuel).OnlyCalls Leaves := by
  refine OnlyCalls.ite ⟨trivial, fun (_ : Bool) => (restoreLoop_leaves ..).bind fun r => ?_⟩ trivial
  cases r with
  | none => trivial
  | some _ => exact ⟨trivial, fun _ => trivial⟩

theorem resend_leaves : ∀ (sigs : List Signal) (needRestart : Bool),
    (resend sigs needRestart).OnlyCalls Leaves
  | [], _ => trivial
  | _ :: sigs, _ => ⟨trivial, fun (_ : Bool) => OnlyCalls.ite
      ⟨trivial, fun _ => resend_leaves sigs _⟩ (resend_leaves sigs _)⟩

/-! ## A pass -/

/-- The terminal is open as `n`. If that is not 0, the count is what it was. -/
structure Opened (file : Nat → Option File) (n k : Nat) (s : Table) : Prop where
  file : s.file = Function.update file n (some .tty)
  shown : n ≠ 0 → s.shown = k

/-- And nothing that is typed is shown. -/
structure Quiet (file : Nat → Option File) (n k : Nat) (s : Table) : Prop
    extends Opened file n k s where
  quiet : n ≠ 0 → s.attr.echo = false

/-- What a pass leaves of the descriptors `file`. -/
def afterPass (file : Nat → Option File) (n : Nat) : Nat → Option File :=
  if n = 0 then Function.update file n (some .tty) else file

/-- The terminal is closed again, if its descriptor was not 0. -/
structure Closed (file : Nat → Option File) (n k : Nat) (s : Table) : Prop where
  file : s.file = afterPass file n
  shown : n ≠ 0 → s.shown = k

section Pass

variable {file : Nat → Option File} {n k : Nat} {s s' : Table} {flags : CInt} {α : Type}

theorem stable_descriptors (P : Table → Prop) : descriptors.Stable P :=
  fun _ _ _ hd => hd.elim

theorem get_input (hfile : s.file = Function.update file n (some .tty)) :
    s.get n = some .tty := by
  show s.file n = some .tty
  rw [hfile]
  exact Function.update_self ..

/-- Calls that neither open, close nor read keep all but the attributes. -/
theorem leaves_keeps {e : TtyCall} (he : Leaves e) {r : TtyAnswer e} (ha : s.Answers e r s') :
    s'.file = s.file ∧ s'.shown = s.shown := by
  cases e with
  | openTty | close | read => exact he.elim
  | tcsetattr fd term =>
      rcases ha with ⟨-, rfl⟩ | ⟨-, -, rfl⟩
      · split <;> exact ⟨rfl, rfl⟩
      · exact ⟨rfl, rfl⟩
  | kill =>
      obtain ⟨attr, rfl⟩ := ha
      exact ⟨rfl, rfl⟩
  | tcgetattr =>
      obtain ⟨-, rfl⟩ := ha
      exact ⟨rfl, rfl⟩
  | _ =>
      obtain rfl := ha
      exact ⟨rfl, rfl⟩

theorem meets_leaves {P : Table → Prop} {p : TtyProg α} (hp : p.OnlyCalls Leaves)
    (hP : ∀ {s s' : Table}, P s → s'.file = s.file → s'.shown = s.shown → P s') :
    Meets descriptors P p fun _ => P :=
  Meets.of_onlyCalls hp (stable_descriptors _) fun _ he _ _ _ hs ha =>
    hP hs (leaves_keeps he ha).1 (leaves_keeps he ha).2

theorem opened_leaves {p : TtyProg α} (hp : p.OnlyCalls Leaves) :
    Meets descriptors (Opened file n k) p fun _ => Opened file n k :=
  meets_leaves hp fun hs hfile hshown => ⟨hfile.trans hs.file, fun hn => hshown.trans (hs.shown hn)⟩

/-- **While echo is off**, a read shows nothing. -/
theorem quiet_readsOnly {p : TtyProg α} (hp : p.OnlyCalls (ReadsOnly n)) :
    Meets descriptors (Quiet file n k) p fun _ => Quiet file n k := by
  refine Meets.of_onlyCalls hp (stable_descriptors _) fun e he s r s' hs ha => ?_
  cases e with
  | openTty | close | tcsetattr | kill => exact he.elim
  | read fd =>
      obtain rfl : s' = _ := ha
      split
      · next hshown =>
          refine ⟨⟨hs.file, fun hn => absurd (hs.quiet hn) ?_⟩, hs.quiet⟩
          rw [hshown.2.2]
          decide
      · exact hs
  | tcgetattr =>
      obtain ⟨-, rfl⟩ := ha
      exact hs
  | _ =>
      obtain rfl := ha
      exact hs

theorem openTerminal_meets (hstdin : flags &&& rppStdin = 0) :
    Meets descriptors (fun s => s.file = file ∧ s.shown = k) (openTerminal flags) fun r s =>
      ∃ n : Nat, (r = some ((n : Int), (n : Int)) ∧ Lowest file n) ∧ Opened file n k s := by
  rw [openTerminal, if_neg (not_not.mpr hstdin)]
  refine Meets.call_bind (M := fun fd s => ∃ n : Nat, (fd = (n : Int) ∧ Lowest file n) ∧
    Opened file n k s) (stable_descriptors _) ?_ fun (fd : Int) => ?_
  · rintro s fd s' ⟨hfile, hshown⟩ ⟨n, hfd, hlowest, rfl⟩
    subst hfile
    exact ⟨n, ⟨hfd, hlowest⟩, rfl, fun _ => hshown⟩
  · refine Meets.of_exists fun n => Meets.of_fact fun hn => ?_
    obtain ⟨rfl, hlowest⟩ := hn
    refine Meets.ite (fun hno => absurd hno (by omega)) fun _ => ?_
    refine Meets.bind (opened_leaves (p := Tty.setCloexec n) ⟨trivial, fun _ => trivial⟩)
      fun _ => ?_
    exact Meets.ret (stable_descriptors _) fun s hs => ⟨n, ⟨rfl, hlowest⟩, hs⟩

theorem silenced_echo (host : Host) (hecho : flags &&& rppEchoOn = 0) (oterm : Termios) :
    (silenced host flags oterm).echo = false := by
  rw [silenced, if_neg (not_not.mpr hecho)]
  split <;> rfl

/-- Echo is off, unless the terminal is taken for standard input. -/
theorem turnOffEcho_quiet (host : Host) (hecho : flags &&& rppEchoOn = 0) :
    Meets descriptors (Opened file n k) (turnOffEcho host flags n) fun _ => Quiet file n k := by
  refine Meets.ite (fun hne => ?_) fun heq => ?_
  · refine Meets.call_bind (M := fun r s => r = some s.attr ∧ Opened file n k s)
      (stable_descriptors _) ?_ fun (r : Option Termios) => ?_
    · rintro s r s' hs ⟨hr, rfl⟩
      exact ⟨hr (get_input hs.file), hs⟩
    · cases r with
      | none => exact fun s _ _ _ hs _ => (by cases hs.1)
      | some oterm =>
          refine Meets.call_bind (M := fun _ => Quiet file n k) (stable_descriptors _) ?_
            fun _ => Meets.ret (stable_descriptors _) fun _ hs => hs
          intro s rc s' hs ha
          obtain ⟨-, hs⟩ := hs
          rcases ha with ⟨-, rfl⟩ | ⟨-, hno, rfl⟩
          · rw [if_pos (get_input hs.file)]
            exact ⟨⟨hs.file, hs.shown⟩, fun _ => silenced_echo host hecho oterm⟩
          · refine ⟨hs, fun _ => Bool.eq_false_iff.mpr fun hon => ?_⟩
            exact hno ⟨get_input hs.file, hon, silenced_echo host hecho oterm⟩
  · refine Meets.ret (stable_descriptors _) fun s hs => ⟨hs, fun hn => absurd ?_ hn⟩
    exact Int.ofNat.inj (not_not.mp heq)

/-- The signals are given back, and the terminal is closed. -/
theorem finishPass_closes (save : Signal → Sigaction) (nr saveErrno : Int) (buf : List UInt8)
    (hlowest : Lowest file n) :
    Meets descriptors (Opened file n k) (finishPass save n nr saveErrno buf) fun _ =>
      Closed file n k := by
  refine Meets.bind (opened_leaves ((giveBack_only ..).mono SetsActions.leaves)) fun _ => ?_
  have hclose : Meets descriptors (Opened file n k)
      (onlyIf ((n : Int) ≠ stdinFileno) (Tty.close n)) fun _ => Closed file n k := by
    refine Meets.ite (fun hne => ?_) fun heq => ?_
    · have hn : n ≠ 0 := fun hzero => hne (by rw [hzero]; rfl)
      refine Meets.call_bind (M := fun _ => Closed file n k) (stable_descriptors _) ?_
        fun _ => Meets.ret (stable_descriptors _) fun _ hs => hs
      intro s _ s' hs ha
      obtain rfl : s' = _ := ha
      refine ⟨?_, hs.shown⟩
      dsimp only
      rw [afterPass, if_neg hn, hs.file]
      -- the number was free, and is free again
      funext m
      by_cases hm : m = n
      · subst hm
        rw [if_pos rfl, hlowest.1]
      · rw [if_neg (by omega), Function.update_of_ne hm]
    · obtain rfl : n = 0 := Int.ofNat.inj (not_not.mp heq)
      refine Meets.ret (stable_descriptors _) fun s hs => ⟨?_, hs.shown⟩
      rw [afterPass, if_pos rfl, hs.file]
  refine Meets.bind hclose fun _ => meets_leaves ?_ fun hs hfile hshown =>
    ⟨hfile.trans hs.file, fun hn => hshown.trans (hs.shown hn)⟩
  exact (resend_leaves ..).bind fun _ => OnlyCalls.ite trivial
    ((onlyIf_only (p := Tty.setErrno saveErrno) ⟨trivial, fun _ => trivial⟩).bind fun _ => trivial)

/-- **A pass** that ends has closed the terminal, and nothing that was typed has been shown,
unless the terminal was descriptor 0. -/
theorem pass_descriptors (host : Host) (prompt : List UInt8) (bufsiz fuel : Nat)
    (hstdin : flags &&& rppStdin = 0) (hecho : flags &&& rppEchoOn = 0) :
    Meets descriptors (fun s => s.file = file ∧ s.shown = k) (pass host prompt bufsiz flags fuel)
      fun r s => ∃ n, Lowest file n ∧ (n ≠ 0 → s.shown = k) ∧
        (r ≠ none → s.file = afterPass file n) := by
  refine Meets.bind (M := fun _ s => s.file = file ∧ s.shown = k) ?_ fun _ =>
    Meets.bind (M := fun _ s => s.file = file ∧ s.shown = k) ?_ fun _ =>
      Meets.bind (openTerminal_meets hstdin) fun r =>
        Meets.of_exists fun n => Meets.of_fact fun hr => ?_
  · exact Meets.call (stable_descriptors _) (fun s _ s' hs ha => ha ▸ hs) fun _ =>
      Meets.ret (stable_descriptors _) fun _ hs => hs
  · exact meets_leaves (clearAll_leaves numbered) fun hs hfile hshown =>
      ⟨hfile.trans hs.1, hshown.trans hs.2⟩
  · obtain ⟨rfl, hlowest⟩ := hr
    refine Meets.bind (turnOffEcho_quiet host hecho) fun r => ?_
    obtain ⟨term, oterm⟩ := r
    refine Meets.bind (quiet_readsOnly ((catchSignals_only ..).mono (SetsActions.readsOnly n)))
      fun save => Meets.bind (quiet_readsOnly (prompted_only ..)) fun r => ?_
    cases r with
    | none =>
        exact Meets.ret (stable_descriptors _) fun s hs =>
          ⟨n, hlowest, hs.shown, fun h => absurd rfl h⟩
    | some r =>
        obtain ⟨nr, saveErrno, buf⟩ := r
        refine (Meets.bind (opened_leaves (restoreTerminal_leaves ..)) fun r => ?_).pre
          fun s (hs : Quiet file n k s) => hs.toOpened
        cases r with
        | none =>
            exact Meets.ret (stable_descriptors _) fun s hs =>
              ⟨n, hlowest, hs.shown, fun h => absurd rfl h⟩
        | some _ =>
            exact (finishPass_closes save nr saveErrno buf hlowest).mono (fun _ hs => hs)
              fun _ s hs => ⟨n, hlowest, hs.shown, fun _ => hs.file⟩

/-! ## A call -/

theorem Lowest.ne_zero (hlowest : Lowest file n) (hopen : file 0 ≠ none) : n ≠ 0 :=
  fun hzero => hopen (hzero ▸ hlowest.1)

theorem Lowest.eq_zero (hlowest : Lowest file n) (hclosed : file 0 = none) : n = 0 :=
  Nat.eq_zero_of_not_pos fun hpos => hlowest.2 0 hpos hclosed

/-- Without a buffer, nothing is done. -/
theorem readpassphrase_no_buffer (host : Host) (prompt : List UInt8) (flags : CInt) (fuel : Nat) :
    Meets descriptors (fun s => s.file = file ∧ s.shown = k)
      (readpassphrase host prompt 0 flags fuel) fun _ s => s.file = file ∧ s.shown = k := by
  cases fuel with
  | zero => exact Meets.ret (stable_descriptors _) fun _ hs => hs
  | succ fuel =>
      exact Meets.call (M := fun _ s => s.file = file ∧ s.shown = k) (stable_descriptors _)
        (fun s _ s' hs ha => ha ▸ hs) fun _ => Meets.ret (stable_descriptors _) fun _ hs => hs

/-- **With descriptor 0 open**, every pass leaves the descriptors to the next one as they were. -/
theorem readpassphrase_open (host : Host) (prompt : List UInt8) {bufsiz : Nat}
    (hstdin : flags &&& rppStdin = 0) (hecho : flags &&& rppEchoOn = 0) (hsize : bufsiz ≠ 0)
    (hopen : file 0 ≠ none) : ∀ fuel : Nat, Meets descriptors (fun s => s.file = file ∧ s.shown = k)
      (readpassphrase host prompt bufsiz flags fuel) fun r s =>
        s.shown = k ∧ (r ≠ none → s.file = file)
  | 0 => Meets.ret (stable_descriptors _) fun s hs => ⟨hs.2, fun _ => hs.1⟩
  | fuel + 1 => by
      rw [readpassphrase, if_neg hsize]
      refine Meets.bind (M := fun r s => s.shown = k ∧ (r ≠ none → s.file = file)) ?_ fun r => ?_
      · refine (pass_descriptors host prompt bufsiz fuel hstdin hecho).mono (fun _ hs => hs) ?_
        rintro r s ⟨n, hlowest, hshown, hfile⟩
        have hn := hlowest.ne_zero hopen
        rw [afterPass, if_neg hn] at hfile
        exact ⟨hshown hn, hfile⟩
      · rcases r with _ | _ | r
        · exact Meets.ret (stable_descriptors _) fun s hs => ⟨hs.1, fun h => absurd rfl h⟩
        · exact (readpassphrase_open host prompt hstdin hecho hsize hopen fuel).pre
            fun s hs => ⟨hs.2 (Option.some_ne_none _), hs.1⟩
        · exact Meets.ret (stable_descriptors _) fun s hs =>
            ⟨hs.1, fun _ => hs.2 (Option.some_ne_none _)⟩

/-- **With descriptor 0 closed**, the first pass leaves the terminal there. -/
theorem readpassphrase_closed (host : Host) (prompt : List UInt8) {bufsiz : Nat} (fuel : Nat)
    (hstdin : flags &&& rppStdin = 0) (hecho : flags &&& rppEchoOn = 0) (hsize : bufsiz ≠ 0)
    (hclosed : file 0 = none) :
    Meets descriptors (fun s => s.file = file) (readpassphrase host prompt bufsiz flags fuel)
      fun r s => r ≠ none → s.file = Function.update file 0 (some .tty) := by
  cases fuel with
  | zero => exact Meets.ret (stable_descriptors _) fun _ _ h => absurd rfl h
  | succ fuel =>
      rw [readpassphrase, if_neg hsize]
      have hpass : Meets descriptors (fun s => s.file = file) (pass host prompt bufsiz flags fuel)
          fun r s => r ≠ none → s.file = Function.update file 0 (some .tty) := by
        intro s tr r s' hs hexec
        obtain ⟨n, hlowest, -, hfile⟩ := pass_descriptors host prompt bufsiz fuel hstdin hecho
          s tr r s' ⟨hs, rfl⟩ hexec
        rw [hlowest.eq_zero hclosed, afterPass, if_pos rfl] at hfile
        exact hfile
      refine Meets.bind hpass fun r => ?_
      rcases r with _ | _ | r
      · exact Meets.ret (stable_descriptors _) fun _ _ h => absurd rfl h
      · -- from here on descriptor 0 is open
        have hopen : Function.update file 0 (some File.tty) 0 ≠ none := by
          rw [Function.update_self]
          exact Option.some_ne_none _
        intro s tr r s' hs hexec
        exact (readpassphrase_open host prompt hstdin hecho hsize hopen fuel s tr r s'
          ⟨hs (Option.some_ne_none _), rfl⟩ hexec).2
      · exact Meets.ret (stable_descriptors _) fun s hs _ => hs (Option.some_ne_none _)

/-- **No byte is shown and no descriptor is left open** exactly if descriptor 0 was open when the
function was called, or if there is nothing to read into. -/
theorem readpassphrase_unseen_iff {host : Host} {prompt : List UInt8} {bufsiz fuel : Nat}
    {tr : List (Event TtyCall TtyAnswer)} {r : Option Ret} (hstdin : flags &&& rppStdin = 0)
    (hecho : flags &&& rppEchoOn = 0)
    (hrun : Exec descriptors (readpassphrase host prompt bufsiz flags fuel) s tr r s') :
    (bufsiz = 0 ∨ 0 ∈ s.openFds → s'.shown = s.shown) ∧
    (r ≠ none → (s'.shown = s.shown ∧ s'.openFds = s.openFds ↔ bufsiz = 0 ∨ 0 ∈ s.openFds)) := by
  have hsame : ∀ {s s' : Table}, s'.file = s.file → s'.openFds = s.openFds := fun hfile => by
    rw [Table.openFds, Table.openFds, hfile]
  by_cases hsize : bufsiz = 0
  · subst hsize
    obtain ⟨hfile, hshown⟩ := readpassphrase_no_buffer host prompt flags fuel s tr r s' ⟨rfl, rfl⟩
      hrun
    exact ⟨fun _ => hshown, fun _ => ⟨fun _ => Or.inl rfl, fun _ => ⟨hshown, hsame hfile⟩⟩⟩
  by_cases hopen : s.file 0 = none
  · have hno : ¬ (bufsiz = 0 ∨ 0 ∈ s.openFds) := by
      rintro (h | h)
      · exact hsize h
      · exact h hopen
    refine ⟨fun h => absurd h hno, fun hr => ⟨?_, fun h => absurd h hno⟩⟩
    rintro ⟨-, hfds⟩
    have hfile := readpassphrase_closed host prompt fuel hstdin hecho hsize hopen s tr r s' rfl
      hrun hr
    have hzero : 0 ∈ s'.openFds := by
      show s'.file 0 ≠ none
      rw [hfile, Function.update_self]
      exact Option.some_ne_none _
    rw [hfds] at hzero
    exact Or.inr hzero
  · obtain ⟨hshown, hfile⟩ := readpassphrase_open host prompt hstdin hecho hsize hopen fuel
      s tr r s' ⟨rfl, rfl⟩ hrun
    exact ⟨fun _ => hshown, fun hr => ⟨fun _ => Or.inr hopen, fun _ => ⟨hshown, hsame (hfile hr)⟩⟩⟩

end Pass

/-! ## Runs from a script -/

instance (file : Nat → Option File) (n : Nat) : Decidable (Lowest file n) :=
  inferInstanceAs (Decidable (_ ∧ _))

/-- A terminal at which the script is typed, opened as `n`; no signal arrives. -/
def Table.reply (n : Nat) (script : List UInt8) (s : Table) :
    (e : TtyCall) → Option (TtyAnswer e × Table × List UInt8)
  | .openTty =>
      if Lowest s.file n then
        some ((n : Int), { s with file := Function.update s.file n (some .tty) }, script)
      else none
  | .close fd =>
      some ((0 : Int), { s with file := fun n => if (n : Int) = fd then none else s.file n },
        script)
  | .tcgetattr fd => some (if s.get fd = some .tty then some s.attr else none, s, script)
  | .tcsetattr fd term =>
      some ((0 : Int), if s.get fd = some .tty then { s with attr := term } else s, script)
  | .read fd =>
      match script with
      | ch :: script => some (((1 : Int), ch),
          if s.get fd = some .tty ∧ s.attr.echo = true then { s with shown := s.shown + 1 } else s,
          script)
      | [] => none
  | .getSigno _ | .saveSigttou => some (false, s, script)
  | .setCloexec _ | .write .. | .getErrno => some ((0 : Int), s, script)
  | .sigaction .. => some (⟨.SIG_DFL, 0⟩, s, script)
  | .restart | .clearSigno _ | .putSigttou _ | .kill _ | .setErrno _ => some ((), s, script)

theorem Table.reply_sound {n : Nat} {script script' : List UInt8} {s s' : Table} {e : TtyCall}
    {r : TtyAnswer e} (h : Table.reply n script s e = some (r, s', script')) :
    s.Answers e r s' := by
  cases e with
  | openTty =>
      rw [Table.reply] at h
      split at h
      · next hlowest =>
          cases h
          exact ⟨n, rfl, hlowest, rfl⟩
      · cases h
  | read fd =>
      cases script with
      | nil => cases h
      | cons ch script =>
          cases h
          simp [Table.Answers]
  | tcgetattr fd =>
      cases h
      exact ⟨fun hfd => if_pos hfd, rfl⟩
  | tcsetattr fd term =>
      cases h
      exact Or.inl ⟨rfl, rfl⟩
  | kill sig =>
      cases h
      exact ⟨s.attr, rfl⟩
  | _ =>
      cases h
      rfl

/-- What a script leads to is an execution. -/
theorem Table.follow_exec {n : Nat} {script : List UInt8} {s s' : Table} {α : Type} {p : TtyProg α}
    {a : α} (h : follow (Table.reply n) p script s = some (a, s')) :
    ∃ tr, Exec descriptors p s tr a s' :=
  Prog.follow_exec (W := descriptors)
    (fun _ _ _ _ _ _ hreply => ⟨_, .refl, Table.reply_sound hreply⟩) h

/-- A process started from a terminal, and one without standard input and output. -/
def fromTerminal : Table := ⟨fun n => if n ≤ 2 then some .tty else none, ⟨true, false, 0, 0⟩, 0⟩
def detached : Table :=
  ⟨fun n => if n = 2 then some (.other 0) else none, ⟨true, false, 0, 0⟩, 0⟩

/-- The user types `a` and a newline. -/
theorem readpassphrase_unseen_sample : ∃ tr s', Exec descriptors
      (readpassphrase asciiHost [] 16 0 4) fromTerminal tr (some ⟨false, some [97]⟩) s' ∧
    s'.shown = fromTerminal.shown ∧ s'.openFds = fromTerminal.openFds := by
  have hrun : (follow (Table.reply 3) (readpassphrase asciiHost [] 16 0 4) [97, 10]
      fromTerminal).map Prod.fst = some (some ⟨false, some [97]⟩) := by
    decide +kernel
  obtain ⟨⟨r, s'⟩, hfollow, rfl⟩ := Option.map_eq_some_iff.mp hrun
  obtain ⟨tr, hexec⟩ := Table.follow_exec hfollow
  have hopen : 0 ∈ fromTerminal.openFds := Option.some_ne_none _
  exact ⟨tr, s', hexec, ((readpassphrase_unseen_iff rfl rfl hexec).2 (Option.some_ne_none _)).mpr
    (Or.inr hopen)⟩

/-- **The passphrase is shown**: descriptor 0 is closed, so the terminal gets its number. -/
theorem passphrase_shown : ∃ tr s', Exec descriptors
      (readpassphrase asciiHost [] 16 0 4) detached tr (some ⟨false, some [97]⟩) s' ∧
    detached.openFds = {2} ∧ s'.shown = detached.shown + 2 ∧ 0 ∈ s'.openFds := by
  have hrun : (follow (Table.reply 0) (readpassphrase asciiHost [] 16 0 4) [97, 10]
      detached).map (fun x => (x.1, x.2.shown, x.2.file 0)) =
      some (some ⟨false, some [97]⟩, 2, some .tty) := by
    decide +kernel
  obtain ⟨⟨r, s'⟩, hfollow, heq⟩ := Option.map_eq_some_iff.mp hrun
  obtain ⟨rfl, heq⟩ := Prod.mk.inj heq
  obtain ⟨hshown, hfile⟩ := Prod.mk.inj heq
  obtain ⟨tr, hexec⟩ := Table.follow_exec hfollow
  refine ⟨tr, s', hexec, ?_, hshown, ?_⟩
  · ext n
    show (if n = 2 then some (File.other 0) else none) ≠ none ↔ n = 2
    by_cases hn : n = 2 <;> simp [hn]
  · have hfile : s'.file 0 = some .tty := hfile
    show s'.file 0 ≠ none
    rw [hfile]
    exact Option.some_ne_none _

end LibrePortable.Nc
