import LibrePortable.Lib.Holdings
import LibrePortable.Lib.Hoare
import LibrePortable.Win.Dirent

/-!
# What a directory stream holds

A stream holds the block it is in, the block its search pattern is in, and a search handle
as long as there may be more entries. What a function does with these is one trade of what
the stream has before for what it has after, whatever the system answers; in particular
the functions that fail half way give everything back.

Misuse is recorded: giving back a block or closing a handle that is not live, going on with
a search that is closed, reading or writing a block that is gone, or writing past its end.
-/

namespace LibrePortable.Win

open Lib Prog

/-- Blocks and search handles, and what the searches have said. -/
structure DirWorld where
  /-- The live blocks, with their sizes. -/
  blocks : Block → Option Nat
  search : FindHandle → Bool
  misused : Bool
  /-- The entries handed out, in order. -/
  handed : List FindData
  /-- A search has failed, or has said that there is nothing more. -/
  refused : Bool

namespace DirWorld

def Live (w : DirWorld) (b : Block) : Prop := (w.blocks b).isSome

def Open (w : DirWorld) (h : FindHandle) : Prop := w.search h = true

/-- `2 * words` bytes of a block can be written. -/
def room (w : DirWorld) (b : Block) (words : Nat) : Bool :=
  match w.blocks b with
  | some size => 2 * words ≤ size
  | none => false

def flag (w : DirWorld) (bad : Bool) : DirWorld := { w with misused := w.misused || bad }

def allocate (w : DirWorld) (b : Block) (size : Nat) : DirWorld :=
  { w with blocks := Function.update w.blocks b (some size) }

def free (w : DirWorld) (b : Block) : DirWorld :=
  { w.flag (w.blocks b).isNone with blocks := Function.update w.blocks b none }

def opened (w : DirWorld) (h : FindHandle) : DirWorld :=
  { w with search := Function.update w.search h true }

def closed (w : DirWorld) (h : FindHandle) : DirWorld :=
  { w.flag (!w.search h) with search := Function.update w.search h false }

def hand (w : DirWorld) (data : FindData) : DirWorld := { w with handed := w.handed ++ [data] }

def refuse (w : DirWorld) : DirWorld := { w with refused := true }

/-- The pattern a search begins with is read. -/
def reads (w : DirWorld) (patt : Option Pattern) : DirWorld :=
  w.flag (patt.elim true fun p => (w.blocks p.block).isNone)

/-- How the system answers. A search may hand out any entry, and may end at any time. -/
def Answers (w : DirWorld) : (e : DirCall) → DirAnswer e → DirWorld → Prop
  | .malloc size, r, w' => (r = (none : Option Block) ∧ w' = w) ∨
      ∃ b : Block, r = some b ∧ w.blocks b = none ∧ w' = w.allocate b size
  | .free b, _, w' => w' = w.free b
  | .getFullPathName _ buf size, (r : Nat × List WChar), w' =>
      w' = w.flag (buf.elim false fun b => !w.room b size) ∧
        (0 < r.1 → r.1 < size → r.2.length = r.1)
  | .store b text, _, w' => w' = w.flag (!w.room b (text.length + 1))
  | .findFirstFile patt, r, w' =>
      (r = (none : Option (FindHandle × FindData)) ∧ w' = (w.reads patt).refuse) ∨
        ∃ (h : FindHandle) (data : FindData), r = some (h, data) ∧ w.search h = false ∧
          w' = ((w.reads patt).opened h).hand data
  | .findNextFile h, r, w' =>
      (r = (none : Option FindData) ∧ w' = (w.flag (!w.search h)).refuse) ∨
        ∃ data : FindData, r = some data ∧ w' = (w.flag (!w.search h)).hand data
  | .findClose h, _, w' => w' = w.closed h
  | .setErrno _, _, w' => w' = w

end DirWorld

open DirWorld

/-- Nobody else has a hand in what these functions hold. -/
def dirWorld : Surroundings DirCall DirAnswer DirWorld := ⟨DirWorld.Answers, fun _ _ => False⟩

theorem dirWorld_quiet (w w' : DirWorld) : ¬ dirWorld.Drift w w' := id

theorem dirWorld_stable (P : DirWorld → Prop) : dirWorld.Stable P := fun _ _ _ h => h.elim

/-- The blocks of a stream. -/
def Wdir.blocks (dirp : Wdir) : List Block := [dirp.block] ++ (dirp.patt.map Pattern.block).toList

def Wdir.handles (dirp : Wdir) : List FindHandle := dirp.handle.toList

def Dir.blocks (dirp : Dir) : List Block := [dirp.block] ++ dirp.wdirp.blocks

/-- A trade of blocks and handles without misuse. -/
structure Deals (w w' : DirWorld) (bs bs' : List Block) (hs hs' : List FindHandle) : Prop where
  blocks : Trade w.Live w'.Live bs bs'
  handles : Trade w.Open w'.Open hs hs'
  misused : w'.misused = w.misused

section Deals

variable {w w' w'' : DirWorld} {bs bs' bs'' es : List Block} {hs hs' hs'' : List FindHandle}
  {b : Block} {h : FindHandle}

/-- What is held before. -/
structure Has (w : DirWorld) (bs : List Block) (hs : List FindHandle) : Prop where
  blocks : Holds w.Live bs
  handles : Holds w.Open hs

theorem Deals.has (h : Deals w w' bs bs' hs hs') : Has w' bs' hs' :=
  ⟨h.blocks.holds, h.handles.holds⟩

theorem Deals.refl (h : Has w bs hs) : Deals w w bs bs hs hs :=
  ⟨.refl h.blocks, .refl h.handles, rfl⟩

theorem Deals.trans (h : Deals w w' bs bs' hs hs') (h' : Deals w' w'' bs' bs'' hs' hs'') :
    Deals w w'' bs bs'' hs hs'' :=
  ⟨h.blocks.trans h'.blocks, h.handles.trans h'.handles, h'.misused.trans h.misused⟩

theorem Deals.frame (h : Deals w w' bs bs' hs hs') (hes : Holds w.Live (es ++ bs)) :
    Deals w w' (es ++ bs) (es ++ bs') hs hs' :=
  ⟨h.blocks.frame hes, h.handles, h.misused⟩

/-- What is said changes nothing that is held. -/
theorem Deals.same (hb : w'.blocks = w.blocks) (hs' : w'.search = w.search)
    (hm : w'.misused = w.misused) (h : Has w bs hs) : Deals w w' bs bs hs hs := by
  have hlive : w'.Live = w.Live := funext fun b => by rw [Live, Live, hb]
  have hopen : w'.Open = w.Open := funext fun h => by rw [Open, Open, hs']
  refine ⟨?_, ?_, hm⟩
  · rw [hlive]
    exact .refl h.blocks
  · rw [hopen]
    exact .refl h.handles

theorem flag_false (w : DirWorld) : w.flag false = w := by
  cases w
  simp [flag]

theorem deals_allocate (hb : w.blocks b = none) (size : Nat) (hh : Holds w.Open hs) :
    Deals w (w.allocate b size) [] [b] hs hs where
  blocks := .make (fun y => by
    by_cases hy : y = b <;> simp [Live, allocate, hy]) (by simp [Live, hb])
  handles := .refl hh
  misused := rfl

theorem deals_free (hb : w.Live b) (hh : Holds w.Open hs) : Deals w (w.free b) [b] [] hs hs where
  blocks := .drop fun y => by
    by_cases hy : y = b <;> simp [Live, free, flag, hy]
  handles := .refl hh
  misused := by
    have hsome : (w.blocks b).isNone = false := by simpa [Live] using hb
    simp [free, flag, hsome]

theorem deals_opened (hh : w.search h = false) (hb : Holds w.Live bs) :
    Deals w (w.opened h) bs bs [] [h] where
  blocks := .refl hb
  handles := .make (fun y => by
    by_cases hy : y = h <;> simp [Open, opened, hy]) (by simp [Open, hh])
  misused := rfl

theorem deals_closed (hh : w.Open h) (hb : Holds w.Live bs) :
    Deals w (w.closed h) bs bs [h] [] where
  blocks := .refl hb
  handles := .drop fun y => by
    by_cases hy : y = h <;> simp [Open, closed, flag, hy]
  misused := by
    have hopen : w.search h = true := hh
    simp [closed, flag, hopen]

/-- No entry is handed out or refused. -/
structure Mute (w w' : DirWorld) : Prop where
  handed : w'.handed = w.handed
  refused : w'.refused = w.refused

theorem Mute.trans (h : Mute w w') (h' : Mute w' w'') : Mute w w'' :=
  ⟨h'.handed.trans h.handed, h'.refused.trans h.refused⟩

theorem flag_room {size words : Nat} (hb : w.blocks b = some size) (hroom : 2 * words ≤ size) :
    w.flag (!w.room b words) = w := by
  have : w.room b words = true := by simp [room, hb, hroom]
  rw [this]
  exact flag_false w

end Deals

/-! ## The functions -/

section Functions

variable {w w' : DirWorld} {dirp : Wdir} {bs : List Block} {hs : List FindHandle}

/-- What `dirent_first` does where no search is open. -/
inductive First (w : DirWorld) (dirp : Wdir) : Wdir × Option FindData → DirWorld → Prop where
  | found (h : FindHandle) (data : FindData) : w.search h = false →
      First w dirp ({ dirp with handle := some h, data := data, cached := true }, some data)
        ((w.opened h).hand data)
  | refused : First w dirp ({ dirp with handle := none, cached := false }, none) w.refuse

/-- What `dirent_next` does. -/
inductive Next (w : DirWorld) (dirp : Wdir) : Wdir × Option FindData → DirWorld → Prop where
  | cached : dirp.cached = true →
      Next w dirp ({ dirp with cached := false }, some dirp.data) w
  | found (h : FindHandle) (data : FindData) : dirp.cached = false → dirp.handle = some h →
      Next w dirp ({ dirp with data := data }, some data) (w.hand data)
  | last (h : FindHandle) : dirp.cached = false → dirp.handle = some h →
      Next w dirp ({ dirp with handle := none }, none) (w.refuse.closed h)
  | ended : dirp.cached = false → dirp.handle = none → Next w dirp (dirp, none) w

theorem reads_eq {p : Pattern} (hp : dirp.patt = some p) (hlive : w.Live p.block) :
    w.reads dirp.patt = w := by
  have hsome : (w.blocks p.block).isNone = false := by simpa [Live] using hlive
  rw [reads, hp, Option.elim_some, hsome]
  exact flag_false w

theorem direntFirst_meets {p : Pattern} (hp : dirp.patt = some p) (hlive : w.Live p.block) :
    Meets dirWorld (· = w) (direntFirst dirp) (First w dirp) := by
  refine Meets.call_bind (M := fun r w' => w.Answers (.findFirstFile dirp.patt) r w')
    (dirWorld_stable _) (fun s r s' hs ha => hs ▸ ha) fun r => Meets.of_each fun w' ha => ?_
  simp only [Answers, reads_eq hp hlive] at ha
  rcases ha with ⟨rfl, rfl⟩ | ⟨h, data, rfl, hfree, rfl⟩
  · exact Meets.ret (dirWorld_stable _) fun s hs => hs ▸ .refused
  · exact Meets.ret (dirWorld_stable _) fun s hs => hs ▸ .found h data hfree

theorem direntNext_meets (hopen : ∀ h, dirp.handle = some h → w.Open h) :
    Meets dirWorld (· = w) (direntNext dirp) (Next w dirp) := by
  rw [direntNext]
  refine Meets.ite (fun hc => ?_) fun hc => ?_
  · exact Meets.ret (dirWorld_stable _) fun s hs => hs ▸ .cached hc
  · have hc : dirp.cached = false := by simpa using hc
    cases hh : dirp.handle with
    | none => exact Meets.ret (dirWorld_stable _) fun s hs => hs ▸ .ended hc hh
    | some h =>
        have hfine : w.flag (!w.search h) = w := by
          rw [show w.search h = true from hopen h hh]
          exact flag_false w
        refine Meets.call_bind (M := fun r w' => w.Answers (.findNextFile h) r w')
          (dirWorld_stable _) (fun s r s' hs ha => hs ▸ ha) fun r => Meets.of_each fun w' ha => ?_
        simp only [Answers, hfine] at ha
        rcases ha with ⟨rfl, rfl⟩ | ⟨data, rfl, rfl⟩
        · refine Meets.call_bind (M := fun _ w'' => w'' = w.refuse.closed h) (dirWorld_stable _)
            (fun s r s' hs ha => hs ▸ ha) fun r => ?_
          exact Meets.ret (dirWorld_stable _) fun s hs => hs ▸ .last h hc hh
        · refine Meets.ret (dirWorld_stable _) fun s hs => ?_
          rw [← hh]
          exact hs ▸ .found h data hc hh

theorem closeHandle_meets (hhas : Has w bs dirp.handles) :
    Meets dirWorld (· = w) (closeHandle dirp) fun _ w' =>
      Deals w w' bs bs dirp.handles [] ∧ Mute w w' := by
  rw [closeHandle]
  cases hh : dirp.handle with
  | none =>
      refine Meets.ret (dirWorld_stable _) fun s hs => ?_
      subst hs
      have hnil : dirp.handles = [] := by simp [Wdir.handles, hh]
      rw [hnil] at hhas ⊢
      exact ⟨.refl hhas, rfl, rfl⟩
  | some h =>
      have hone : dirp.handles = [h] := by simp [Wdir.handles, hh]
      rw [hone] at hhas ⊢
      refine Meets.one dirWorld_quiet fun s r s' hs ha => ?_
      subst hs
      have ha : s' = s.closed h := ha
      subst ha
      exact ⟨deals_closed (hhas.handles.live h (by simp)) hhas.blocks, rfl, rfl⟩

theorem releasePattern_meets (hhas : Has w dirp.blocks hs) :
    Meets dirWorld (· = w) (releasePattern dirp) fun _ w' =>
      Deals w w' dirp.blocks [dirp.block] hs hs := by
  rw [releasePattern]
  cases hp : dirp.patt with
  | none =>
      refine Meets.ret (dirWorld_stable _) fun s hs => ?_
      subst hs
      have hone : dirp.blocks = [dirp.block] := by simp [Wdir.blocks, hp]
      rw [hone] at hhas ⊢
      exact .refl hhas
  | some p =>
      have htwo : dirp.blocks = [dirp.block] ++ [p.block] := by simp [Wdir.blocks, hp]
      rw [htwo] at hhas ⊢
      refine Meets.one dirWorld_quiet fun s r s' hs ha => ?_
      subst hs
      have ha : s' = s.free p.block := ha
      subst ha
      exact (deals_free (hhas.blocks.live p.block (by simp)) hhas.handles).frame hhas.blocks

/-- `free` of one block more. -/
theorem release_meets {b : Block} (hhas : Has w [b] hs) :
    Meets dirWorld (· = w) (DirCall.release b) fun _ w' => Deals w w' [b] [] hs hs := by
  refine Meets.one dirWorld_quiet fun s r s' hs ha => ?_
  subst hs
  have ha : s' = s.free b := ha
  subst ha
  exact deals_free (hhas.blocks.live b (by simp)) hhas.handles

/-- **Closing a stream** gives back all it has. -/
theorem wclosedir_meets (hhas : Has w dirp.blocks dirp.handles) :
    Meets dirWorld (· = w) (wclosedir (some dirp)) fun rc w' =>
      rc = 0 ∧ Deals w w' dirp.blocks [] dirp.handles [] := by
  refine Meets.bind (closeHandle_meets hhas) fun _ => Meets.of_each fun w₁ h₁ => ?_
  refine Meets.bind (releasePattern_meets h₁.1.has) fun _ => Meets.of_each fun w₂ h₂ => ?_
  refine Meets.bind (release_meets h₂.has) fun _ => ?_
  exact Meets.ret (dirWorld_stable _) fun s h₃ => ⟨rfl, (h₁.1.trans h₂).trans h₃⟩

theorem wfail_meets (hhas : Has w dirp.blocks dirp.handles) (e : Errno) :
    Meets dirWorld (· = w) (wfail dirp e) fun r w' =>
      r = none ∧ Deals w w' dirp.blocks [] dirp.handles [] := by
  refine Meets.call_bind (M := fun _ w' => w' = w) (dirWorld_stable _)
    (fun s r s' hs ha => hs ▸ ha) fun _ => ?_
  refine Meets.bind (wclosedir_meets hhas) fun _ => ?_
  exact Meets.ret (dirWorld_stable _) fun s hs => ⟨rfl, hs.2⟩

theorem First.deals {r : Wdir × Option FindData} (h : First w dirp r w') (hhas : Has w bs []) :
    Deals w w' bs bs [] r.1.handles := by
  cases h with
  | found h data hfree =>
      have hd := deals_opened hfree hhas.blocks
      exact hd.trans (.same rfl rfl rfl hd.has)
  | refused => exact .same rfl rfl rfl hhas

/-- A stream that has just begun: the first entry waits. -/
structure Begun (w w' : DirWorld) (dirp : Wdir) : Prop where
  cached : dirp.cached = true
  handle : dirp.handle ≠ none
  patt : dirp.patt ≠ none
  handed : w'.handed = w.handed ++ [dirp.data]
  refused : w'.refused = w.refused

/-- A stream for `bs`, or nothing for it. -/
def Opened (w w' : DirWorld) (bs : List Block) : Option Wdir → Prop
  | some dirp => Deals w w' bs dirp.blocks [] dirp.handles ∧ Begun w w' dirp
  | none => Deals w w' bs [] [] []

theorem Mute.begun {w₁ : DirWorld} (hm : Mute w w₁) (h : Begun w₁ w' dirp) : Begun w w' dirp :=
  ⟨h.cached, h.handle, h.patt, h.handed.trans (by rw [hm.handed]), h.refused.trans hm.refused⟩

theorem Opened.after {w₁ : DirWorld} {bs₁ : List Block} {r : Option Wdir}
    (h : Opened w₁ w' bs₁ r) (hd : Deals w w₁ bs bs₁ [] []) (hm : Mute w w₁) :
    Opened w w' bs r := by
  cases r with
  | none => exact hd.trans h
  | some dirp => exact ⟨hd.trans h.1, hm.begun h.2⟩

theorem length_searchPattern_le (path : List WChar) :
    (searchPattern path).length ≤ path.length + 2 := by
  rw [searchPattern]
  cases path.getLast? with
  | none => simp
  | some c => by_cases hc : c ∈ separators <;> simp [hc]

/-- The search pattern is within its block, whatever the system says how long a path is. -/
theorem wopenPattern_meets {patt : Block} {n : Nat} (hhandle : dirp.handle = none)
    (hsize : w.blocks patt = some (2 * n + 16))
    (hhas : Has w ([dirp.block] ++ [patt]) []) (dirname : List WChar) :
    Meets dirWorld (· = w) (wopenPattern dirp patt dirname n) fun r w' =>
      Opened w w' ([dirp.block] ++ [patt]) r := by
  refine Meets.call_bind (M := fun r w' => w.Answers (.getFullPathName dirname (some patt) n) r w')
    (dirWorld_stable _) (fun s r s' hs ha => hs ▸ ha) fun r => Meets.of_each fun w₁ ha => ?_
  obtain ⟨rfl, hlen⟩ := ha
  rw [Option.elim_some, flag_room hsize (by omega)]
  obtain ⟨len, path⟩ := r
  refine Meets.ite (fun hin => ?_) fun _ => ?_
  · -- two characters more and a terminator
    have hroom : 2 * ((searchPattern path).length + 1) ≤ 2 * n + 16 := by
      have := length_searchPattern_le path
      have : path.length = len := hlen hin.1 hin.2
      omega
    refine Meets.call_bind (M := fun _ w' => w' = w) (dirWorld_stable _) (fun s r s' hs ha => ?_)
      fun _ => ?_
    · subst hs
      exact ha.trans (flag_room hsize hroom)
    have hlive : w.Live patt := by simp [Live, hsize]
    refine Meets.bind (direntFirst_meets rfl hlive) fun r => Meets.of_each fun w₂ h₂ => ?_
    have hd := h₂.deals hhas
    cases h₂ with
    | found h data hfree =>
        exact Meets.ret (dirWorld_stable _) fun s hs => hs ▸ ⟨hd, rfl, nofun, nofun, rfl, rfl⟩
    | refused =>
        have hhas' := hd.has
        refine (wfail_meets hhas' enoent).mono (fun _ => id) fun r s hs => ?_
        obtain ⟨rfl, hs⟩ := hs
        exact hd.trans hs
  · have hnil : ({ dirp with patt := some ⟨patt, []⟩ } : Wdir).handles = [] := by
      simp [Wdir.handles, hhandle]
    have hhas' : Has w ({ dirp with patt := some ⟨patt, []⟩ } : Wdir).blocks
        ({ dirp with patt := some ⟨patt, []⟩ } : Wdir).handles := by
      rw [hnil]
      exact hhas
    refine (wfail_meets hhas' enoent).mono (fun _ => id) fun r s hs => ?_
    obtain ⟨rfl, hs⟩ := hs
    rw [hnil] at hs
    exact hs

/-- A call that allocates a block beside `bs`. -/
theorem alloc_meets (size : Nat) (hhas : Has w bs []) :
    Meets dirWorld (· = w) (DirCall.alloc size) fun r w' => (r = none ∧ w' = w) ∨
      ∃ b, r = some b ∧ w'.blocks b = some size ∧ Deals w w' bs (bs ++ [b]) [] [] ∧ Mute w w' := by
  refine Meets.one dirWorld_quiet fun s r s' hs ha => ?_
  subst hs
  rcases ha with ha | ⟨b, rfl, hb, rfl⟩
  · exact .inl ha
  · have hbs : Holds s.Live (bs ++ []) := by simpa using hhas.blocks
    have hd := (deals_allocate hb size hhas.handles).frame hbs
    rw [List.append_nil] at hd
    exact .inr ⟨b, rfl, by simp [allocate], hd, rfl, rfl⟩

/-- Setting `errno` changes nothing else. -/
theorem errno_meets {α : Type} (e : Errno) (a : α) :
    Meets dirWorld (· = w) (do DirCall.errno e; return a) fun r w' => r = a ∧ w' = w :=
  Meets.call_bind (M := fun _ w' => w' = w) (dirWorld_stable _) (fun _ _ _ hs ha => hs ▸ ha)
    fun _ => Meets.ret (dirWorld_stable _) fun _ hs => ⟨rfl, hs⟩

/-- **`_wopendir`** gives back everything if it fails. -/
theorem wopendir_meets (abi : DirentAbi) (junk : FindData) (dirname : Option (List WChar))
    (hhas : Has w [] []) : Meets dirWorld (· = w) (wopendir abi junk dirname) fun r w' =>
      Opened w w' [] r := by
  have hnone : Meets dirWorld (· = w) (do DirCall.errno enoent; return none) fun r w' =>
      Opened w w' [] r := by
    refine (errno_meets enoent none).mono (fun _ => id) fun r s hs => ?_
    obtain ⟨rfl, rfl⟩ := hs
    exact Deals.refl hhas
  rcases dirname with _ | ⟨_ | ⟨c, dirname⟩⟩
  · exact hnone
  · exact hnone
  refine Meets.bind (alloc_meets abi.sizeofWdir hhas) fun r => Meets.of_each fun w₁ h₁ => ?_
  rcases h₁ with ⟨rfl, rfl⟩ | ⟨block, rfl, -, hd₁, hm₁⟩
  · refine Meets.ret (dirWorld_stable _) fun s hs => ?_
    subst hs
    exact Deals.refl hhas
  have hd₁ : Deals w w₁ [] [block] [] [] := hd₁
  refine Meets.mono (P := (· = w₁)) (Q := fun r w' => Opened w₁ w' [block] r) ?_ (fun _ => id)
    fun r s hs => hs.after hd₁ hm₁
  refine Meets.call_bind (M := fun _ w' => w' = w₁) (dirWorld_stable _) (fun s r s' hs ha => ?_)
    fun r => ?_
  · subst hs
    exact ha.1.trans (flag_false s)
  have hfail : Meets dirWorld (· = w₁) (wfail ⟨block, junk, false, none, none⟩ .ENOMEM)
      fun r w' => Opened w₁ w' [block] r := by
    refine (wfail_meets hd₁.has .ENOMEM).mono (fun _ => id) fun r s hs => ?_
    obtain ⟨rfl, hs⟩ := hs
    exact hs
  refine Meets.ite (fun _ => ?_) fun _ => hfail
  refine Meets.bind (alloc_meets (2 * r.1 + 16) hd₁.has) fun r' => Meets.of_each fun w₂ h₂ => ?_
  rcases h₂ with ⟨rfl, rfl⟩ | ⟨patt, rfl, hsize, hd₂, hm₂⟩
  · exact hfail
  · refine (wopenPattern_meets rfl hsize hd₂.has (c :: dirname)).mono (fun _ => id)
      fun r s hs => hs.after hd₂ hm₂

end Functions

end LibrePortable.Win
