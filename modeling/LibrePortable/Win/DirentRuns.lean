import LibrePortable.Win.DirentOwn

/-!
# Runs over directory streams

A client opens, reads, rewinds and closes any number of streams of both kinds, in any
order. What the system hands out for a stream is kept beside it, from the last time its
search began, and so is what the client has read.

Two things are shown of every run. The entries of a stream are read once each and in
order, though one is always a step ahead, and none is left when NULL is returned. And the
streams hold exactly what is live.
-/

namespace LibrePortable.Win

open Lib Prog DirWorld

/-- A stream, and which of the two kinds it is. -/
inductive DirStream where
  | wide (dirp : Wdir)
  | narrow (dirp : Dir)

/-- An entry as the client sees it. -/
abbrev DirEntry : Type := Dirent WChar ⊕ Dirent CChar

namespace DirStream

def wdirp : DirStream → Wdir
  | .wide dirp => dirp
  | .narrow dirp => dirp.wdirp

def blocks : DirStream → List Block
  | .wide dirp => dirp.blocks
  | .narrow dirp => dirp.blocks

def entry (abi : DirentAbi) (cp : Codepage) : DirStream → FindData → DirEntry
  | .wide _, data => .inl (wentry abi data)
  | .narrow _, data => .inr (Win.entry abi cp data)

end DirStream

/-- What a variable of the client holds, which may be NULL. -/
def blocksOf (st : Option DirStream) : List Block := st.elim [] DirStream.blocks

def handlesOf (st : Option DirStream) : List FindHandle := st.elim [] fun st => st.wdirp.handles

inductive DirOp where
  | wopendir (dirname : Option (List WChar))
  | opendir (dirname : Option (List CChar))
  | wreaddir
  | readdir
  | wrewinddir
  | rewinddir
  | wclosedir
  | closedir

inductive DirResult where
  | opened (ok : Bool)
  | entry (e : Option DirEntry)
  | rewound
  | closed (rc : Int)
  deriving DecidableEq

/-- An operation on a variable of the client. -/
def DirOp.run (abi : DirentAbi) (cp : Codepage) (junk : FindData) :
    DirOp → Option DirStream → Option (DirProg (Option DirStream × DirResult))
  | .wopendir dirname, none => some do
      let dirp ← Win.wopendir abi junk dirname
      return (dirp.map .wide, .opened dirp.isSome)
  | .opendir dirname, none => some do
      let dirp ← Win.opendir abi cp junk dirname
      return (dirp.map .narrow, .opened dirp.isSome)
  | .wreaddir, some (.wide dirp) => some do
      let (dirp, entp) ← Win.wreaddir abi dirp
      return (some (.wide dirp), .entry (entp.map .inl))
  | .readdir, some (.narrow dirp) => some do
      let (dirp, entp) ← Win.readdir abi cp dirp
      return (some (.narrow dirp), .entry (entp.map .inr))
  | .wrewinddir, some (.wide dirp) => some do
      let dirp ← Win.wrewinddir dirp
      return (some (.wide dirp), .rewound)
  | .rewinddir, some (.narrow dirp) => some do
      let dirp ← Win.rewinddir dirp
      return (some (.narrow dirp), .rewound)
  | .wclosedir, some (.wide dirp) => some do
      let rc ← Win.wclosedir (some dirp)
      return (none, .closed rc)
  | .closedir, some (.narrow dirp) => some do
      let rc ← Win.closedir (some dirp)
      return (none, .closed rc)
  | .wclosedir, none => some do
      let rc ← Win.wclosedir none
      return (none, .closed rc)
  | .closedir, none => some do
      let rc ← Win.closedir none
      return (none, .closed rc)
  | _, _ => none

/-- A stream since its search began. -/
structure Listing where
  /-- What the system handed out. -/
  found : List FindData
  /-- What the client was given. -/
  read : List DirEntry
  /-- The search has failed, or the system has said that there is nothing more. -/
  finished : Bool

/-- After an operation during which the system said what `w` has recorded. -/
def Listing.next (l : Listing) (w : DirWorld) : DirResult → Listing
  | .entry e => ⟨l.found ++ w.handed, l.read ++ e.toList, l.finished || w.refused⟩
  | _ => ⟨w.handed, [], w.refused⟩

structure DirState where
  world : DirWorld
  streams : Nat → Option (DirStream × Listing)

namespace DirState

def stream (s : DirState) (i : Nat) : Option DirStream := (s.streams i).map Prod.fst

def listing (s : DirState) (i : Nat) : Listing := (s.streams i).elim ⟨[], [], false⟩ Prod.snd

end DirState

/-- Before an operation nothing has been said. -/
def DirWorld.silent (w : DirWorld) : DirWorld := { w with handed := [], refused := false }

/-- A client with its variables. Nothing is live at first. -/
def directories (abi : DirentAbi) (cp : Codepage) : Lts DirState (Nat × DirOp × DirResult) where
  Init s := (∀ b, ¬ s.world.Live b) ∧ (∀ h, ¬ s.world.Open h) ∧ s.world.misused = false ∧
    ∀ i, s.streams i = none
  Step s e s' := ∃ junk p tr st, e.2.1.run abi cp junk (s.stream e.1) = some p ∧
    Exec dirWorld p s.world.silent tr (st, e.2.2) s'.world ∧
    s'.streams = Function.update s.streams e.1
      (st.map fun st => (st, (s.listing e.1).next s'.world e.2.2))

/-! ## One operation -/

/-- The listing of a stream: what was handed out has been read, but for an entry that waits. -/
structure Tells (f : FindData → DirEntry) (dirp : Wdir) (l : Listing) : Prop where
  patt : dirp.patt ≠ none
  waits : dirp.cached = true → dirp.handle ≠ none
  found : l.found.map f = l.read ++ if dirp.cached then [f dirp.data] else []
  finished : l.finished = dirp.handle.isNone

section Operations

variable {abi : DirentAbi} {cp : Codepage} {w w' : DirWorld} {dirp : Wdir} {l : Listing}
  {f : FindData → DirEntry} {bs : List Block} {r : Wdir × Option FindData}

/-- Nothing has been said. -/
def Silent (w : DirWorld) : Prop := w.handed = [] ∧ w.refused = false

theorem Next.deals (h : Next w dirp r w') (hhas : Has w bs dirp.handles) :
    Deals w w' bs bs dirp.handles r.1.handles := by
  cases h with
  | cached hc => exact .refl hhas
  | found h data hc hh => exact .same rfl rfl rfl hhas
  | last h hc hh =>
      have hone : dirp.handles = [h] := by simp [Wdir.handles, hh]
      rw [hone] at hhas ⊢
      have hd : Deals w w.refuse bs bs [h] [h] := .same rfl rfl rfl hhas
      exact hd.trans (deals_closed (hd.has.handles.live h (by simp)) hd.has.blocks)
  | ended hc hh => exact .refl hhas

theorem Next.blocks_eq (h : Next w dirp r w') : r.1.blocks = dirp.blocks := by
  cases h <;> rfl

theorem First.blocks_eq (h : First w dirp r w') : r.1.blocks = dirp.blocks := by
  cases h <;> rfl

/-- **`dirent_next` reads on.** It returns nothing exactly if the search is over. -/
theorem Next.tells (h : Next w dirp r w') (ht : Tells f dirp l) (hw : Silent w) :
    Tells f r.1 (l.next w' (.entry (r.2.map f))) ∧ (r.2 = none ↔ r.1.handle = none) := by
  obtain ⟨hhanded, hrefused⟩ := hw
  have hfound := ht.found
  cases h with
  | cached hc =>
      rw [if_pos hc] at hfound
      refine ⟨⟨ht.patt, nofun, ?_, ?_⟩, ⟨nofun, fun hn => absurd hn (ht.waits hc)⟩⟩
      · simpa [Listing.next, hhanded] using hfound
      · simpa [Listing.next, hrefused] using ht.finished
  | found h data hc hh =>
      rw [hc] at hfound
      refine ⟨⟨ht.patt, ht.waits, ?_, ?_⟩, ⟨nofun, fun hn => ?_⟩⟩
      · simpa [Listing.next, hand, hhanded, hc] using hfound
      · simpa [Listing.next, hand, hrefused] using ht.finished
      · rw [show dirp.handle = none from hn] at hh
        cases hh
  | last h hc hh =>
      rw [hc] at hfound
      refine ⟨⟨ht.patt, fun h => ?_, ?_, ?_⟩, ⟨fun _ => rfl, fun _ => rfl⟩⟩
      · rw [show dirp.cached = true from h] at hc
        cases hc
      · simpa [Listing.next, refuse, closed, flag, hhanded, hc] using hfound
      · simp [Listing.next, refuse, closed, flag]
  | ended hc hh =>
      rw [hc] at hfound
      refine ⟨⟨ht.patt, ht.waits, ?_, ?_⟩, ⟨fun _ => hh, fun _ => rfl⟩⟩
      · simpa [Listing.next, hhanded, hc] using hfound
      · simpa [Listing.next, hrefused] using ht.finished

theorem First.tells (h : First w dirp r w') (hpatt : dirp.patt ≠ none) (hw : Silent w) :
    Tells f r.1 ⟨w'.handed, [], w'.refused⟩ := by
  obtain ⟨hhanded, hrefused⟩ := hw
  cases h with
  | found h data hfree =>
      exact ⟨hpatt, fun _ => Option.some_ne_none h, by simp [hand, opened, hhanded],
        by simp [hand, opened, hrefused]⟩
  | refused =>
      refine ⟨hpatt, fun hc => ?_, by simp [refuse, hhanded], by simp [refuse]⟩
      cases hc

theorem Begun.tells (h : Begun w w' dirp) (hw : Silent w) :
    Tells f dirp ⟨w'.handed, [], w'.refused⟩ := by
  obtain ⟨hhanded, hrefused⟩ := hw
  refine ⟨h.patt, fun _ => h.handle, ?_, ?_⟩
  · simp [h.handed, hhanded, h.cached]
  · simp [h.refused, hrefused, Option.isSome_iff_ne_none.mpr h.handle]

theorem has_frame {b : Block} {hs : List FindHandle} (h : Has w ([b] ++ bs) hs) : Has w bs hs :=
  ⟨⟨(List.nodup_append.mp h.blocks.nodup).2.1, fun x hx =>
    h.blocks.live x (List.mem_append_right _ hx)⟩, h.handles⟩

theorem wrewinddir_meets (hhas : Has w bs dirp.handles) (hbs : ∀ b ∈ dirp.blocks, b ∈ bs)
    (hpatt : dirp.patt ≠ none) (hw : Silent w) :
    Meets dirWorld (· = w) (wrewinddir dirp) fun r w' =>
      Deals w w' bs bs dirp.handles r.handles ∧ r.blocks = dirp.blocks ∧
        ∀ f, Tells f r ⟨w'.handed, [], w'.refused⟩ := by
  obtain ⟨p, hp⟩ := Option.ne_none_iff_exists'.mp hpatt
  refine Meets.bind (closeHandle_meets hhas) fun _ => Meets.of_each fun w₁ h₁ => ?_
  obtain ⟨hd, hm⟩ := h₁
  have hw₁ : Silent w₁ := ⟨hm.handed.trans hw.1, hm.refused.trans hw.2⟩
  have hlive : w₁.Live p.block := hd.has.blocks.live _ (hbs _ (by simp [Wdir.blocks, hp]))
  refine Meets.bind (direntFirst_meets hp hlive) fun r => Meets.of_each fun w₂ h₂ => ?_
  refine Meets.ret (dirWorld_stable _) fun s hs => ?_
  subst hs
  exact ⟨hd.trans (h₂.deals hd.has), h₂.blocks_eq, fun f => h₂.tells hpatt hw₁⟩

/-- A new stream, or nothing. -/
def OpenedDir (w w' : DirWorld) : Option Dir → Prop
  | some dirp => Deals w w' [] dirp.blocks [] dirp.wdirp.handles ∧ Begun w w' dirp.wdirp
  | none => Deals w w' [] [] [] []

theorem opendir_meets (abi : DirentAbi) (cp : Codepage) (junk : FindData)
    (dirname : Option (List CChar)) (hhas : Has w [] []) :
    Meets dirWorld (· = w) (opendir abi cp junk dirname) fun r w' => OpenedDir w w' r := by
  have hnone : Meets dirWorld (· = w) (do DirCall.errno enoent; return none)
      fun r w' => OpenedDir w w' r := by
    refine (errno_meets enoent none).mono (fun _ => id) fun r s hs => ?_
    obtain ⟨rfl, rfl⟩ := hs
    exact Deals.refl hhas
  rcases dirname with _ | ⟨_ | ⟨c, dirname⟩⟩
  · exact hnone
  · exact hnone
  refine Meets.bind (alloc_meets abi.sizeofDir hhas) fun r => Meets.of_each fun w₁ h₁ => ?_
  rcases h₁ with ⟨rfl, rfl⟩ | ⟨block, rfl, -, hd₁, hm₁⟩
  · refine Meets.ret (dirWorld_stable _) fun s hs => ?_
    subst hs
    exact Deals.refl hhas
  have hd₁ : Deals w w₁ [] [block] [] [] := hd₁
  have hfail : ∀ w₂, Deals w w₂ [] [block] [] [] → Meets dirWorld (· = w₂)
      (do DirCall.release block; return none) fun r w' => OpenedDir w w' r := fun w₂ hd₂ => by
    refine Meets.bind (release_meets hd₂.has) fun _ => ?_
    exact Meets.ret (dirWorld_stable _) fun s hs => hd₂.trans hs
  dsimp only
  cases cp.widen (c :: dirname) with
  | none => exact hfail w₁ hd₁
  | some wname =>
      have hempty : Has w₁ [] [] := ⟨⟨.nil, nofun⟩, hd₁.has.handles⟩
      refine Meets.bind (wopendir_meets abi junk (some wname) hempty) fun r =>
        Meets.of_each fun w₂ h₂ => ?_
      cases r with
      | none =>
          have hd₂ : Deals w₁ w₂ ([block] ++ []) ([block] ++ []) [] [] :=
            Deals.frame h₂ (by simpa using hd₁.has.blocks)
          exact hfail w₂ (hd₁.trans hd₂)
      | some wdirp =>
          obtain ⟨hd, hb⟩ := h₂
          have hd₂ : Deals w₁ w₂ ([block] ++ []) ([block] ++ wdirp.blocks) [] wdirp.handles :=
            hd.frame (by simpa using hd₁.has.blocks)
          refine Meets.ret (dirWorld_stable _) fun s hs => ?_
          subst hs
          exact ⟨hd₁.trans hd₂, hm₁.begun hb⟩

theorem closedir_meets {dirp : Dir} (hhas : Has w dirp.blocks dirp.wdirp.handles) :
    Meets dirWorld (· = w) (closedir (some dirp)) fun rc w' =>
      rc = 0 ∧ Deals w w' dirp.blocks [] dirp.wdirp.handles [] := by
  refine Meets.bind (wclosedir_meets (has_frame hhas)) fun rc => Meets.of_each fun w₁ h₁ => ?_
  obtain ⟨rfl, hd⟩ := h₁
  have hd₁ : Deals w w₁ ([dirp.block] ++ dirp.wdirp.blocks) ([dirp.block] ++ [])
      dirp.wdirp.handles [] := hd.frame hhas.blocks
  refine Meets.bind (release_meets hd₁.has) fun _ => ?_
  exact Meets.ret (dirWorld_stable _) fun s hs => ⟨rfl, hd₁.trans hs⟩

theorem wreaddir_meets (hopen : ∀ h, dirp.handle = some h → w.Open h) :
    Meets dirWorld (· = w) (wreaddir abi dirp) fun r w' =>
      ∃ r₀, Next w dirp r₀ w' ∧ r = (r₀.1, r₀.2.map (wentry abi)) :=
  Meets.bind (direntNext_meets hopen) fun r =>
    Meets.ret (dirWorld_stable _) fun _ hs => ⟨r, hs, rfl⟩

theorem readdir_meets {dirp : Dir} (hopen : ∀ h, dirp.wdirp.handle = some h → w.Open h) :
    Meets dirWorld (· = w) (readdir abi cp dirp) fun r w' =>
      ∃ r₀, Next w dirp.wdirp r₀ w' ∧
        r = ({ dirp with wdirp := r₀.1 }, r₀.2.map (entry abi cp)) :=
  Meets.bind (direntNext_meets hopen) fun r =>
    Meets.ret (dirWorld_stable _) fun _ hs => ⟨r, hs, rfl⟩

theorem rewinddir_meets {dirp : Dir} (hhas : Has w dirp.blocks dirp.wdirp.handles)
    (hpatt : dirp.wdirp.patt ≠ none) (hw : Silent w) :
    Meets dirWorld (· = w) (rewinddir dirp) fun r w' =>
      Deals w w' dirp.blocks dirp.blocks dirp.wdirp.handles r.wdirp.handles ∧
        r.blocks = dirp.blocks ∧ ∀ f, Tells f r.wdirp ⟨w'.handed, [], w'.refused⟩ :=
  Meets.bind (wrewinddir_meets hhas (fun _ h => List.mem_append_right _ h) hpatt hw) fun _ =>
    Meets.ret (dirWorld_stable _) fun _ hs =>
      ⟨hs.1, congrArg ([dirp.block] ++ ·) hs.2.1, hs.2.2⟩

theorem Has.open_handle (h : Has w bs dirp.handles) : ∀ x, dirp.handle = some x → w.Open x :=
  fun x hx => h.handles.live x (by simp [Wdir.handles, hx])

/-- What an operation does to a variable and to its listing. -/
structure DirStep (abi : DirentAbi) (cp : Codepage) (l : Listing) (w w' : DirWorld)
    (st : Option DirStream) (r : Option DirStream × DirResult) : Prop where
  deals : Deals w w' (blocksOf st) (blocksOf r.1) (handlesOf st) (handlesOf r.1)
  tells : ∀ st', r.1 = some st' → Tells (st'.entry abi cp) st'.wdirp (l.next w' r.2)
  /-- Nothing is returned exactly if the search is over. -/
  ends : ∀ e, r.2 = .entry e → ∃ st', r.1 = some st' ∧ (e = none ↔ st'.wdirp.handle = none)

/-- Both kinds of streams are read in the same way. -/
theorem Next.step (st : DirStream) {st' : DirStream} {r : Wdir × Option FindData}
    {e : Option DirEntry}
    (hn : Next w st.wdirp r w') (hhas : Has w st.blocks st.wdirp.handles)
    (ht : Tells (st.entry abi cp) st.wdirp l) (hw : Silent w) (hwdirp : st'.wdirp = r.1)
    (hblocks : st'.blocks = st.blocks) (hentry : st'.entry abi cp = st.entry abi cp)
    (he : e = r.2.map (st.entry abi cp)) :
    DirStep abi cp l w w' (some st) (some st', .entry e) := by
  obtain ⟨htells, hends⟩ := hn.tells ht hw
  subst he
  refine ⟨?_, fun st₁ h => ?_, fun e h => ⟨st', rfl, ?_⟩⟩
  · show Deals w w' st.blocks st'.blocks st.wdirp.handles st'.wdirp.handles
    rw [hblocks, hwdirp]
    exact hn.deals hhas
  · obtain rfl : st' = st₁ := Option.some.inj h
    rw [hentry, hwdirp]
    exact htells
  · cases h
    rw [hwdirp, Option.map_eq_none_iff]
    exact hends

/-- A search that has begun, or begun again. -/
theorem DirStep.searched {st : Option DirStream} (st' : DirStream) {bs : List Block}
    {r : DirResult} (hd : Deals w w' (blocksOf st) bs (handlesOf st) st'.wdirp.handles)
    (hblocks : st'.blocks = bs)
    (ht : Tells (st'.entry abi cp) st'.wdirp ⟨w'.handed, [], w'.refused⟩)
    (hnext : l.next w' r = ⟨w'.handed, [], w'.refused⟩) (hr : ∀ e, r ≠ .entry e) :
    DirStep abi cp l w w' st (some st', r) := by
  subst hblocks
  refine ⟨hd, fun st₁ h => ?_, fun e he => absurd he (hr e)⟩
  obtain rfl : st' = st₁ := Option.some.inj h
  show Tells _ _ (l.next w' r)
  rw [hnext]
  exact ht

/-- **One operation**, whatever the system answers. -/
theorem DirOp.run_meets {junk : FindData} {op : DirOp} {st : Option DirStream}
    {p : DirProg (Option DirStream × DirResult)} (hp : op.run abi cp junk st = some p)
    (hhas : Has w (blocksOf st) (handlesOf st)) (hw : Silent w)
    (ht : ∀ s, st = some s → Tells (s.entry abi cp) s.wdirp l) :
    Meets dirWorld (· = w) p fun r w' => DirStep abi cp l w w' st r := by
  have hclosed : Meets dirWorld (· = w) (do DirCall.errno .EBADF; return (none, .closed (-1)))
      fun r w' => DirStep abi cp l w w' none r := by
    refine (errno_meets .EBADF _).mono (fun _ => id) fun r s hs => ?_
    obtain ⟨rfl, rfl⟩ := hs
    exact ⟨.refl ⟨⟨.nil, nofun⟩, ⟨.nil, nofun⟩⟩, nofun, nofun⟩
  cases op with
  | wopendir dirname =>
      rcases st with _ | ⟨_ | _⟩ <;> cases hp
      refine Meets.bind (wopendir_meets abi junk dirname hhas) fun r => ?_
      refine Meets.ret (dirWorld_stable _) fun s hs => ?_
      cases r with
      | none => exact ⟨hs, nofun, nofun⟩
      | some dirp => exact .searched (.wide dirp) hs.1 rfl (hs.2.tells hw) rfl nofun
  | opendir dirname =>
      rcases st with _ | ⟨_ | _⟩ <;> cases hp
      refine Meets.bind (opendir_meets abi cp junk dirname hhas) fun r => ?_
      refine Meets.ret (dirWorld_stable _) fun s hs => ?_
      cases r with
      | none => exact ⟨hs, nofun, nofun⟩
      | some dirp => exact .searched (.narrow dirp) hs.1 rfl (hs.2.tells hw) rfl nofun
  | wreaddir =>
      rcases st with _ | ⟨dirp | _⟩ <;> cases hp
      refine Meets.bind (wreaddir_meets hhas.open_handle) fun r => ?_
      refine Meets.ret (dirWorld_stable _) fun s hs => ?_
      obtain ⟨r₀, hn, rfl⟩ := hs
      exact hn.step (.wide dirp) hhas (ht _ rfl) hw rfl hn.blocks_eq rfl
        (Option.map_map _ _ _)
  | readdir =>
      rcases st with _ | ⟨_ | dirp⟩ <;> cases hp
      refine Meets.bind (readdir_meets hhas.open_handle) fun r => ?_
      refine Meets.ret (dirWorld_stable _) fun s hs => ?_
      obtain ⟨r₀, hn, rfl⟩ := hs
      exact hn.step (.narrow dirp) hhas (ht _ rfl) hw rfl
        (congrArg ([dirp.block] ++ ·) hn.blocks_eq) rfl (Option.map_map _ _ _)
  | wrewinddir =>
      rcases st with _ | ⟨dirp | _⟩ <;> cases hp
      refine Meets.bind (wrewinddir_meets hhas (fun _ h => h) (ht _ rfl).patt hw) fun r => ?_
      refine Meets.ret (dirWorld_stable _) fun s hs => ?_
      obtain ⟨hd, hblocks, htells⟩ := hs
      exact .searched (.wide r) hd hblocks (htells _) rfl nofun
  | rewinddir =>
      rcases st with _ | ⟨_ | dirp⟩ <;> cases hp
      refine Meets.bind (rewinddir_meets hhas (ht _ rfl).patt hw) fun r => ?_
      refine Meets.ret (dirWorld_stable _) fun s hs => ?_
      obtain ⟨hd, hblocks, htells⟩ := hs
      exact .searched (.narrow r) hd hblocks (htells _) rfl nofun
  | wclosedir =>
      rcases st with _ | ⟨dirp | _⟩ <;> cases hp
      · exact hclosed
      · refine Meets.bind (wclosedir_meets hhas) fun rc => ?_
        exact Meets.ret (dirWorld_stable _) fun s hs => ⟨hs.2, nofun, nofun⟩
  | closedir =>
      rcases st with _ | ⟨_ | dirp⟩ <;> cases hp
      · exact hclosed
      · refine Meets.bind (closedir_meets hhas) fun rc => ?_
        exact Meets.ret (dirWorld_stable _) fun s hs => ⟨hs.2, nofun, nofun⟩

end Operations

/-! ## Runs -/

/-- What holds of a client and its streams. -/
structure DirInv (abi : DirentAbi) (cp : Codepage) (s : DirState) : Prop where
  blocks : Accounts s.world.Live fun i => blocksOf (s.stream i)
  handles : Accounts s.world.Open fun i => handlesOf (s.stream i)
  misused : s.world.misused = false
  tells : ∀ i st l, s.streams i = some (st, l) → Tells (st.entry abi cp) st.wdirp l

section Runs

variable {abi : DirentAbi} {cp : Codepage} {s s' : DirState} {i : Nat} {op : DirOp}
  {r : DirResult}

theorem dirInv_init (h : (directories abi cp).Init s) : DirInv abi cp s := by
  obtain ⟨hlive, hopen, hmisused, hnone⟩ := h
  have hstream : ∀ i, s.stream i = none := fun i => by rw [DirState.stream, hnone i]; rfl
  refine ⟨?_, ?_, hmisused, fun i st l h => ?_⟩
  · simp only [hstream]
    exact Accounts.none hlive
  · simp only [hstream]
    exact Accounts.none hopen
  · rw [hnone i] at h
    cases h

/-- **A step is one operation on one variable.** -/
theorem directories_step (hi : DirInv abi cp s) (h : (directories abi cp).Step s (i, op, r) s') :
    ∃ st, DirStep abi cp (s.listing i) s.world.silent s'.world (s.stream i) (st, r) ∧
      s'.streams = Function.update s.streams i
        (st.map fun st => (st, (s.listing i).next s'.world r)) := by
  obtain ⟨junk, p, tr, st, hp, hexec, hs⟩ := h
  have hhas : Has s.world.silent (blocksOf (s.stream i)) (handlesOf (s.stream i)) :=
    ⟨hi.blocks.holds i, hi.handles.holds i⟩
  have ht : ∀ st, s.stream i = some st → Tells (st.entry abi cp) st.wdirp (s.listing i) := by
    intro st hst
    obtain ⟨⟨st', l⟩, hsome, heq⟩ := Option.map_eq_some_iff.mp hst
    obtain rfl : st' = st := heq
    have hl : s.listing i = l := by rw [DirState.listing, hsome]; rfl
    rw [hl]
    exact hi.tells i st' l hsome
  exact ⟨st, DirOp.run_meets hp hhas ⟨rfl, rfl⟩ ht _ tr _ _ rfl hexec, hs⟩

theorem dirInv_step (hi : DirInv abi cp s) (h : (directories abi cp).Step s (i, op, r) s') :
    DirInv abi cp s' := by
  obtain ⟨st, hd, hs⟩ := directories_step hi h
  have hself : s'.stream i = st := by
    rw [DirState.stream, hs, Function.update_self]
    cases st <;> rfl
  have hother : ∀ j, j ≠ i → s'.stream j = s.stream j := fun j hj => by
    rw [DirState.stream, hs, Function.update_of_ne hj]
    rfl
  have hupdate : ∀ {ρ : Type} (f : Option DirStream → List ρ),
      (fun j => f (s'.stream j)) = Function.update (fun j => f (s.stream j)) i (f st) := by
    intro ρ f
    funext j
    by_cases hj : j = i
    · subst hj
      rw [hself, Function.update_self]
    · rw [hother j hj, Function.update_of_ne hj]
  refine ⟨?_, ?_, hd.deals.misused.trans hi.misused, fun j st' l hj' => ?_⟩
  · rw [hupdate]
    exact Accounts.trade hi.blocks hd.deals.blocks
  · rw [hupdate]
    exact Accounts.trade hi.handles hd.deals.handles
  · by_cases hj : j = i
    · subst hj
      rw [hs, Function.update_self] at hj'
      obtain ⟨st₁, hst, heq⟩ := Option.map_eq_some_iff.mp hj'
      cases heq
      exact hd.tells st' hst
    · rw [hs, Function.update_of_ne hj] at hj'
      exact hi.tells j st' l hj'

theorem dirInv_reachable (h : (directories abi cp).Reachable s) : DirInv abi cp s :=
  h.invariant (fun _ => dirInv_init) fun _ _ _ _ hi hs => dirInv_step hi hs

/-- A system that hands out the entries of a script. A block is numbered by its size, or is
the next one. -/
def DirWorld.reply (script : List FindData) (w : DirWorld) :
    (e : DirCall) → Option (DirAnswer e × DirWorld × List FindData)
  | .malloc size =>
      match [size, size + 1].find? fun b => w.blocks b = none with
      | some b => some (some b, w.allocate b size, script)
      | none => some (none, w, script)
  | .free b => some ((), w.free b, script)
  | .getFullPathName name buf size =>
      some (if size = 0 then (name.length + 1, []) else (name.length, name),
        w.flag (buf.elim false fun b => !w.room b size), script)
  | .store b text => some ((), w.flag (!w.room b (text.length + 1)), script)
  | .findFirstFile patt =>
      match script with
      | data :: script => ([0, 1].find? fun h => w.search h = false).map fun h =>
          (some (h, data), ((w.reads patt).opened h).hand data, script)
      | [] => some (none, (w.reads patt).refuse, [])
  | .findNextFile h =>
      match script with
      | data :: script => some (some data, (w.flag (!w.search h)).hand data, script)
      | [] => some (none, (w.flag (!w.search h)).refuse, [])
  | .findClose h => some ((), w.closed h, script)
  | .setErrno _ => some ((), w, script)

theorem reply_sound {script script' : List FindData} {w w' : DirWorld} {e : DirCall}
    {a : DirAnswer e} (h : w.reply script e = some (a, w', script')) : w.Answers e a w' := by
  cases e with
  | malloc size =>
      rw [DirWorld.reply] at h
      split at h
      · next b hb =>
          cases h
          have hfree := List.find?_some hb
          exact .inr ⟨b, rfl, of_decide_eq_true hfree, rfl⟩
      · cases h
        exact .inl ⟨rfl, rfl⟩
  | getFullPathName name buf size =>
      cases h
      refine ⟨rfl, fun h₁ h₂ => ?_⟩
      split at h₂
      · next h0 => exact absurd h₂ (by rw [h0]; exact Nat.not_lt_zero _)
      · next h0 => simp [h0]
  | findFirstFile patt =>
      cases script with
      | nil =>
          cases h
          exact .inl ⟨rfl, rfl⟩
      | cons data script =>
          obtain ⟨x, hx, heq⟩ := Option.map_eq_some_iff.mp h
          cases heq
          have hfree := List.find?_some hx
          exact .inr ⟨x, data, rfl, of_decide_eq_true hfree, rfl⟩
  | findNextFile x =>
      cases script with
      | nil =>
          cases h
          exact .inl ⟨rfl, rfl⟩
      | cons data script =>
          cases h
          exact .inr ⟨data, rfl, rfl⟩
  | _ =>
      cases h
      rfl

/-- One operation of a client, with the entries that are handed out meanwhile. -/
def DirState.play (abi : DirentAbi) (cp : Codepage) (junk : FindData) (s : DirState) (i : Nat)
    (op : DirOp) (script : List FindData) : Option (DirResult × DirState) := do
  let p ← op.run abi cp junk (s.stream i)
  let ((st, r), w) ← p.follow DirWorld.reply script s.world.silent
  return (r, ⟨w, Function.update s.streams i (st.map fun st => (st, (s.listing i).next w r))⟩)

theorem play_step {junk : FindData} {script : List FindData}
    (h : s.play abi cp junk i op script = some (r, s')) :
    (directories abi cp).Step s (i, op, r) s' := by
  rw [DirState.play] at h
  obtain ⟨p, hp, h⟩ := Option.bind_eq_some_iff.mp h
  obtain ⟨⟨⟨st, r'⟩, w⟩, hfollow, h⟩ := Option.bind_eq_some_iff.mp h
  cases h
  have hsound : ∀ c w e a w' c', DirWorld.reply c w e = some (a, w', c') →
      ∃ w₁, Relation.ReflTransGen dirWorld.Drift w w₁ ∧ dirWorld.Answer w₁ e a w' :=
    fun _ _ _ _ _ _ h => ⟨_, .refl, reply_sound h⟩
  obtain ⟨tr, hexec⟩ := follow_exec hsound hfollow
  exact ⟨junk, p, tr, st, hp, hexec, rfl⟩

/-- **Directories are listed.** What the system has handed out since the search began has
been read, once each and in order, but for at most one entry. `readdir` returns NULL
exactly when the search is over, and then nothing is left to be read. -/
theorem dirent_lists (h : (directories abi cp).Reachable s) :
    (∀ i st l, s.streams i = some (st, l) → ∃ waiting, waiting.length ≤ 1 ∧
      l.found.map (st.entry abi cp) = l.read ++ waiting) ∧
    ∀ i op e s', (directories abi cp).Step s (i, op, .entry e) s' →
      ∃ st l, s'.streams i = some (st, l) ∧ (e = none ↔ l.finished = true) ∧
        (e = none → l.read = l.found.map (st.entry abi cp)) := by
  have hi := dirInv_reachable h
  refine ⟨fun i st l hst => ?_, fun i op e s' hstep => ?_⟩
  · refine ⟨_, ?_, (hi.tells i st l hst).found⟩
    split <;> simp
  · obtain ⟨st, hd, hs⟩ := directories_step hi hstep
    obtain ⟨st', hst', hends⟩ := hd.ends e rfl
    have ht := hd.tells st' hst'
    have hst' : st = some st' := hst'
    refine ⟨st', _, by rw [hs, Function.update_self, hst']; rfl, ?_, fun he => ?_⟩
    · rw [ht.finished, Option.isNone_iff_eq_none]
      exact hends
    · have hc : ¬ st'.wdirp.cached = true := fun hc => ht.waits hc (hends.mp he)
      have hfound := ht.found
      rw [if_neg hc, List.append_nil] at hfound
      exact hfound.symm

/-- **Nothing is lost and nothing is given back twice.** Every live block and every open
search handle belongs to exactly one stream, whatever failed on the way; and nothing is
misused. -/
theorem dirent_owns (h : (directories abi cp).Reachable s) :
    s.world.misused = false ∧
    (∀ b, s.world.Live b ↔ ∃! i, b ∈ blocksOf (s.stream i)) ∧
    (∀ x, s.world.Open x ↔ ∃! i, x ∈ handlesOf (s.stream i)) ∧
    ∀ i, (blocksOf (s.stream i)).Nodup := by
  have hi := dirInv_reachable h
  refine ⟨hi.misused, fun b => ⟨fun hb => ?_, fun ⟨i, hb, _⟩ => (hi.blocks.holds i).live b hb⟩,
    fun x => ⟨fun hx => ?_, fun ⟨i, hx, _⟩ => (hi.handles.holds i).live x hx⟩,
    fun i => (hi.blocks.holds i).nodup⟩
  · obtain ⟨i, hm⟩ := hi.blocks.owner b hb
    exact ⟨i, hm, fun j hj => hi.blocks.unique hj hm⟩
  · obtain ⟨i, hm⟩ := hi.handles.owner x hx
    exact ⟨i, hm, fun j hj => hi.handles.unique hj hm⟩

end Runs

/-! ## A sample -/

def sampleAbi : DirentAbi := ⟨544, 280, 1168, 288, 18446744073709551615⟩

/-- A locale with one byte for each of the first 128 characters. -/
def sampleCodepage : Codepage where
  widen name := some (name.map (·.setWidth 16))
  narrow name :=
    if name.length < pathMax ∧ name.all (·.ult 0x80#16) = true then
      some (name.map (·.setWidth 8))
    else none

/-- `.` and a file whose name has no other form. -/
def sampleDotEntry : FindData := ⟨0x10#32, [0x2e#16], []⟩
def sampleFileEntry : FindData := ⟨0x20#32, [0x263a#16], []⟩

def sampleStart : DirState :=
  ⟨⟨fun _ => none, fun _ => false, false, [], false⟩, fun _ => none⟩

/-- Two directories are read in turn. -/
def sampleOps : List (Nat × DirOp × List FindData) :=
  [(0, .opendir (some [0x64#8]), [sampleDotEntry]),
    (1, .wopendir (some [0x64#16, 0x65#16]), [sampleDotEntry]),
    (0, .readdir, []), (1, .wreaddir, []), (0, .readdir, [sampleFileEntry])]

def DirState.playAll (s : DirState) : List (Nat × DirOp × List FindData) → Option DirState
  | [] => some s
  | (i, op, script) :: ops => do
    let (_, s) ← s.play sampleAbi sampleCodepage sampleDotEntry i op script
    s.playAll ops

theorem playAll_reachable {s s' : DirState} {ops : List (Nat × DirOp × List FindData)}
    (h : s.playAll ops = some s') (hs : (directories sampleAbi sampleCodepage).Reachable s) :
    (directories sampleAbi sampleCodepage).Reachable s' := by
  induction ops generalizing s with
  | nil =>
      cases h
      exact hs
  | cons op ops ih =>
      obtain ⟨⟨r, s₁⟩, hplay, h⟩ := Option.bind_eq_some_iff.mp h
      exact ih h (hs.tail (play_step hplay))

theorem sampleStart_reachable : (directories sampleAbi sampleCodepage).Reachable sampleStart :=
  .init ⟨fun _ => nofun, fun _ => nofun, rfl, fun _ => rfl⟩

/-- The first directory has been read to its end, and its file is called `?`; the second is
still open. -/
theorem dirent_lists_two : ∃ s s' st l st₁ l₁,
    (directories sampleAbi sampleCodepage).Step s (0, .readdir, .entry none) s' ∧
    s'.streams 0 = some (st, l) ∧ l.finished = true ∧ l.found = [sampleDotEntry, sampleFileEntry] ∧
    l.read = l.found.map (st.entry sampleAbi sampleCodepage) ∧
    s'.streams 1 = some (st₁, l₁) ∧ l₁.found = [sampleDotEntry] ∧
    ∃ waiting, waiting.length ≤ 1 ∧
      l₁.found.map (st₁.entry sampleAbi sampleCodepage) = l₁.read ++ waiting := by
  have hrun : ((sampleStart.playAll sampleOps).bind fun s =>
      (s.play sampleAbi sampleCodepage sampleDotEntry 0 .readdir []).map fun x =>
        (x.1, (x.2.listing 0).found, (x.2.streams 1).map fun x => x.2.found)) =
      some (.entry none, [sampleDotEntry, sampleFileEntry], some [sampleDotEntry]) := by
    decide +kernel
  obtain ⟨s, hs, hlast⟩ := Option.bind_eq_some_iff.mp hrun
  obtain ⟨⟨r, s'⟩, hplay, heq⟩ := Option.map_eq_some_iff.mp hlast
  obtain ⟨rfl, hrest⟩ := Prod.mk.inj heq
  obtain ⟨hfound, hsecond⟩ := Prod.mk.inj hrest
  obtain ⟨⟨st₁, l₁⟩, hst₁, hfound₁⟩ := Option.map_eq_some_iff.mp hsecond
  have hr := playAll_reachable hs sampleStart_reachable
  have hstep := play_step hplay
  obtain ⟨st, l, hst, hfinished, hread⟩ := (dirent_lists hr).2 0 .readdir none s' hstep
  have hl : s'.listing 0 = l := by rw [DirState.listing, hst]; rfl
  rw [hl] at hfound
  exact ⟨s, s', st, l, st₁, l₁, hstep, hst, hfinished.mp rfl, hfound, hread rfl, hst₁, hfound₁,
    (dirent_lists (hr.tail hstep)).1 1 st₁ l₁ hst₁⟩

/-- The blocks of the two search patterns, `d\*` and `de\*`, and the two search handles. -/
theorem dirent_owns_two : ∃ s, (directories sampleAbi sampleCodepage).Reachable s ∧
    (∃! i, 20 ∈ blocksOf (s.stream i)) ∧ (∃! i, 22 ∈ blocksOf (s.stream i)) ∧
    (∃! i, 0 ∈ handlesOf (s.stream i)) ∧ (∃! i, 1 ∈ handlesOf (s.stream i)) ∧
    s.world.misused = false := by
  have hrun : (sampleStart.playAll sampleOps).map (fun s =>
      ((s.world.blocks 20).isSome, (s.world.blocks 22).isSome, s.world.search 0,
        s.world.search 1)) = some (true, true, true, true) := by decide +kernel
  obtain ⟨s, hs, heq⟩ := Option.map_eq_some_iff.mp hrun
  simp only [Prod.mk.injEq] at heq
  obtain ⟨hfirst, hsecond, hopen₀, hopen₁⟩ := heq
  have hr := playAll_reachable hs sampleStart_reachable
  obtain ⟨hmisused, hblocks, hhandles, -⟩ := dirent_owns hr
  exact ⟨s, hr, (hblocks 20).mp hfirst, (hblocks 22).mp hsecond, (hhandles 0).mp hopen₀,
    (hhandles 1).mp hopen₁, hmisused⟩

end LibrePortable.Win
