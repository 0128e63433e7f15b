import LibrePortable.Win.Poll

/-!
# The set-up pass

What the first walk over the entries records: the three interest sets, the number
of sockets, and the handles in the order of their entries. It gives up exactly
when one of the two kinds has more than `FD_SETSIZE` entries.
-/

namespace LibrePortable.Win.Poll

open LibrePortable.Win

variable {H : Header} {env : Env}

/-- Entry `i` is a socket, as the set-up pass finds out. -/
def socketEntry (env : Env) (i : Nat) (p : Pollfd) : Bool :=
  !p.negative && isSocket p.fd (env.enumSetup i)

/-- Entry `i` is some other handle. -/
def handleEntry (env : Env) (i : Nat) (p : Pollfd) : Bool :=
  !p.negative && !isSocket p.fd (env.enumSetup i)

/-- The socket entries, from entry `i` on. -/
def sockets (env : Env) : Nat → List Pollfd → List Pollfd
  | _, [] => []
  | i, p :: ps => if socketEntry env i p then p :: sockets env (i + 1) ps
      else sockets env (i + 1) ps

/-- The entries that are other handles, from entry `i` on. -/
def others (env : Env) : Nat → List Pollfd → List Pollfd
  | _, [] => []
  | i, p :: ps => if handleEntry env i p then p :: others env (i + 1) ps
      else others env (i + 1) ps

/-! ## Adding to a set -/

theorem FdSet.mem_set {s : FdSet} {fd fd' : CInt} (hroom : s.fds.length < fdSetsize) :
    fd' ∈ (s.set fd).fds ↔ fd' ∈ s.fds ∨ fd' = fd := by
  unfold FdSet.set
  split
  · rw [List.mem_append, List.mem_singleton]
  · rename_i h
    have hin : fd ∈ s.fds := by
      by_contra hn; exact h ⟨hn, hroom⟩
    constructor
    · exact Or.inl
    · intro hcase
      rcases hcase with h' | rfl
      · exact h'
      · exact hin

theorem FdSet.length_set_le (s : FdSet) (fd : CInt) : (s.set fd).fds.length ≤ s.fds.length + 1 := by
  unfold FdSet.set
  split
  · rw [List.length_append]; exact Nat.le_refl _
  · exact Nat.le_succ _

/-! ## Room -/

/-- The sets hold no more than the sockets counted so far, and neither count is
past its limit. -/
structure Setup.Fits (su : Setup) : Prop where
  rfds : su.rfds.fds.length ≤ su.numSockets
  wfds : su.wfds.fds.length ≤ su.numSockets
  efds : su.efds.fds.length ≤ su.numSockets
  sockets : su.numSockets ≤ fdSetsize
  handles : su.handles.length ≤ fdSetsize

theorem Setup.fits_empty : Setup.empty.Fits :=
  ⟨by decide, by decide, by decide, by decide, by decide⟩

theorem Setup.fits_addSocket {su : Setup} {p : Pollfd} (h : su.Fits)
    (hroom : su.numSockets < fdSetsize) : (su.addSocket H p).Fits := by
  have hr := su.rfds.length_set_le p.fd
  have hw := su.wfds.length_set_le p.fd
  have he := su.efds.length_set_le p.fd
  have h1 := h.rfds
  have h2 := h.wfds
  have h3 := h.efds
  refine ⟨?_, ?_, ?_, hroom, h.handles⟩
  · simp only [addSocket]; split <;> omega
  · simp only [addSocket]; split <;> omega
  · simp only [addSocket]; omega

theorem Setup.length_addHandle (su : Setup) (x : Handle) :
    (su.addHandle x).handles.length = su.handles.length + 1 := by
  rw [addHandle, List.length_append]; rfl

theorem Setup.fits_addHandle {su : Setup} {x : Handle} (h : su.Fits)
    (hroom : su.handles.length < fdSetsize) : (su.addHandle x).Fits :=
  ⟨h.rfds, h.wfds, h.efds, h.sockets, by rw [length_addHandle]; exact hroom⟩

/-! ## The walk -/

/-- The set `fds'` is `fds` and the descriptors of the entries in `ps` that satisfy `wanted`. -/
def Extends (wanted : Pollfd → Prop) (ps : List Pollfd) (fds fds' : FdSet) : Prop :=
  ∀ fd, fd ∈ fds'.fds ↔ fd ∈ fds.fds ∨ ∃ p ∈ ps, wanted p ∧ p.fd = fd

/-- An entry asks for one of the events in a mask. -/
def Wants (mask : Bits) (p : Pollfd) : Prop := p.events &&& mask ≠ 0

theorem Extends.refl (wanted : Pollfd → Prop) (s : FdSet) : Extends wanted [] s s := by
  intro fd
  simp

/-- One more entry, added to the set if it is wanted there. -/
theorem Extends.cons {wanted : Pollfd → Prop} [DecidablePred wanted] {p : Pollfd}
    {ps : List Pollfd} {s s' : FdSet} (hroom : s.fds.length < fdSetsize)
    (h : Extends wanted ps (if wanted p then s.set p.fd else s) s') :
    Extends wanted (p :: ps) s s' := by
  intro fd
  rw [h fd]
  by_cases hp : wanted p
  · rw [if_pos hp, FdSet.mem_set hroom]
    constructor
    · intro hcase
      rcases hcase with (h | rfl) | ⟨q, hq, hw, rfl⟩
      · exact Or.inl h
      · exact Or.inr ⟨p, List.mem_cons_self .., hp, rfl⟩
      · exact Or.inr ⟨q, List.mem_cons_of_mem _ hq, hw, rfl⟩
    · intro hcase
      rcases hcase with h | ⟨q, hq, hw, rfl⟩
      · exact Or.inl (Or.inl h)
      · rcases List.mem_cons.mp hq with rfl | hq
        · exact Or.inl (Or.inr rfl)
        · exact Or.inr ⟨q, hq, hw, rfl⟩
  · rw [if_neg hp]
    constructor
    · intro hcase
      rcases hcase with h | ⟨q, hq, hw, rfl⟩
      · exact Or.inl h
      · exact Or.inr ⟨q, List.mem_cons_of_mem _ hq, hw, rfl⟩
    · intro hcase
      rcases hcase with h | ⟨q, hq, hw, rfl⟩
      · exact Or.inl h
      · rcases List.mem_cons.mp hq with rfl | hq
        · exact absurd hw hp
        · exact Or.inr ⟨q, hq, hw, rfl⟩

instance (mask : Bits) : DecidablePred (Wants mask) :=
  fun p => inferInstanceAs (Decidable (p.events &&& mask ≠ 0))

/-- **What the walk records**, started from `su`. -/
theorem setUp_spec : ∀ {i : Nat} {ps : List Pollfd} {su su' : Setup}, su.Fits →
    setUp H env i ps su = some su' →
    su'.Fits ∧ su'.numSockets = su.numSockets + (sockets env i ps).length
      ∧ su'.handles = su.handles ++ (others env i ps).map (fun p => env.osfHandle p.fd)
      ∧ Extends (Wants H.readMask) (sockets env i ps) su.rfds su'.rfds
      ∧ Extends (Wants H.writeMask) (sockets env i ps) su.wfds su'.wfds
      ∧ Extends (fun _ => True) (sockets env i ps) su.efds su'.efds := by
  intro i ps
  induction ps generalizing i with
  | nil =>
      intro su su' hf h
      obtain rfl := Option.some.inj h
      exact ⟨hf, rfl, (List.append_nil _).symm, Extends.refl _ _, Extends.refl _ _,
        Extends.refl _ _⟩
  | cons p ps ih =>
      intro su su' hf h
      unfold setUp at h
      split at h
      · -- a disabled entry is skipped
        rename_i hneg
        have hs : sockets env i (p :: ps) = sockets env (i + 1) ps := by
          simp [sockets, socketEntry, hneg]
        have ho : others env i (p :: ps) = others env (i + 1) ps := by
          simp [others, handleEntry, hneg]
        rw [hs, ho]
        exact ih hf h
      · rename_i hneg
        split at h
        · -- a socket goes into the sets that report what it wants
          rename_i hsock
          split at h
          · exact absurd h (by simp)
          · rename_i hroom
            have hroom' : su.numSockets < fdSetsize := by omega
            have hs : sockets env i (p :: ps) = p :: sockets env (i + 1) ps := by
              simp [sockets, socketEntry, hneg, hsock]
            have ho : others env i (p :: ps) = others env (i + 1) ps := by
              simp [others, handleEntry, hsock]
            obtain ⟨h1, h2, h3, h4, h5, h6⟩ := ih (Setup.fits_addSocket hf hroom') h
            -- no set is full yet: each holds at most the sockets counted
            have hr := hf.rfds
            have hw := hf.wfds
            have he := hf.efds
            rw [hs, ho]
            refine ⟨h1, ?_, h3, Extends.cons (by omega) h4, Extends.cons (by omega) h5,
              Extends.cons (by omega) ?_⟩
            · rw [h2, List.length_cons]; simp only [Setup.addSocket]; omega
            · rw [if_pos trivial]; exact h6
        · rename_i hsock
          split at h
          · exact absurd h (by simp)
          · rename_i hroom
            have hs : sockets env i (p :: ps) = sockets env (i + 1) ps := by
              simp [sockets, socketEntry, hsock]
            have ho : others env i (p :: ps) = p :: others env (i + 1) ps := by
              simp [others, handleEntry, hneg, hsock]
            obtain ⟨h1, h2, h3, h4, h5, h6⟩ := ih (Setup.fits_addHandle hf (by omega)) h
            rw [hs, ho]
            exact ⟨h1, h2, by rw [h3]; simp [Setup.addHandle], h4, h5, h6⟩

/-- **When the walk gives up**: when one kind has more than `FD_SETSIZE` entries. -/
theorem setUp_eq_none_iff : ∀ {i : Nat} {ps : List Pollfd} {su : Setup},
    su.numSockets ≤ fdSetsize → su.handles.length ≤ fdSetsize →
    (setUp H env i ps su = none ↔
      fdSetsize < su.numSockets + (sockets env i ps).length
        ∨ fdSetsize < su.handles.length + (others env i ps).length) := by
  intro i ps
  induction ps generalizing i with
  | nil =>
      intro su h1 h2
      simp only [setUp, sockets, others, List.length_nil, Nat.add_zero]
      constructor
      · intro h; exact absurd h (by simp)
      · intro h; omega
  | cons p ps ih =>
      intro su h1 h2
      unfold setUp
      split
      · rename_i hneg
        -- a disabled entry counts for neither kind
        rw [ih h1 h2]
        simp [sockets, others, socketEntry, handleEntry, hneg]
      · rename_i hneg
        split
        · rename_i hsock
          have hs : (sockets env i (p :: ps)).length = (sockets env (i + 1) ps).length + 1 := by
            simp [sockets, socketEntry, hneg, hsock]
          have ho : (others env i (p :: ps)).length = (others env (i + 1) ps).length := by
            simp [others, handleEntry, hsock]
          rw [hs, ho]
          split
          · -- one socket too many
            simp only [true_iff]; omega
          · rename_i hroom
            have hn : (su.addSocket H p).numSockets = su.numSockets + 1 := rfl
            have hh : (su.addSocket H p).handles = su.handles := rfl
            rw [@ih (i + 1) (su.addSocket H p) (by omega) h2, hn, hh]
            omega
        · rename_i hsock
          have hs : (sockets env i (p :: ps)).length = (sockets env (i + 1) ps).length := by
            simp [sockets, socketEntry, hsock]
          have ho : (others env i (p :: ps)).length = (others env (i + 1) ps).length + 1 := by
            simp [others, handleEntry, hneg, hsock]
          rw [hs, ho]
          split
          · simp only [true_iff]; omega
          · rename_i hroom
            have hlen := su.length_addHandle (env.osfHandle p.fd)
            have hn : (su.addHandle (env.osfHandle p.fd)).numSockets = su.numSockets := rfl
            rw [@ih (i + 1) (su.addHandle _) h1 (by omega), hlen, hn]
            omega

/-- An array with room for its sockets and its other handles. -/
def Roomy (env : Env) (pfds : List Pollfd) : Prop :=
  (sockets env 0 pfds).length ≤ fdSetsize ∧ (others env 0 pfds).length ≤ fdSetsize

theorem exists_setUp_iff {pfds : List Pollfd} :
    (∃ su, setUp H env 0 pfds .empty = some su) ↔ Roomy env pfds := by
  have h := @setUp_eq_none_iff H env 0 pfds .empty (by decide) (by decide)
  have h0 : Setup.empty.numSockets = 0 := rfl
  have h1 : Setup.empty.handles.length = 0 := rfl
  rw [h0, h1, Nat.zero_add, Nat.zero_add] at h
  unfold Roomy
  cases hs : setUp H env 0 pfds .empty with
  | none =>
      have := h.mp hs
      constructor
      · rintro ⟨su, hsu⟩; exact absurd hsu (by simp)
      · omega
  | some su =>
      rw [hs] at h
      have hn : ¬ (fdSetsize < (sockets env 0 pfds).length
          ∨ fdSetsize < (others env 0 pfds).length) :=
        fun hc => absurd (h.mpr hc) (by simp)
      exact ⟨fun _ => by omega, fun _ => ⟨su, rfl⟩⟩

end LibrePortable.Win.Poll
