import LibrePortable.Lib.SplayCost
import LibrePortable.Sys.SplayLoop
import LibrePortable.Sys.TreeRuns

/-!
# The operations on a splay tree

One specification for each function: what it makes of the tree in the heap, what it
returns, which nodes it writes to, and how many turns of its loops that takes, less
what the tree gets better by. Every function but `SPLAY_INIT` begins with a splay, so
each is that of a splay and a few links more.
-/

namespace LibrePortable.Sys

open Lib Lib.Splay SplayWork

variable {E : Type}

/-- **The heap holds `t`.** -/
structure SplayHolds (h : SplayHeap E) (t : BinaryTree E) : Prop where
  root : h.root = top t
  linked : h.Linked t
  nodup : (inorder t).Nodup

theorem splayHolds_init (h : SplayHeap E) : SplayHolds (splayInit h) .nil :=
  ⟨rfl, trivial, List.nodup_nil⟩

theorem close_none (t : BinaryTree E) : close (fun _ => []) t = t := by cases t <;> rfl

theorem allNodes_none (t : BinaryTree E) : allNodes (fun _ => []) t = inorder t := by
  simp [allNodes, asideNodes]

section Splaying

variable [DecidableEq E] {cmp : E → E → Int} {h : SplayHeap E} {t t' a b : BinaryTree E} {x y : E}
  {n : Nat}

omit [DecidableEq E] in
theorem SplayWork.Leaves.closed {w w' : SplayWork E} (hl : Leaves w (fun _ => []) t t' w') :
    ∃ F t'', w'.Working F t'' ∧ t'' ≠ .nil ∧ close F t'' = t' ∧
      (allNodes F t'').Perm (inorder t) := by
  obtain ⟨F, t'', hw, ht, hclose, hperm⟩ := hl.parts
  rw [close_none] at hclose
  rw [allNodes_none] at hperm
  exact ⟨F, t'', hw, ht, hclose, hperm⟩

/-- A loop and `SPLAY_ASSEMBLE`. -/
theorem SplayWork.Loops.assembled {loop : Nat → SplayWork E → Option (SplayWork E × Nat)}
    {cut : E → Int} (hloop : Loops loop cut) (hs : Splays cut t n t') (hh : SplayHolds h t) :
    ∃ h', Takes (do
        let w ← (loop · (splayStart h) : Metered (SplayWork E))
        unmetered (splayAssemble w)) n h' ∧
      SplayHolds h' t' ∧ SameOff (inorder t) h h' := by
  obtain ⟨w, htakes, hleaves⟩ :=
    hloop.splays hs (splayStart_working hh.root hh.linked hh.nodup)
  have hoff := hleaves.off
  rw [allNodes_none] at hoff
  obtain ⟨F, t'', hw, ht, rfl, hperm⟩ := hleaves.closed
  obtain ⟨h', hrun, hroot, hlinked, hoff'⟩ := hw.assemble ht
  refine ⟨h', htakes.bind (n := 0) (.unmetered hrun), ⟨hroot, hlinked, ?_⟩, hoff.trans ?_⟩
  · exact (Sys.close_perm F ht).nodup_iff.mpr hw.nodup
  · exact hoff'.mono fun z hz => hperm.mem_iff.mp hz

/-- `SPLAY` -/
theorem SplayHolds.splay (hh : SplayHolds h t) (hs : Splays (cmp x) t n t') :
    ∃ h', Takes (splay cmp h x) n h' ∧ SplayHolds h' t' ∧ SameOff (inorder t) h h' :=
  (splayLoop_loops (cmp x)).assembled hs hh

/-- `SPLAY_MINMAX` -/
theorem SplayHolds.minMax (hh : SplayHolds h t) {comp : Int} (hcomp : comp ≠ 0)
    (hs : Splays (fun _ => comp) t n t') :
    ∃ h', Takes (splayMinMax h comp) n h' ∧ SplayHolds h' t' ∧ SameOff (inorder t) h h' :=
  (splayMinMaxLoop_loops hcomp).assembled hs hh

/-- `SPLAY_MINMAX` with 0 does not return. -/
theorem splayMinMax_zero (h : SplayHeap E) (fuel : Nat) : splayMinMax h 0 fuel = none := by
  have hloop : ∀ fuel (w : SplayWork E), splayMinMaxLoop 0 fuel w = none := by
    intro fuel w
    induction fuel with
    | zero => rfl
    | succ fuel ih => rw [splayMinMaxLoop, if_pos rfl, ih]
  simp only [splayMinMax, Bind.bind, StateT.bind, hloop]
  rfl

omit [DecidableEq E] in
theorem SplayHolds.empty (hh : SplayHolds h .nil) : h.root.isNone := by rw [hh.root]; rfl

omit [DecidableEq E] in
theorem SplayHolds.not_empty (hh : SplayHolds h t) (ht : t ≠ .nil) : ¬ h.root.isNone := by
  rw [hh.root, Option.isNone_iff_eq_none]
  exact fun hn => ht (top_eq_none.mp hn)

omit [DecidableEq E] in
/-- A node beside its subtrees. -/
theorem SplayHolds.node (hh : SplayHolds h (.node x a b)) : h.root = some x ∧
    h.child .left x = top a ∧ h.child .right x = top b ∧ h.Linked a ∧ h.Linked b := by
  obtain ⟨he, ha, hb⟩ := hh.linked
  exact ⟨hh.root, by rw [SplayHeap.child, he]; rfl, by rw [SplayHeap.child, he]; rfl, ha, hb⟩

/-! ## The functions -/

/-- What an operation on `t` costs, less what the tree gets better by. -/
def Within (t : BinaryTree E) (n : Nat) (t' : BinaryTree E) (bound : ℝ) : Prop :=
  n + potential t' ≤ potential t + bound

omit [DecidableEq E] in
theorem Within.mono {r r' : ℝ} (h : Within t n t' r) (hr : r ≤ r') : Within t n t' r' :=
  le_trans h (by linarith)

omit [DecidableEq E] in
theorem within_zero (t : BinaryTree E) {r : ℝ} (hr : 0 ≤ r) : Within t 0 t r := by
  rw [Within]
  push_cast
  linarith

omit [DecidableEq E] in
theorem within_splays {cut : E → Int} (hs : Splays cut t n t') :
    Within t n t' (splayBound t) := by
  have := hs.amortized.1
  rw [Within, splayBound]
  linarith

omit [DecidableEq E] in
/-- The node at the top is the equal one, if there is one. -/
theorem splays_find {cut : E → Int} {w : E} (hs : Splays cut t n (.node w a b))
    (hf : Falls cut (inorder t)) :
    (inorder t).find? (fun z => cut z = 0) = if cut w = 0 then some w else none := by
  split
  · next h0 =>
      rw [← hs.inorder_eq] at hf ⊢
      exact hf.find_zero (fun z hz => Int.le_of_eq (of_decide_eq_true hz)) h0 (decide_eq_true h0)
  · next h0 =>
      refine List.find?_eq_none.mpr fun z hz hz0 => h0 ?_
      obtain ⟨w', p, q, heq, h0'⟩ := hs.found_eq hf hz (of_decide_eq_true hz0)
      obtain ⟨rfl, -, -⟩ := BinaryTree.node.inj heq
      exact h0'

/-- `SPLAY_FIND` -/
theorem SplayHolds.find (hh : SplayHolds h t) (hf : Falls (cmp x) (inorder t)) :
    ∃ n h' t', Takes (splayFind cmp h x) n (h', (inorder t).find? fun z => cmp x z = 0) ∧
      SplayHolds h' t' ∧ inorder t' = inorder t ∧ SameOff (inorder t) h h' ∧
      Within t n t' (splayBound t) := by
  by_cases ht : t = .nil
  · subst ht
    refine ⟨0, h, .nil, ?_, hh, rfl, fun _ _ => rfl, within_zero _ (splayBound_nonneg _)⟩
    rw [splayFind, if_pos hh.empty]
    exact .pure _
  · obtain ⟨n, t', hs⟩ := Splays.exists_of_ne_nil (cmp x) ht
    obtain ⟨h', htakes, hh', hoff⟩ := hh.splay hs
    obtain ⟨p, w, q, rfl⟩ := hs.eq_fork .left
    refine ⟨n, h', _, ?_, hh', hs.inorder_eq, hoff, within_splays hs⟩
    rw [splayFind, if_neg (hh.not_empty ht), splays_find hs hf]
    refine htakes.bind (n := 0) (.after (hh'.root.trans top_fork) ?_)
    by_cases h0 : cmp x w = 0
    · rw [if_pos h0, if_pos h0]
      exact .pure _
    · rw [if_neg h0, if_neg h0]
      exact .pure _

/-- A new node takes the place of the root, which keeps one of its subtrees. -/
theorem SplayHolds.hang {d : Side} (hh : SplayHolds h (fork d a y b))
    (hx : x ∉ inorder (fork d a y b)) :
    SplayHolds ((((h.setChild d x (h.child d y)).setChild d.other x (some y)).setChild d y
      none).setRoot (some x)) (fork d a x (fork d .nil y b)) := by
  obtain ⟨he, ha, hb⟩ := SplayHeap.linked_fork.mp hh.linked
  obtain ⟨⟨hya, hyb⟩, ⟨hna, hnb⟩, hab⟩ := nodup_fork.mp hh.nodup
  rw [mem_fork, not_or, not_or] at hx
  obtain ⟨hxa, hxy, hxb⟩ := hx
  have hc : h.child d y = top a := by rw [SplayHeap.child, he, splayEntryOf_child]
  refine ⟨top_fork.symm, SplayHeap.Linked.setRoot ?_ _, ?_⟩
  · have hnil : ((((h.setChild d x (h.child d y)).setChild d.other x (some y)).setChild d y
        none)).Linked (fork d .nil y b) := by
      refine SplayHeap.linked_fork.mpr ⟨?_, trivial, ?_⟩
      · rw [SplayHeap.entry_setChild, if_pos rfl,
          SplayHeap.entry_setChild_of_ne _ _ _ (Ne.symm hxy),
          SplayHeap.entry_setChild_of_ne _ _ _ (Ne.symm hxy), he, splayEntryOf_setChild]
        rfl
      · exact ((hb.setChild hxb _ _).setChild hxb _ _).setChild hyb _ _
    refine SplayHeap.linked_fork.mpr ⟨?_, ?_, hnil⟩
    · rw [SplayHeap.entry_setChild_of_ne _ _ _ hxy, SplayHeap.entry_setChild, if_pos rfl,
        SplayHeap.entry_setChild, if_pos rfl, hc, top_fork, eq_splayEntryOf d (h.entry x),
        splayEntryOf_setChild, splayEntryOf_setChild_other]
    · exact ((ha.setChild hxa _ _).setChild hxa _ _).setChild hya _ _
  · refine nodup_fork.mpr ⟨⟨hxa, ?_⟩, ⟨hna, nodup_fork.mpr ⟨⟨List.not_mem_nil, hyb⟩, ⟨.nil, hnb⟩,
      fun z hz => absurd hz List.not_mem_nil⟩⟩, fun z hz hz' => ?_⟩
    · rw [mem_fork, not_or, not_or]
      exact ⟨List.not_mem_nil, hxy, hxb⟩
    · rcases mem_fork.mp hz' with hz' | rfl | hz'
      · exact absurd hz' List.not_mem_nil
      · exact hya hz
      · exact hab z hz hz'

omit [DecidableEq E] in
/-- A new node and the root below it count at most `lg (n + 1)` more. -/
theorem within_hang {d : Side} {r : ℝ} (hw : Within t n (fork d a y b) r)
    (hn : (fork d a y b).numNodes = t.numNodes) :
    Within t n (fork d a x (fork d .nil y b)) (r + lg (t.numNodes + 1)) := by
  rw [numNodes_fork] at hn
  have hb : lg (0 + b.numNodes + 1) ≤ lg (a.numNodes + b.numNodes + 1) := lg_le (by omega)
  have hT : lg (a.numNodes + (0 + b.numNodes + 1) + 1) = lg (t.numNodes + 1) := by
    congr 1
    omega
  simp only [Within, potential_fork, numNodes_fork, BinaryTree.numNodes, potential, hT] at hw ⊢
  linarith

/-- The new node goes between what is before the key and what is behind it. -/
theorem SplayHolds.placed {d : Side} {h' : SplayHeap E} (hh' : SplayHolds h' (fork d a y b))
    (hs : Splays (cmp x) t n (fork d a y b)) (hf : Falls (cmp x) (inorder t)) (hx : cmp x x = 0)
    (hd : d.Towards (cmp x y)) (hoff : SameOff (inorder t) h h') :
    SplayHolds ((((h'.setChild d x (h'.child d y)).setChild d.other x (some y)).setChild d y
        none).setRoot (some x)) (fork d a x (fork d .nil y b)) ∧
      SameOff (x :: inorder t) h ((((h'.setChild d x (h'.child d y)).setChild d.other x
        (some y)).setChild d y none).setRoot (some x)) ∧
      Within t n (fork d a x (fork d .nil y b)) (splayBound t + lg (t.numNodes + 1)) ∧
      ∃ as bs, inorder t = as ++ bs ∧ (∀ z ∈ as, 0 < cmp x z) ∧ (∀ z ∈ bs, cmp x z < 0) ∧
        (none : Option E) = none ∧ inorder (fork d a x (fork d .nil y b)) = as ++ x :: bs := by
  have hfresh : x ∉ inorder (fork d a y b) := by
    intro hm
    rw [hs.inorder_eq] at hm
    obtain ⟨w, p, q, heq, h0⟩ := hs.found_eq hf hm hx
    obtain rfl : y = w := Option.some.inj (top_fork.symm.trans (congrArg top heq))
    exact hd.ne_zero h0
  refine ⟨hh'.hang hfresh, fun z hz => ?_, within_hang (within_splays hs) hs.numNodes_eq, ?_⟩
  · rw [List.mem_cons, not_or] at hz
    have hzy : z ≠ y := fun heq => hz.2 (by
      rw [← hs.inorder_eq]
      exact mem_fork.mpr (.inr (.inl heq)))
    rw [SplayHeap.entry_setRoot, SplayHeap.entry_setChild_of_ne _ _ _ hzy,
      SplayHeap.entry_setChild_of_ne _ _ _ hz.1, SplayHeap.entry_setChild_of_ne _ _ _ hz.1]
    exact hoff z hz.2
  · obtain ⟨hnear, -⟩ := nearest_fork.mp (hs.nearest hf)
    have hfar : ∀ z ∈ inorder b, d.Towards (cmp x z) := by
      rw [← hs.inorder_eq, inorder_fork] at hf
      exact falls_beyond hf hd
    rw [← hs.inorder_eq, inorder_fork, inorder_fork, inorder_fork]
    cases d with
    | left =>
        refine ⟨inorder a, y :: inorder b, rfl, hnear hd, fun z hz => ?_, rfl, rfl⟩
        rcases List.mem_cons.mp hz with rfl | hz
        · exact hd
        · exact hfar z hz
    | right =>
        refine ⟨inorder b ++ [y], inorder a, by simp [Side.seq], fun z hz => ?_, hnear hd, rfl,
          by simp [Side.seq, inorder]⟩
        rcases List.mem_append.mp hz with hz | hz
        · exact hfar z hz
        · rw [List.mem_singleton.mp hz]
          exact hd

/-- `SPLAY_INSERT` -/
theorem SplayHolds.insert (hh : SplayHolds h t) (hf : Falls (cmp x) (inorder t))
    (hx : cmp x x = 0) : ∃ n h' t' r, Takes (splayInsert cmp h x) n (h', r) ∧
      SplayHolds h' t' ∧ SameOff (x :: inorder t) h h' ∧
      Within t n t' (splayBound t + lg (t.numNodes + 1)) ∧
      ((∃ y ∈ inorder t, cmp x y = 0 ∧ r = some y ∧ inorder t' = inorder t) ∨
        ∃ as bs, inorder t = as ++ bs ∧ (∀ z ∈ as, 0 < cmp x z) ∧ (∀ z ∈ bs, cmp x z < 0) ∧
          r = none ∧ inorder t' = as ++ x :: bs) := by
  have hpos := lg_nonneg (t.numNodes + 1)
  by_cases ht : t = .nil
  · subst ht
    refine ⟨0, ((h.setChild .right x none).setChild .left x none).setRoot (some x),
      .node x .nil .nil, none, ?_, ⟨rfl, ⟨?_, trivial, trivial⟩, List.nodup_singleton x⟩,
      fun z hz => ?_, ?_, .inr ⟨[], [], rfl, nofun, nofun, rfl, rfl⟩⟩
    · rw [splayInsert, if_pos hh.empty]
      exact .pure _
    · simp [SplayEntry.setChild, top]
    · have hzx : z ≠ x := List.ne_of_not_mem_cons hz
      rw [SplayHeap.entry_setRoot, SplayHeap.entry_setChild_of_ne _ _ _ hzx,
        SplayHeap.entry_setChild_of_ne _ _ _ hzx]
    · have hbound := splayBound_nonneg (.nil : BinaryTree E)
      simp only [Within, potential, BinaryTree.numNodes] at hbound ⊢
      push_cast
      linarith
  · obtain ⟨n, t', hs⟩ := Splays.exists_of_ne_nil (cmp x) ht
    obtain ⟨h', htakes, hh', hoff⟩ := hh.splay hs
    obtain ⟨p, w, q, rfl⟩ := hs.eq_fork .left
    have hroot : h'.root = some w := hh'.root.trans top_fork
    rcases Int.lt_trichotomy (cmp x w) 0 with hlt | h0 | hgt
    · obtain ⟨hg, hoff', hwithin, hat⟩ := hh'.placed hs hf hx hlt hoff
      refine ⟨n, _, _, none, ?_, hg, hoff', hwithin, .inr hat⟩
      rw [splayInsert, if_neg (hh.not_empty ht)]
      refine htakes.bind (n := 0) (.after hroot ?_)
      simp only [if_pos hlt]
      exact .pure _
    · refine ⟨n, h', _, some w, ?_, hh', hoff.mono fun z hz => List.mem_cons_of_mem _ hz,
        (within_splays hs).mono (by linarith), .inl ⟨w, ?_, h0, rfl, hs.inorder_eq⟩⟩
      · rw [splayInsert, if_neg (hh.not_empty ht)]
        refine htakes.bind (n := 0) (.after hroot ?_)
        simp only [h0, Int.lt_irrefl, if_false]
        exact .pure _
      · rw [← hs.inorder_eq]
        exact mem_fork.mpr (.inr (.inl rfl))
    · rw [← fork_other] at hs hh'
      obtain ⟨hg, hoff', hwithin, hat⟩ := hh'.placed hs hf hx hgt hoff
      refine ⟨n, _, _, none, ?_, hg, hoff', hwithin, .inr hat⟩
      rw [splayInsert, if_neg (hh.not_empty ht)]
      refine htakes.bind (n := 0) (.after hroot ?_)
      simp only [if_neg (Int.not_lt.mpr (Int.le_of_lt hgt)), if_pos hgt]
      exact .pure _

omit [DecidableEq E] in
theorem splayBound_mono {s : BinaryTree E} (h : s.numNodes ≤ t.numNodes) :
    splayBound s ≤ splayBound t := by
  have := lg_le h
  rw [splayBound, splayBound]
  linarith

omit [DecidableEq E] in
/-- All nodes but the equal one. -/
theorem filter_ne_zero {cut : E → Int} {as bs : List E} {w : E} (hf : Falls cut (as ++ w :: bs))
    (h0 : cut w = 0) : (as ++ w :: bs).filter (fun z => cut z ≠ 0) = as ++ bs := by
  have has := hf.pos_of_le (Int.le_of_eq h0.symm)
  have hbs := hf.neg_of_le (Int.le_of_eq h0)
  rw [List.filter_append, List.filter_cons_of_neg (by simpa using h0),
    List.filter_eq_self.mpr fun z hz => ?_, List.filter_eq_self.mpr fun z hz => ?_]
  · exact decide_eq_true (Int.ne_of_lt (hbs z hz))
  · exact decide_eq_true (Int.ne_of_gt (has z hz))

/-- A tree whose root has nothing to its right gets a right subtree. -/
theorem SplayHolds.join (hh : SplayHolds h (.node x a .nil)) (hb : h.Linked b)
    (hn : (inorder (.node x a b)).Nodup) :
    SplayHolds (h.setChild .right x (top b)) (.node x a b) := by
  obtain ⟨he, ha, -⟩ := hh.linked
  obtain ⟨⟨hxa, hxb⟩, -⟩ := nodup_fork.mp (show (inorder (fork .left a x b)).Nodup from hn)
  refine ⟨hh.root, ⟨?_, ha.setChild hxa _ _, hb.setChild hxb _ _⟩, hn⟩
  rw [SplayHeap.entry_setChild, if_pos rfl, he]
  rfl

/-- What is left when the root goes: its right subtree under the largest node of the left
one, which a second splay has brought to the top. -/
theorem SplayHolds.removeRoot (hh : SplayHolds h (.node y a b)) (ha : a ≠ .nil)
    (hpos : ∀ z ∈ inorder a, 0 < cmp x z) : ∃ n h' t', Takes (do
        let h' ← Sys.splay cmp (h.setRoot (h.child .left y)) x
        let root ← unmetered h'.root
        pure (h'.setChild .right root (h.child .right y), some x)) n (h', some x) ∧
      SplayHolds h' t' ∧ inorder t' = inorder a ++ inorder b ∧ SameOff (inorder a) h h' ∧
      Within (.node y a b) n t' (splayBound a) := by
  obtain ⟨-, hca, hcb, hla, hlb⟩ := hh.node
  obtain ⟨-, ⟨hna, hnb⟩, hab⟩ :=
    nodup_fork.mp (show (inorder (fork .left a y b)).Nodup from hh.nodup)
  have hha : SplayHolds (h.setRoot (h.child .left y)) a := ⟨hca, hla.setRoot _, hna⟩
  have hfalls : Falls (cmp x) (inorder a) :=
    List.pairwise_of_forall_mem_list fun z hz _ _ hle => absurd (hpos z hz) (Int.not_lt.mpr hle)
  obtain ⟨n, t', hs⟩ := Splays.exists_of_ne_nil (cmp x) ha
  obtain ⟨h', htakes, hh', hoff⟩ := hha.splay hs
  obtain ⟨p, w, q, rfl⟩ := hs.eq_fork .left
  have horder : inorder p ++ w :: inorder q = inorder a := hs.inorder_eq
  have hw : w ∈ inorder a := by
    rw [← horder]
    simp
  -- the key is beyond all of these nodes, so there is nothing to the right of the top
  obtain rfl : q = .nil := by
    cases q with
    | nil => rfl
    | node z l r =>
        have hz : z ∈ inorder a := by
          rw [← horder]
          simp [inorder]
        have hneg := (hs.nearest hfalls).2 (hpos w hw) z (by simp [inorder])
        exact absurd (hpos z hz) (Int.not_lt.mpr (Int.le_of_lt hneg))
  have hnd : (inorder (BinaryTree.node w p b)).Nodup := by
    have : inorder (BinaryTree.node w p b) = inorder a ++ inorder b := by
      rw [← horder]
      simp [inorder]
    rw [this]
    exact List.nodup_append.mpr ⟨hna, hnb, fun z hz z' hz' heq => hab z hz (heq ▸ hz')⟩
  have hjoin := hh'.join (hlb.congr fun z hz => hoff z fun hz' => hab z hz' hz) hnd
  refine ⟨n, _, _, ?_, hjoin, ?_, fun z hz => ?_, ?_⟩
  · rw [hcb]
    exact htakes.bind (n := 0) (.after (hh'.root.trans top_fork) (.pure _))
  · rw [← horder]
    simp [inorder]
  · have hzw : z ≠ w := fun heq => hz (heq ▸ hw)
    rw [SplayHeap.entry_setChild_of_ne _ _ _ hzw]
    exact hoff z hz
  · have hsize := hs.numNodes_eq
    have hwithin := within_splays hs
    simp only [Within, fork, potential, BinaryTree.numNodes] at hsize hwithin ⊢
    have hlg : lg (p.numNodes + b.numNodes + 1) ≤ lg (a.numNodes + b.numNodes + 1) :=
      lg_le (by omega)
    have hpos := lg_nonneg (p.numNodes + 0 + 1)
    linarith

/-- `SPLAY_REMOVE` -/
theorem SplayHolds.remove (hh : SplayHolds h t) (hf : Falls (cmp x) (inorder t)) :
    ∃ n h' t', Takes (splayRemove cmp h x) n
        (h', ((inorder t).find? fun z => cmp x z = 0).map fun _ => x) ∧
      SplayHolds h' t' ∧ inorder t' = (inorder t).filter (fun z => cmp x z ≠ 0) ∧
      SameOff (inorder t) h h' ∧ Within t n t' (2 * splayBound t) := by
  have hbound := splayBound_nonneg t
  by_cases ht : t = .nil
  · subst ht
    refine ⟨0, h, .nil, ?_, hh, rfl, fun _ _ => rfl, within_zero _ (by linarith)⟩
    rw [splayRemove, if_pos hh.empty]
    exact .pure _
  obtain ⟨n, t', hs⟩ := Splays.exists_of_ne_nil (cmp x) ht
  obtain ⟨h', htakes, hh', hoff⟩ := hh.splay hs
  obtain ⟨p, w, q, rfl⟩ := hs.eq_fork .left
  have hroot : h'.root = some w := hh'.root.trans top_fork
  have horder : inorder p ++ w :: inorder q = inorder t := hs.inorder_eq
  rw [splayRemove, if_neg (hh.not_empty ht), splays_find hs hf]
  by_cases h0 : cmp x w = 0
  · rw [if_pos h0]
    rw [← horder] at hf
    have hfilter := filter_ne_zero hf h0
    rw [horder] at hfilter
    obtain ⟨-, hcl, hcr, -, hlq⟩ := hh'.node
    have hsize := hs.numNodes_eq
    have hwithin := within_splays hs
    rw [numNodes_fork] at hsize
    by_cases hp : p = .nil
    · -- the right subtree is all that is left
      subst hp
      refine ⟨n, h'.setRoot (h'.child .right w), q, ?_, ⟨hcr, hlq.setRoot _, ?_⟩, hfilter.symm,
        hoff, ?_⟩
      · refine htakes.bind (n := 0) (.after hroot ?_)
        have hnone : (h'.child .left w).isNone := by rw [hcl]; rfl
        rw [if_pos h0, if_pos hnone]
        exact .pure _
      · exact (nodup_fork.mp hh'.nodup).2.1.2
      · have hlg := lg_nonneg (0 + q.numNodes + 1)
        simp only [Within, fork, potential, BinaryTree.numNodes] at hwithin ⊢
        linarith
    · have hpos : ∀ z ∈ inorder p, 0 < cmp x z := hf.pos_of_le (Int.le_of_eq h0.symm)
      obtain ⟨m, g, t'', htakes', hg, horder', hoff', hwithin'⟩ := hh'.removeRoot hp hpos
      refine ⟨n + m, g, t'', ?_, hg, horder'.trans hfilter.symm, hoff.trans ?_, ?_⟩
      · refine htakes.bind (n := m) (.after hroot ?_)
        have hsome : ¬ (h'.child .left w).isNone := by
          rw [hcl, Option.isNone_iff_eq_none]
          exact fun hn => hp (top_eq_none.mp hn)
        rw [if_pos h0, if_neg hsome]
        exact htakes'
      · refine hoff'.mono fun z hz => ?_
        rw [← horder]
        exact List.mem_append_left _ hz
      · have hmono := splayBound_mono (show p.numNodes ≤ t.numNodes by omega)
        simp only [Within, fork] at hwithin hwithin' ⊢
        push_cast
        linarith
  · rw [if_neg h0]
    refine ⟨n, h', _, ?_, hh', ?_, hoff, (within_splays hs).mono (by linarith)⟩
    · refine htakes.bind (n := 0) (.after hroot ?_)
      rw [if_neg h0]
      exact .pure _
    · rw [hs.inorder_eq, eq_comm, List.filter_eq_self]
      intro z hz
      have hfind := splays_find hs hf
      rw [if_neg h0] at hfind
      simpa using List.find?_eq_none.mp hfind z hz

/-! ## Walking -/

/-- `SPLAY_MIN`, `SPLAY_MAX` -/
theorem SplayHolds.ends {d : Side} {val : Int} (hh : SplayHolds h t) (hval : d.Towards val) :
    ∃ n h' t', Takes (splayEnd h val) n (h', (d.read (inorder t)).head?) ∧ SplayHolds h' t' ∧
      inorder t' = inorder t ∧ SameOff (inorder t) h h' ∧ Within t n t' (splayBound t) := by
  by_cases ht : t = .nil
  · subst ht
    refine ⟨0, h, .nil, ?_, hh, rfl, fun _ _ => rfl, within_zero _ (splayBound_nonneg _)⟩
    rw [splayEnd, if_pos hh.empty, inorder, Side.read_nil]
    exact .pure _
  · obtain ⟨n, t', hs⟩ := Splays.exists_of_ne_nil (fun _ => val) ht
    obtain ⟨h', htakes, hh', hoff⟩ := hh.minMax hval.ne_zero hs
    have hfalls : Falls (fun _ => val) (inorder t) :=
      List.pairwise_of_forall fun _ _ hle => Int.lt_iff_le_and_ne.mpr ⟨hle, hval.ne_zero⟩
    obtain ⟨p, w, q, rfl⟩ := hs.eq_fork d
    -- all nodes send the search to side `d`, so none is left there
    obtain rfl : p = .nil := by
      cases p with
      | nil => rfl
      | node z l r =>
          have hz := (nearest_fork.mp (hs.nearest hfalls)).1 hval z (by simp [inorder])
          exact absurd hz hval.not_other
    refine ⟨n, h', _, ?_, hh', hs.inorder_eq, hoff, within_splays hs⟩
    rw [splayEnd, if_neg (hh.not_empty ht), ← hs.inorder_eq, inorder_fork, Side.read_seq, inorder,
      Side.read_nil, List.nil_append, List.head?_cons, ← top_fork (d := d), ← hh'.root]
    exact htakes.bind (n := 0) (.pure _)

omit [DecidableEq E] in
theorem leftmost_takes (hl : h.Linked t) (ht : top t = some x) :
    ∃ k z, Takes (splayLeftmost h · x : Metered E) k z ∧ (inorder t).head? = some z ∧
      k ≤ t.numNodes := by
  induction t generalizing x with
  | nil => cases ht
  | node y l r ihl _ =>
      obtain rfl : y = x := Option.some.inj ht
      obtain ⟨he, hl, -⟩ := hl
      have hc : h.child .left y = top l := by rw [SplayHeap.child, he]; rfl
      cases hl' : top l with
      | none =>
          obtain rfl := top_eq_none.mp hl'
          rw [hl'] at hc
          refine ⟨1, y, .last rfl fun fuel => ?_, rfl, ?_⟩
          · simp only [splayLeftmost, hc]
          · rw [BinaryTree.numNodes]
            omega
      | some z =>
          obtain ⟨k, v, htakes, hv, hk⟩ := ihl hl hl'
          rw [hl'] at hc
          refine ⟨k + 1, v, htakes.turn rfl fun fuel => ?_, ?_, ?_⟩
          · simp only [splayLeftmost, hc]
          · rw [inorder, List.head?_append, hv]
            rfl
          · rw [BinaryTree.numNodes]
            omega

/-- `SPLAY_NEXT`, which takes `n` turns to splay and `w` on the way to the next node. -/
theorem SplayHolds.next (hcmp : Consistent cmp) (hh : SplayHolds h t)
    (hs : Sorted cmp (inorder t)) {as bs : List E} (hx : inorder t = as ++ x :: bs) :
    ∃ n w h' t', Takes (splayNext cmp h x) (n + w) (h', bs.head?) ∧
      Takes (Sys.splay cmp h x) n h' ∧ w ≤ t.numNodes ∧ SplayHolds h' t' ∧
      inorder t' = inorder t ∧ SameOff (inorder t) h h' ∧ Within t n t' (splayBound t) := by
  have hmem : x ∈ inorder t := by
    rw [hx]
    simp
  have hf := hs.falls hcmp x
  have ht : t ≠ .nil := by
    rintro rfl
    cases hmem
  obtain ⟨n, t', hsp⟩ := Splays.exists_of_ne_nil (cmp x) ht
  obtain ⟨h', htakes, hh', hoff⟩ := hh.splay hsp
  obtain ⟨w, p, q, rfl, h0⟩ := hsp.found_eq hf hmem (hcmp.refl x)
  obtain ⟨-, -, hcr, -, hlq⟩ := hh'.node
  have horder : inorder p ++ w :: inorder q = as ++ x :: bs := hsp.inorder_eq.trans hx
  -- the node itself is at the top, as no other is equal to it
  have hwx : w = x := by
    have hfw := hf
    rw [hx] at hfw
    have hw : w ∈ as ++ x :: bs := by
      rw [← horder]
      simp
    rcases List.mem_append.mp hw with hw | hw
    · have := hfw.pos_of_le (Int.le_of_eq (hcmp.refl x).symm) w hw
      omega
    · rcases List.mem_cons.mp hw with rfl | hw
      · rfl
      · have := hfw.neg_of_le (Int.le_of_eq (hcmp.refl x)) w hw
        omega
  subst hwx
  have hnodup : (as ++ w :: bs).Nodup := hx ▸ hh.nodup
  obtain ⟨has, hbs⟩ : w ∉ as ∧ w ∉ bs := by
    rw [List.nodup_append, List.nodup_cons] at hnodup
    exact ⟨fun hm => hnodup.2.2 w hm w List.mem_cons_self rfl, hnodup.2.1.1⟩
  obtain ⟨-, -, rfl⟩ := (List.append_cons_inj_of_notMem has hbs).mp horder.symm
  cases hq : top q with
  | none =>
      obtain rfl := top_eq_none.mp hq
      refine ⟨n, 0, h', _, htakes.bind (n := 0) ?_, htakes, Nat.zero_le _, hh', hsp.inorder_eq,
        hoff, within_splays hsp⟩
      rw [hq] at hcr
      simp only [hcr]
      exact .pure _
  | some y =>
      obtain ⟨k, z, hk, hz, hle⟩ := leftmost_takes hlq hq
      have hsize := hsp.numNodes_eq
      rw [BinaryTree.numNodes] at hsize
      refine ⟨n, k + 0, h', _, htakes.bind ?_, htakes, by omega, hh', hsp.inorder_eq, hoff,
        within_splays hsp⟩
      rw [hq] at hcr
      simp only [hcr, hz]
      exact hk.bind (.pure _)

/-- `SPLAY_FOREACH` from any node on. -/
theorem SplayHolds.foreach (hcmp : Consistent cmp) (hh : SplayHolds h t)
    (hs : Sorted cmp (inorder t)) {as bs : List E} (hx : inorder t = as ++ bs) {turns : Nat}
    (hturns : bs.length < turns) :
    ∃ n h' t', Takes (splayForeach cmp turns h bs.head?) n (h', bs) ∧ SplayHolds h' t' ∧
      inorder t' = inorder t ∧ SameOff (inorder t) h h' := by
  induction bs generalizing h t as turns with
  | nil =>
      obtain ⟨turns, rfl⟩ := Nat.exists_eq_add_one.mpr (Nat.zero_lt_of_lt hturns)
      exact ⟨0, h, t, .pure _, hh, rfl, fun _ _ => rfl⟩
  | cons x bs ih =>
      obtain ⟨turns, rfl⟩ := Nat.exists_eq_add_one.mpr (Nat.zero_lt_of_lt hturns)
      obtain ⟨m, w, h₁, t₁, htakes₁, -, -, hh₁, horder₁, hoff₁, -⟩ := hh.next hcmp hs hx
      have hx₁ : inorder t₁ = (as ++ [x]) ++ bs := by
        rw [horder₁, hx]
        simp
      have hs₁ : Sorted cmp (inorder t₁) := by
        rw [horder₁]
        exact hs
      obtain ⟨n, h', t', htakes, hh', horder, hoff⟩ := ih hh₁ hs₁ hx₁ (by simpa using hturns)
      refine ⟨(m + w) + (n + 0), h', t', htakes₁.bind (htakes.bind (.pure _)), hh',
        horder.trans horder₁, hoff₁.trans ?_⟩
      rw [horder₁] at hoff
      exact hoff

end Splaying

end LibrePortable.Sys
