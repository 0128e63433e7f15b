import LibrePortable.Sys.Splay

/-!
# The tree that is being splayed

While the loop of `SPLAY` runs, the tree is in three parts: what is left of it under
the root, and on each side a tree of nodes put aside, in which the place for the next
one is not filled in yet. `Working w F t` says that the heap and the local variables
hold these parts; a turn moves nodes from the first to one of the others, and
`SPLAY_ASSEMBLE` fills the two places with the subtrees of the root.
-/

namespace LibrePortable.Sys

open Lib Lib.Splay

variable {E : Type}

/-- An entry with `near` on side `d` and `far` on the other. -/
def splayEntryOf (d : Side) (near far : Option E) : SplayEntry E :=
  match d with
  | .left => ⟨near, far⟩
  | .right => ⟨far, near⟩

section Entries

variable (d : Side) (a b v : Option E)

@[simp] theorem splayEntryOf_other : splayEntryOf d.other a b = splayEntryOf d b a := by
  cases d <;> rfl

@[simp] theorem splayEntryOf_child : (splayEntryOf d a b).child d = a := by cases d <;> rfl

@[simp] theorem splayEntryOf_child_other : (splayEntryOf d a b).child d.other = b := by
  cases d <;> rfl

@[simp] theorem splayEntryOf_setChild :
    (splayEntryOf d a b).setChild d v = splayEntryOf d v b := by cases d <;> rfl

@[simp] theorem splayEntryOf_setChild_other :
    (splayEntryOf d a b).setChild d.other v = splayEntryOf d a v := by cases d <;> rfl

@[simp] theorem setChild_child (e : SplayEntry E) : (e.setChild d v).child d = v := by
  cases d <;> rfl

@[simp] theorem setChild_child_other (e : SplayEntry E) :
    (e.setChild d v).child d.other = e.child d.other := by cases d <;> rfl

/-- An entry is its two links. -/
theorem eq_splayEntryOf (e : SplayEntry E) : e = splayEntryOf d (e.child d) (e.child d.other) := by
  cases d <;> rfl

end Entries

namespace SplayHeap

/-- The nodes of `t` are linked as in `t`. -/
def Linked (h : SplayHeap E) : BinaryTree E → Prop
  | .nil => True
  | .node x l r => h.entry x = ⟨top l, top r⟩ ∧ h.Linked l ∧ h.Linked r

variable {h h' : SplayHeap E} {t a b : BinaryTree E} {d : Side} {x z : E} {v : Option E}

theorem linked_fork : h.Linked (fork d a x b) ↔
    h.entry x = splayEntryOf d (top a) (top b) ∧ h.Linked a ∧ h.Linked b := by
  cases d with
  | left => exact Iff.rfl
  | right => exact ⟨fun ⟨h₁, h₂, h₃⟩ => ⟨h₁, h₃, h₂⟩, fun ⟨h₁, h₂, h₃⟩ => ⟨h₁, h₃, h₂⟩⟩

theorem Linked.congr (hl : h.Linked t) (hs : ∀ z ∈ inorder t, h'.entry z = h.entry z) :
    h'.Linked t := by
  induction t with
  | nil => trivial
  | node x l r ihl ihr =>
      obtain ⟨he, hl, hr⟩ := hl
      have hx : h'.entry x = h.entry x := hs x (by simp [inorder])
      exact ⟨hx.trans he, ihl hl fun z hz => hs z (List.mem_append_left _ hz),
        ihr hr fun z hz => hs z (List.mem_append_right _ (List.mem_cons_of_mem _ hz))⟩

@[simp] theorem entry_setRoot (h : SplayHeap E) (v : Option E) (z : E) :
    (h.setRoot v).entry z = h.entry z := rfl

@[simp] theorem root_setRoot (h : SplayHeap E) (v : Option E) : (h.setRoot v).root = v := rfl

theorem Linked.setRoot (hl : h.Linked t) (v : Option E) : (h.setRoot v).Linked t :=
  hl.congr fun _ _ => rfl

variable [DecidableEq E]

@[simp] theorem entry_setChild (h : SplayHeap E) (d : Side) (x z : E) (v : Option E) :
    (h.setChild d x v).entry z = if z = x then (h.entry x).setChild d v else h.entry z := by
  simp [setChild, Function.update_apply]

theorem entry_setChild_of_ne (h : SplayHeap E) (d : Side) (v : Option E) (hz : z ≠ x) :
    (h.setChild d x v).entry z = h.entry z := by
  rw [entry_setChild, if_neg hz]

@[simp] theorem root_setChild (h : SplayHeap E) (d : Side) (x : E) (v : Option E) :
    (h.setChild d x v).root = h.root := rfl

theorem Linked.setChild (hl : h.Linked t) (hx : x ∉ inorder t) (d : Side) (v : Option E) :
    (h.setChild d x v).Linked t :=
  hl.congr fun _ hz => entry_setChild_of_ne h d v fun heq => hx (heq ▸ hz)

end SplayHeap

/-! ## What is put aside -/

/-- A node put aside, and the subtree behind it. -/
abbrev Aside (E : Type) := List (E × BinaryTree E)

/-- The tree of the nodes put aside on side `d`, the last one first, with `t` where the
next one goes. -/
def wrap (d : Side) : Aside E → BinaryTree E → BinaryTree E
  | [], t => t
  | (x, s) :: fs, t => wrap d fs (fork d s x t)

/-- What `SPLAY_ASSEMBLE` makes of the three parts. -/
def close (F : Side → Aside E) : BinaryTree E → BinaryTree E
  | .nil => .nil
  | .node x a b => .node x (wrap .left (F .left) a) (wrap .right (F .right) b)

def asideNodes (fs : Aside E) : List E := fs.flatMap fun f => f.1 :: inorder f.2

/-- The nodes of all three parts. -/
def allNodes (F : Side → Aside E) (t : BinaryTree E) : List E :=
  asideNodes (F .left) ++ (asideNodes (F .right) ++ inorder t)

section Parts

variable {F : Side → Aside E} {fs : Aside E} {t a b e s : BinaryTree E} {d : Side} {x y z : E}

theorem close_fork : close F (fork d a x b) =
    fork d (wrap d (F d) a) x (wrap d.other (F d.other) b) := by cases d <;> rfl

@[simp] theorem asideNodes_cons :
    asideNodes ((x, s) :: fs) = x :: (inorder s ++ asideNodes fs) := by
  simp [asideNodes]

section Counts

variable [DecidableEq E]

theorem count_seq (d : Side) (as : List E) (x : E) (bs : List E) (z : E) :
    (d.seq as x bs).count z = as.count z + [x].count z + bs.count z := by
  cases d with
  | left => simp only [Side.seq, List.count_append, ← List.singleton_append (l := bs)]; omega
  | right => simp only [Side.seq, List.count_append, ← List.singleton_append (l := as)]; omega

theorem count_allNodes (d : Side) (F : Side → Aside E) (t : BinaryTree E) (z : E) :
    (allNodes F t).count z =
      (asideNodes (F d)).count z + (asideNodes (F d.other)).count z + (inorder t).count z := by
  cases d with
  | left => simp only [allNodes, Side.other, List.count_append]; omega
  | right => simp only [allNodes, Side.other, List.count_append]; omega

theorem count_asideNodes_cons (z : E) : (asideNodes ((x, s) :: fs)).count z =
    [x].count z + (inorder s).count z + (asideNodes fs).count z := by
  rw [asideNodes_cons, ← List.singleton_append, List.count_append, List.count_append]
  omega

theorem count_wrap (d : Side) (fs : Aside E) (t : BinaryTree E) (z : E) :
    (inorder (wrap d fs t)).count z = (asideNodes fs).count z + (inorder t).count z := by
  induction fs generalizing t with
  | nil => simp [wrap, asideNodes]
  | cons f fs ih =>
      rw [wrap, ih, inorder_fork, count_seq, count_asideNodes_cons]
      omega

end Counts

/-- Nothing is lost and nothing added when the parts are put together. -/
theorem close_perm (F : Side → Aside E) (ht : t ≠ .nil) :
    (inorder (close F t)).Perm (allNodes F t) := by
  classical
  obtain ⟨a, x, b, rfl⟩ := (eq_nil_or_fork .left t).resolve_left ht
  refine List.perm_iff_count.mpr fun z => ?_
  rw [close_fork, inorder_fork, count_seq, count_wrap, count_wrap, count_allNodes .left,
    inorder_fork, count_seq]
  omega

/-- Putting the root aside moves its nodes. -/
theorem allNodes_put (d : Side) (F : Side → Aside E) (a : BinaryTree E) (x : E)
    (b : BinaryTree E) : (allNodes (Function.update F d.other ((x, b) :: F d.other)) a).Perm
      (allNodes F (fork d a x b)) := by
  classical
  have hd : d ≠ d.other := by cases d <;> exact nofun
  refine List.perm_iff_count.mpr fun z => ?_
  rw [count_allNodes d, count_allNodes d, Function.update_of_ne hd, Function.update_self,
    count_asideNodes_cons, inorder_fork, count_seq]
  omega

/-- A rotation moves no node from one part to another. -/
theorem allNodes_rotate (F : Side → Aside E) :
    allNodes F (fork d (fork d a y e) x b) = allNodes F (fork d a y (fork d e x b)) := by
  simp [allNodes]

end Parts

/-! ## The state of the loop -/

namespace SplayWork

/-- The nodes put aside on side `d` are linked, and the place for the next one holds `v`. -/
def Leads (w : SplayWork E) (d : Side) : Aside E → Option E → Prop
  | [], v => w.node.child d.other = v
  | (x, s) :: fs, v =>
      w.heap.entry x = splayEntryOf d (top s) v ∧ w.heap.Linked s ∧ w.Leads d fs (some x)

/-- The same, where that place holds anything: `__left` or `__right` points to its node. -/
def Spine (w : SplayWork E) (d : Side) : Aside E → Prop
  | [] => w.spot d = .node
  | (x, s) :: fs =>
      w.spot d = .elm x ∧ w.heap.child d x = top s ∧ w.heap.Linked s ∧ w.Leads d fs (some x)

/-- **The heap holds the three parts.** -/
structure Working (w : SplayWork E) (F : Side → Aside E) (t : BinaryTree E) : Prop where
  root : w.heap.root = top t
  linked : w.heap.Linked t
  spine : ∀ d, w.Spine d (F d)
  nodup : (allNodes F t).Nodup

variable {w w' : SplayWork E} {F : Side → Aside E} {fs : Aside E} {t a b e : BinaryTree E}
  {d : Side} {x y z : E} {v : Option E}

theorem mem_asideNodes_cons {s : BinaryTree E} :
    z ∈ asideNodes ((x, s) :: fs) ↔ z = x ∨ z ∈ inorder s ∨ z ∈ asideNodes fs := by
  simp

theorem Leads.congr (hl : w.Leads d fs v) (hn : w'.node.child d.other = w.node.child d.other)
    (hs : ∀ z ∈ asideNodes fs, w'.heap.entry z = w.heap.entry z) : w'.Leads d fs v := by
  induction fs generalizing v with
  | nil => exact hn.trans hl
  | cons f fs ih =>
      obtain ⟨x, s⟩ := f
      obtain ⟨he, hlink, hl⟩ := hl
      refine ⟨(hs x (mem_asideNodes_cons.mpr (.inl rfl))).trans he, hlink.congr fun z hz => ?_,
        ih hl fun z hz => ?_⟩
      · exact hs z (mem_asideNodes_cons.mpr (.inr (.inl hz)))
      · exact hs z (mem_asideNodes_cons.mpr (.inr (.inr hz)))

theorem Spine.congr (hl : w.Spine d fs) (hspot : w'.spot d = w.spot d)
    (hn : w'.node.child d.other = w.node.child d.other)
    (hs : ∀ z ∈ asideNodes fs, w'.heap.entry z = w.heap.entry z) : w'.Spine d fs := by
  cases fs with
  | nil => exact hspot.trans hl
  | cons f fs =>
      obtain ⟨x, s⟩ := f
      obtain ⟨he, hc, hlink, hl⟩ := hl
      refine ⟨hspot.trans he, ?_, hlink.congr fun z hz => ?_, hl.congr hn fun z hz => ?_⟩
      · rw [SplayHeap.child, hs x (mem_asideNodes_cons.mpr (.inl rfl))]
        exact hc
      · exact hs z (mem_asideNodes_cons.mpr (.inr (.inl hz)))
      · exact hs z (mem_asideNodes_cons.mpr (.inr (.inr hz)))

/-- The parts do not overlap. -/
structure Apart (F : Side → Aside E) (t : BinaryTree E) (d : Side) : Prop where
  aside : (asideNodes (F d)).Nodup
  tree : (inorder t).Nodup
  others : ∀ z ∈ asideNodes (F d), z ∉ asideNodes (F d.other)
  inner : ∀ z ∈ asideNodes (F d), z ∉ inorder t

theorem apart (hn : (allNodes F t).Nodup) (d : Side) : Apart F t d := by
  have hperm : (allNodes F t).Perm (asideNodes (F d) ++ (asideNodes (F d.other) ++ inorder t)) := by
    classical
    refine List.perm_iff_count.mpr fun z => ?_
    rw [count_allNodes d, List.count_append, List.count_append]
    omega
  obtain ⟨h₁, h₂, h₃⟩ := List.nodup_append.mp (hperm.nodup_iff.mp hn)
  refine ⟨h₁, (List.nodup_append.mp h₂).2.1, fun z hz hz' => ?_, fun z hz hz' => ?_⟩
  · exact h₃ z hz z (List.mem_append_left _ hz') rfl
  · exact h₃ z hz z (List.mem_append_right _ hz') rfl

theorem mem_allNodes (d : Side) :
    z ∈ allNodes F t ↔ z ∈ asideNodes (F d) ∨ z ∈ asideNodes (F d.other) ∨ z ∈ inorder t := by
  cases d with
  | left => simp [allNodes, Side.other]
  | right =>
      simp only [allNodes, List.mem_append, Side.other]
      grind

section Writes

variable [DecidableEq E]

@[simp] theorem setChild_spot (w : SplayWork E) (d : Side) (p : Spot E) (v : Option E) (d' : Side) :
    (w.setChild d p v).spot d' = w.spot d' := by
  cases p <;> cases d' <;> rfl

@[simp] theorem setChild_root (w : SplayWork E) (d : Side) (p : Spot E) (v : Option E) :
    (w.setChild d p v).heap.root = w.heap.root := by
  cases p <;> rfl

theorem setChild_node_other (w : SplayWork E) (d : Side) (p : Spot E) (v : Option E) :
    (w.setChild d p v).node.child d.other = w.node.child d.other := by
  cases p with
  | node => exact setChild_child_other d v _
  | elm x => rfl

/-- Filling in the place on side `d` writes to a node put aside there, or to none. -/
theorem Spine.entry_setChild (hl : w.Spine d fs) (d' : Side) (v : Option E)
    (hz : z ∉ asideNodes fs) :
    (w.setChild d' (w.spot d) v).heap.entry z = w.heap.entry z := by
  cases fs with
  | nil =>
      have hspot : w.spot d = .node := hl
      rw [hspot]
      rfl
  | cons f fs =>
      obtain ⟨x, s⟩ := f
      obtain ⟨hspot, -⟩ := hl
      have hne : z ≠ x := fun heq => hz (mem_asideNodes_cons.mpr (.inl heq))
      rw [hspot]
      exact SplayHeap.entry_setChild_of_ne _ _ _ hne

/-- The place on side `d` is filled in. -/
theorem Spine.fill (hl : w.Spine d fs) (hn : (asideNodes fs).Nodup) (v : Option E) :
    (w.setChild d.other (w.spot d) v).Leads d fs v := by
  cases fs with
  | nil =>
      have hspot : w.spot d = .node := hl
      rw [hspot]
      exact setChild_child d.other v _
  | cons f fs =>
      obtain ⟨x, s⟩ := f
      obtain ⟨hspot, hc, hlink, hl⟩ := hl
      rw [asideNodes_cons, List.nodup_cons, List.mem_append, not_or] at hn
      obtain ⟨⟨hxs, hxf⟩, -⟩ := hn
      rw [hspot]
      refine ⟨?_, hlink.setChild hxs _ _, hl.congr rfl fun z hz => ?_⟩
      · show (w.heap.setChild d.other x v).entry x = _
        rw [SplayHeap.entry_setChild, if_pos rfl, eq_splayEntryOf d (w.heap.entry x),
          splayEntryOf_setChild_other, ← hc]
        rfl
      · exact SplayHeap.entry_setChild_of_ne _ _ _ fun heq => hxf (heq ▸ hz)

end Writes

end SplayWork

end LibrePortable.Sys
