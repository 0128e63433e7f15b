import LibrePortable.Lib.Fuel
import LibrePortable.Sys.SplayView

/-!
# The loop of a splay tree

Each macro that the loop is made of does to the three parts what its name says, and so
the loop, put together with `SPLAY_ASSEMBLE`, makes of the tree in the heap what
`Splays` says of the tree alone, in as many turns. A node outside of the tree is not
written to.
-/

namespace LibrePortable.Sys

open Lib Lib.Splay

variable {E : Type}

/-- All nodes but those in `xs` are as they were. -/
def SameOff (xs : List E) (h h' : SplayHeap E) : Prop := ∀ z, z ∉ xs → h'.entry z = h.entry z

theorem SameOff.trans {xs : List E} {h h' h'' : SplayHeap E} (h₁ : SameOff xs h h')
    (h₂ : SameOff xs h' h'') : SameOff xs h h'' := fun z hz => (h₂ z hz).trans (h₁ z hz)

theorem SameOff.mono {xs ys : List E} {h h' : SplayHeap E} (hs : SameOff xs h h')
    (hsub : ∀ z ∈ xs, z ∈ ys) : SameOff ys h h' := fun z hz => hs z fun hx => hz (hsub z hx)

namespace SplayWork

variable {w w' : SplayWork E} {F : Side → Aside E} {t a b e : BinaryTree E} {d : Side}
  {x y z : E}

/-- The root becomes the last node put aside, and its child on side `d` the root. -/
def put (w : SplayWork E) (d : Side) (x : E) : SplayWork E :=
  (w.setSpot d.other (.elm x)).setHeap (w.heap.setRoot (w.heap.child d x))

@[simp] theorem put_spot_other (w : SplayWork E) (d : Side) (x : E) :
    (w.put d x).spot d.other = .elm x := by cases d <;> rfl

@[simp] theorem put_spot (w : SplayWork E) (d : Side) (x : E) :
    (w.put d x).spot d = w.spot d := by cases d <;> rfl

@[simp] theorem put_entry (w : SplayWork E) (d : Side) (x z : E) :
    (w.put d x).heap.entry z = w.heap.entry z := rfl

@[simp] theorem put_root (w : SplayWork E) (d : Side) (x : E) :
    (w.put d x).heap.root = w.heap.child d x := rfl

@[simp] theorem put_node (w : SplayWork E) (d : Side) (x : E) : (w.put d x).node = w.node := by
  cases d <;> rfl

theorem splayStart_working {h : SplayHeap E} (hr : h.root = top t) (hl : h.Linked t)
    (hn : (inorder t).Nodup) : (splayStart h).Working (fun _ => []) t where
  root := hr
  linked := hl
  spine d := by cases d <;> rfl
  nodup := by simpa [allNodes, asideNodes] using hn

variable [DecidableEq E]

theorem splayLink_eq (hroot : w.heap.root = some x) :
    splayLink d w = some ((w.setChild d (w.spot d.other) (some x)).put d x) := by
  simp only [splayLink, hroot, setChild_root, Option.bind_eq_bind, Option.bind_some,
    Option.pure_def, put]
  cases d <;> rfl

/-- `SPLAY_LINKLEFT`, `SPLAY_LINKRIGHT`: the root is put aside. -/
theorem Working.link (hw : w.Working F (fork d a x b)) : ∃ w', splayLink d w = some w' ∧
    w'.Working (Function.update F d.other ((x, b) :: F d.other)) a ∧
    SameOff (allNodes F (fork d a x b)) w.heap w'.heap := by
  obtain ⟨he, ha, hb⟩ := SplayHeap.linked_fork.mp hw.linked
  have hfar := apart hw.nodup d.other
  have hnear := apart hw.nodup d
  have hne : d ≠ d.other := by cases d <;> exact nofun
  -- what is written is the place on the other side
  have hkeep : ∀ z, z ∉ asideNodes (F d.other) →
      (w.setChild d (w.spot d.other) (some x)).heap.entry z = w.heap.entry z :=
    fun z hz => (hw.spine d.other).entry_setChild d _ hz
  have hin : ∀ z, z ∈ inorder a ∨ z = x ∨ z ∈ inorder b → z ∉ asideNodes (F d.other) := by
    intro z hz hf
    refine hfar.inner z hf ?_
    rw [inorder_fork, Side.mem_seq]
    exact hz
  have hx := hkeep x (hin x (.inr (.inl rfl)))
  have hfill : (w.setChild d (w.spot d.other) (some x)).Leads d.other (F d.other) (some x) := by
    have := (hw.spine d.other).fill hfar.aside (some x)
    rwa [Side.other_other] at this
  refine ⟨_, splayLink_eq (hw.root.trans top_fork), ⟨?_, ?_, fun d' => ?_, ?_⟩, fun z hz => ?_⟩
  · rw [put_root, SplayHeap.child, hx, he, splayEntryOf_child]
  · exact ha.congr fun z hz => hkeep z (hin z (.inl hz))
  · rcases Side.eq_or_eq_other d d' with rfl | rfl
    · rw [Function.update_of_ne hne]
      refine (hw.spine d').congr ?_ ?_ fun z hz => hkeep z (hnear.others z hz)
      · rw [put_spot, setChild_spot]
      · rw [put_node, setChild_node_other]
    · rw [Function.update_self]
      refine ⟨put_spot_other _ _ _, ?_, hb.congr fun z hz => hkeep z (hin z (.inr (.inr hz))),
        hfill.congr (by rw [put_node]) fun _ _ => rfl⟩
      rw [SplayHeap.child, put_entry, hx, he, splayEntryOf_child_other]
  · exact (allNodes_put d F a x b).nodup_iff.mpr hw.nodup
  · exact hkeep z fun hf => hz ((mem_allNodes d).mpr (.inr (.inl hf)))

omit [DecidableEq E] in
theorem Linked.setTwo {h h' : SplayHeap E} {s : BinaryTree E} (hl : h.Linked s)
    (hkeep : ∀ z, z ≠ x → z ≠ y → h'.entry z = h.entry z) (hx : x ∉ inorder s)
    (hy : y ∉ inorder s) : h'.Linked s :=
  hl.congr fun z hz => hkeep z (fun heq => hx (heq ▸ hz)) fun heq => hy (heq ▸ hz)

/-- What `SPLAY_ROTATE_RIGHT` and `SPLAY_ROTATE_LEFT` write. -/
theorem splayRotate_eq {h : SplayHeap E} {va ve vb : Option E} (hroot : h.root = some x)
    (hx : h.entry x = splayEntryOf d (some y) vb) (hy : h.entry y = splayEntryOf d va ve)
    (hxy : x ≠ y) : ∃ h', splayRotate d h y = some h' ∧ h'.root = some y ∧
      h'.entry x = splayEntryOf d ve vb ∧ h'.entry y = splayEntryOf d va (some x) ∧
      ∀ z, z ≠ x → z ≠ y → h'.entry z = h.entry z := by
  refine ⟨((h.setChild d x ve).setChild d.other y (some x)).setRoot (some y), ?_, rfl, ?_, ?_,
    fun z hzx hzy => ?_⟩
  · simp only [splayRotate, hroot, SplayHeap.child, hy, splayEntryOf_child_other,
      Option.bind_eq_bind, Option.bind_some, Option.pure_def, SplayHeap.root_setChild]
  · rw [SplayHeap.entry_setRoot, SplayHeap.entry_setChild_of_ne _ _ _ hxy,
      SplayHeap.entry_setChild, if_pos rfl, hx, splayEntryOf_setChild]
  · rw [SplayHeap.entry_setRoot, SplayHeap.entry_setChild, if_pos rfl,
      SplayHeap.entry_setChild_of_ne _ _ _ (Ne.symm hxy), hy, splayEntryOf_setChild_other]
  · rw [SplayHeap.entry_setRoot, SplayHeap.entry_setChild_of_ne _ _ _ hzy,
      SplayHeap.entry_setChild_of_ne _ _ _ hzx]

/-- `SPLAY_ROTATE_RIGHT`, `SPLAY_ROTATE_LEFT`: the root goes under its child. -/
theorem Working.rotate (hw : w.Working F (fork d (fork d a y e) x b)) :
    ∃ h, splayRotate d w.heap y = some h ∧ h.root = some y ∧ h.child d y = top a ∧
      (w.setHeap h).Working F (fork d a y (fork d e x b)) ∧
      SameOff (allNodes F (fork d (fork d a y e) x b)) w.heap h := by
  obtain ⟨hx, hy, hb⟩ := SplayHeap.linked_fork.mp hw.linked
  obtain ⟨hy, ha, he⟩ := SplayHeap.linked_fork.mp hy
  rw [top_fork] at hx
  obtain ⟨⟨hxl, hxb⟩, ⟨hin, -⟩, hab⟩ := nodup_fork.mp (apart hw.nodup d).tree
  obtain ⟨⟨hya, hye⟩, -, -⟩ := nodup_fork.mp hin
  rw [mem_fork, not_or, not_or] at hxl
  obtain ⟨hxa, hxy, hxe⟩ := hxl
  have hyb : y ∉ inorder b := hab y (mem_fork.mpr (.inr (.inl rfl)))
  obtain ⟨h, hrun, hroot, hx', hy', hkeep⟩ := splayRotate_eq (hw.root.trans top_fork) hx hy hxy
  -- the two nodes that are written to are under the root
  have hout : ∀ z, z ∉ inorder (fork d (fork d a y e) x b) → h.entry z = w.heap.entry z := by
    intro z hz
    rw [mem_fork, mem_fork, not_or, not_or, not_or, not_or] at hz
    exact hkeep z hz.2.1 hz.1.2.1
  refine ⟨h, hrun, hroot, ?_, ⟨?_, ?_, fun d' => ?_, ?_⟩, fun z hz => ?_⟩
  · rw [SplayHeap.child, hy', splayEntryOf_child]
  · exact hroot.trans top_fork.symm
  · refine SplayHeap.linked_fork.mpr ⟨?_, Linked.setTwo ha hkeep hxa hya,
      SplayHeap.linked_fork.mpr ⟨hx', Linked.setTwo he hkeep hxe hye,
        Linked.setTwo hb hkeep hxb hyb⟩⟩
    rw [top_fork]
    exact hy'
  · exact (hw.spine d').congr rfl rfl fun z hz => hout z ((apart hw.nodup d').inner z hz)
  · rw [← allNodes_rotate]
    exact hw.nodup
  · exact hout z fun hm => hz ((mem_allNodes d).mpr (.inr (.inr hm)))

omit [DecidableEq E] in
/-- A place that is filled in makes a linked tree of what is put aside. -/
theorem Leads.linked {fs : Aside E} (hl : w.Leads d fs (top t)) (ht : w.heap.Linked t) :
    w.heap.Linked (wrap d fs t) ∧ w.node.child d.other = top (wrap d fs t) := by
  induction fs generalizing t with
  | nil => exact ⟨ht, hl⟩
  | cons f fs ih =>
      obtain ⟨x, s⟩ := f
      obtain ⟨he, hs, hl⟩ := hl
      refine ih ?_ (SplayHeap.linked_fork.mpr ⟨he, hs, ht⟩)
      rw [top_fork]
      exact hl

/-- Both places are filled in, one after the other. -/
theorem Working.filled (hw : w.Working F t) (va vb : Option E) :
    ∃ w', w' = (w.setChild .right w.left va).setChild .left w.right vb ∧
      w'.Leads .left (F .left) va ∧ w'.Leads .right (F .right) vb ∧
      ∀ z, z ∉ asideNodes (F .left) → z ∉ asideNodes (F .right) →
        w'.heap.entry z = w.heap.entry z := by
  have hl := apart hw.nodup .left
  have hr := apart hw.nodup .right
  have hk₁ : ∀ z, z ∉ asideNodes (F .left) →
      (w.setChild .right w.left va).heap.entry z = w.heap.entry z :=
    fun z hz => (hw.spine .left).entry_setChild .right _ hz
  have hl₁ : (w.setChild .right w.left va).Leads .left (F .left) va :=
    (hw.spine .left).fill hl.aside _
  have hr₁ : (w.setChild .right w.left va).Spine .right (F .right) :=
    (hw.spine .right).congr (setChild_spot _ _ _ _ _) (setChild_node_other w .right w.left _)
      fun z hz => hk₁ z (hr.others z hz)
  have hspot : (w.setChild .right w.left va).spot .right = w.right := setChild_spot _ _ _ _ _
  have hk₂ : ∀ z, z ∉ asideNodes (F .right) →
      ((w.setChild .right w.left va).setChild .left w.right vb).heap.entry z =
        (w.setChild .right w.left va).heap.entry z := by
    intro z hz
    rw [← hspot]
    exact hr₁.entry_setChild .left _ hz
  refine ⟨_, rfl, ?_, ?_, fun z hzl hzr => (hk₂ z hzr).trans (hk₁ z hzl)⟩
  · exact hl₁.congr (setChild_node_other _ .left _ _) fun z hz => hk₂ z (hl.others z hz)
  · have := hr₁.fill hr.aside vb
    rwa [hspot] at this

/-- `SPLAY_ASSEMBLE` -/
theorem Working.assemble (hw : w.Working F t) (ht : t ≠ .nil) : ∃ h, splayAssemble w = some h ∧
    h.root = top (close F t) ∧ h.Linked (close F t) ∧ SameOff (allNodes F t) w.heap h := by
  have hperm := close_perm F ht
  have hnd := hperm.nodup_iff.mpr hw.nodup
  obtain ⟨a, x, b, rfl⟩ := (eq_nil_or_fork .left t).resolve_left ht
  have hroot : w.heap.root = some x := hw.root.trans top_fork
  obtain ⟨he, ha, hb⟩ := SplayHeap.linked_fork.mp hw.linked
  have hl := apart hw.nodup .left
  have hr := apart hw.nodup .right
  obtain ⟨w₂, hw₂, hleft, hright, hkeep⟩ := hw.filled (top a) (top b)
  have hin : ∀ z ∈ inorder (fork .left a x b), w₂.heap.entry z = w.heap.entry z := fun z hz =>
    hkeep z (fun hm => hl.inner z hm hz) fun hm => hr.inner z hm hz
  obtain ⟨hla, hna⟩ := hleft.linked (ha.congr fun z hz => hin z (mem_fork.mpr (.inl hz)))
  obtain ⟨hlb, hnb⟩ := hright.linked (hb.congr fun z hz => hin z (mem_fork.mpr (.inr (.inr hz))))
  rw [close_fork] at hnd hperm ⊢
  obtain ⟨⟨hxa, hxb⟩, -, -⟩ := nodup_fork.mp hnd
  have hroot₂ : w₂.heap.root = some x := by
    rw [hw₂, setChild_root, setChild_root]
    exact hroot
  have hrun : splayAssemble w = some ((w₂.heap.setChild .left x (w₂.node.child .right)).setChild
      .right x (w₂.node.child .left)) := by
    have hca : w.heap.child .left x = top a := by rw [SplayHeap.child, he]; rfl
    have hx₁ : (w.setChild .right w.left (top a)).heap.entry x = w.heap.entry x :=
      (hw.spine .left).entry_setChild .right _ fun hm =>
        hl.inner x hm (mem_fork.mpr (.inr (.inl rfl)))
    have hcb : (w.setChild .right w.left (top a)).heap.child .right x = top b := by
      rw [SplayHeap.child, hx₁, he]
      rfl
    have hspot : (w.setChild .right w.left (top a)).right = w.right :=
      setChild_spot w .right w.left (top a) .right
    simp only [splayAssemble, hroot, hca, hcb, hspot, Option.bind_eq_bind, Option.bind_some,
      Option.pure_def, hw₂]
  refine ⟨_, hrun, hroot₂.trans top_fork.symm, SplayHeap.linked_fork.mpr ⟨?_, ?_, ?_⟩,
    fun z hz => ?_⟩
  · simp only [SplayHeap.entry_setChild, if_true]
    exact congrArg₂ SplayEntry.mk hna hnb
  · exact (hla.setChild hxa _ _).setChild hxa _ _
  · exact (hlb.setChild hxb _ _).setChild hxb _ _
  · have hzx : z ≠ x := fun heq => hz ((mem_allNodes .left).mpr (.inr (.inr (mem_fork.mpr
      (.inr (.inl heq))))))
    rw [SplayHeap.entry_setChild_of_ne _ _ _ hzx, SplayHeap.entry_setChild_of_ne _ _ _ hzx]
    exact hkeep z (fun hm => hz ((mem_allNodes .left).mpr (.inl hm)))
      fun hm => hz ((mem_allNodes .left).mpr (.inr (.inl hm)))

/-! ## Turns -/

omit [DecidableEq E] in
theorem Working.child_eq (hw : w.Working F (fork d a x b)) : w.heap.child d x = top a := by
  rw [SplayHeap.child, (SplayHeap.linked_fork.mp hw.linked).1, splayEntryOf_child]

section Turns

variable (again : E → Bool)

/-- There is nothing on side `d`. -/
theorem Working.turn_edge (hw : w.Working F (fork d .nil x b)) :
    splayTurn d again w = some (w, false) := by
  have hroot : w.heap.root = some x := hw.root.trans top_fork
  have hc : w.heap.child d x = none := hw.child_eq
  simp only [splayTurn, hroot, hc, Option.bind_eq_bind, Option.bind_some, Option.pure_def]

/-- There is something on side `d`, and the rotation leaves nothing there. -/
theorem Working.turn_turned (hw : w.Working F (fork d (fork d .nil y e) x b)) (hy : again y) :
    ∃ w', splayTurn d again w = some (w', false) ∧
      w'.Working F (fork d .nil y (fork d e x b)) ∧
      SameOff (allNodes F (fork d (fork d .nil y e) x b)) w.heap w'.heap := by
  have hroot : w.heap.root = some x := hw.root.trans top_fork
  have hc : w.heap.child d x = some y := hw.child_eq.trans top_fork
  obtain ⟨h, hrot, hroot', hc', hw', hoff⟩ := hw.rotate
  have hnone : (h.child d y).isNone := by rw [hc']; rfl
  refine ⟨_, ?_, hw', hoff⟩
  simp only [splayTurn, hroot, hc, if_pos hy, hrot, hroot', if_pos hnone, Option.bind_eq_bind,
    Option.bind_some, Option.pure_def]

/-- The rotation leaves something there, and the new root is put aside. -/
theorem Working.turn_zigzig (hw : w.Working F (fork d (fork d a y e) x b)) (hy : again y)
    (ha : a ≠ .nil) : ∃ w', splayTurn d again w = some (w', true) ∧
      w'.Working (Function.update F d.other ((y, fork d e x b) :: F d.other)) a ∧
      SameOff (allNodes F (fork d (fork d a y e) x b)) w.heap w'.heap := by
  have hroot : w.heap.root = some x := hw.root.trans top_fork
  have hc : w.heap.child d x = some y := hw.child_eq.trans top_fork
  obtain ⟨h, hrot, hroot', hc', hw', hoff⟩ := hw.rotate
  obtain ⟨w', hlink, hw', hoff'⟩ := hw'.link
  have hsome : ¬ (h.child d y).isNone := by
    rw [hc', Option.isNone_iff_eq_none]
    exact fun hn => ha (top_eq_none.mp hn)
  refine ⟨w', ?_, hw', hoff.trans (by rw [allNodes_rotate]; exact hoff')⟩
  simp only [splayTurn, hroot, hc, if_pos hy, hrot, hroot', if_neg hsome, hlink,
    Option.bind_eq_bind, Option.bind_some, Option.pure_def]

/-- There is no rotation, and the root is put aside. -/
theorem Working.turn_zig (hw : w.Working F (fork d (fork d a y e) x b)) (hy : ¬ again y) :
    ∃ w', splayTurn d again w = some (w', true) ∧
      w'.Working (Function.update F d.other ((x, b) :: F d.other)) (fork d a y e) ∧
      SameOff (allNodes F (fork d (fork d a y e) x b)) w.heap w'.heap := by
  have hroot : w.heap.root = some x := hw.root.trans top_fork
  have hc : w.heap.child d x = some y := hw.child_eq.trans top_fork
  obtain ⟨w', hlink, hw', hoff⟩ := hw.link
  refine ⟨w', ?_, hw', hoff⟩
  simp only [splayTurn, hroot, hc, if_neg hy, hlink, Option.bind_eq_bind, Option.bind_some,
    Option.pure_def]

end Turns

/-! ## Runs of a loop -/

/-- A loop that stops at a node with `cut` 0 and otherwise takes a turn towards the place
where `cut` changes its sign. -/
structure Loops (loop : Nat → SplayWork E → Option (SplayWork E × Nat)) (cut : E → Int) : Prop where
  zero : ∀ w, loop 0 w = none
  found : ∀ w x fuel, w.heap.root = some x → cut x = 0 → loop (fuel + 1) w = some (w, fuel)
  turn : ∀ w x d fuel, w.heap.root = some x → d.Towards (cut x) → loop (fuel + 1) w =
    (splayTurn d (fun tmp => d.Towards (cut tmp)) w).bind fun turned =>
      if turned.2 then loop fuel turned.1 else some (turned.1, fuel)

theorem side_eq {n : Int} (h : d.Towards n) : (if n < 0 then Side.left else Side.right) = d := by
  cases d with
  | left => exact if_pos h
  | right => exact if_neg (Int.not_lt.mpr (Int.le_of_lt h))

theorem splayLoop_loops (cut : E → Int) : Loops (splayLoop cut) cut where
  zero _ := rfl
  found w x fuel hroot h0 := by
    simp only [splayLoop, hroot, h0, if_true, Option.bind_eq_bind, Option.bind_some,
      Option.pure_def]
  turn w x d fuel hroot hx := by
    simp only [splayLoop, hroot, if_neg hx.ne_zero, side_eq hx, Option.bind_eq_bind,
      Option.bind_some, Option.pure_def]

/-- With a number other than 0, `SPLAY_MINMAX` looks for a place beyond all nodes. -/
theorem splayMinMaxLoop_loops {comp : Int} (h : comp ≠ 0) :
    Loops (splayMinMaxLoop comp : Nat → SplayWork E → _) fun _ => comp where
  zero _ := rfl
  found w x fuel hroot h0 := absurd h0 h
  turn w x d fuel hroot hx := by
    simp only [splayMinMaxLoop, if_neg h, side_eq hx, Option.bind_eq_bind, Option.pure_def]

/-- What a run of a loop leaves. -/
structure Leaves (w : SplayWork E) (F : Side → Aside E) (t t' : BinaryTree E)
    (w' : SplayWork E) : Prop where
  parts : ∃ F' t'', w'.Working F' t'' ∧ t'' ≠ .nil ∧ close F' t'' = close F t' ∧
    (allNodes F' t'').Perm (allNodes F t)
  off : SameOff (allNodes F t) w.heap w'.heap

omit [DecidableEq E] in
/-- A node put aside with `s` behind it goes next to the top in the end. -/
theorem Leaves.put {w₁ : SplayWork E} {s p q : BinaryTree E} {v : E}
    (hl : Leaves w₁ (Function.update F d.other ((x, s) :: F d.other)) a (fork d p v q) w')
    (hperm : (allNodes (Function.update F d.other ((x, s) :: F d.other)) a).Perm (allNodes F t))
    (hoff : SameOff (allNodes F t) w.heap w₁.heap) :
    Leaves w F t (fork d p v (fork d q x s)) w' := by
  obtain ⟨⟨F', t'', hw', ht, hclose, hperm'⟩, hoff'⟩ := hl
  have hd : d ≠ d.other := by cases d <;> exact nofun
  refine ⟨⟨F', t'', hw', ht, ?_, hperm'.trans hperm⟩,
    hoff.trans (hoff'.mono fun z hz => hperm.mem_iff.mp hz)⟩
  rw [hclose, close_fork, close_fork, Function.update_of_ne hd, Function.update_self, wrap,
    fork_other]

/-- **The loop does to the three parts what `Splays` says.** -/
theorem Loops.splays {loop : Nat → SplayWork E → Option (SplayWork E × Nat)} {cut : E → Int}
    (hloop : Loops loop cut) {n : Nat} {t' : BinaryTree E} (hs : Splays cut t n t')
    (hw : w.Working F t) : ∃ w', Takes (loop · w) n w' ∧ Leaves w F t t' w' := by
  induction hs generalizing w F with
  | @found x a b h0 =>
      refine ⟨w, .last (hloop.zero w) fun fuel => hloop.found w x fuel hw.root h0,
        ⟨F, _, hw, nofun, rfl, .refl _⟩, fun _ _ => rfl⟩
  | @edge d x b hx =>
      refine ⟨w, .last (hloop.zero w) fun fuel => ?_,
        ⟨F, _, hw, fork_ne_nil, rfl, .refl _⟩, fun _ _ => rfl⟩
      rw [hloop.turn w x d fuel (hw.root.trans top_fork) hx, hw.turn_edge]
      rfl
  | @turned d x y b e hx hy =>
      obtain ⟨w', hturn, hw', hoff⟩ := hw.turn_turned
        (fun tmp => d.Towards (cut tmp)) (decide_eq_true hy)
      refine ⟨w', .last (hloop.zero w) fun fuel => ?_,
        ⟨F, _, hw', fork_ne_nil, rfl, by rw [← allNodes_rotate]⟩, hoff⟩
      rw [hloop.turn w x d fuel (hw.root.trans top_fork) hx, hturn]
      rfl
  | @zigzig d x y v a b e p q n hx hy hs ih =>
      obtain ⟨w₁, hturn, hw₁, hoff₁⟩ := hw.turn_zigzig
        (fun tmp => d.Towards (cut tmp)) (decide_eq_true hy) hs.start_ne_nil
      have hperm : (allNodes (Function.update F d.other ((y, fork d e x b) :: F d.other)) a).Perm
          (allNodes F (fork d (fork d a y e) x b)) := by
        rw [allNodes_rotate]
        exact allNodes_put d F a y _
      obtain ⟨w', htakes, hleaves⟩ := ih hw₁
      refine ⟨w', htakes.turn (hloop.zero w) fun fuel => ?_, hleaves.put hperm hoff₁⟩
      rw [hloop.turn w x d fuel (hw.root.trans top_fork) hx, hturn]
      rfl
  | @zig d x y v a b e p q n hx hy hs ih =>
      obtain ⟨w₁, hturn, hw₁, hoff₁⟩ := hw.turn_zig
        (fun tmp => d.Towards (cut tmp)) (by simpa using hy)
      obtain ⟨w', htakes, hleaves⟩ := ih hw₁
      refine ⟨w', htakes.turn (hloop.zero w) fun fuel => ?_,
        hleaves.put (allNodes_put d F _ x b) hoff₁⟩
      rw [hloop.turn w x d fuel (hw.root.trans top_fork) hx, hturn]
      rfl

end SplayWork

end LibrePortable.Sys
