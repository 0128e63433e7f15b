import LibrePortable.Sys.TreeView

/-!
# Repairing the colours

`RB_INSERT_COLOR` starts below a red node that may hang under a red parent, and
`RB_REMOVE_COLOR` at a place where one black node is missing. Each turn of either loop
either settles the matter with rotations at hand or moves the trouble further up, and
what the context still demands (`Fits`) says that the nodes the code looks at are
there.
-/

namespace LibrePortable.Sys

open Lib Lib.RbTree Lib.Frame

variable {E : Type}

namespace RbHeap

/-! ## What the code reads -/

section Reads

variable {h : RbHeap E} {ctx : List (Frame E)} {t a b e : RbTree E} {d d' : Side} {c c' : Color}
  {x y : E} {p : Option E} {f : Frame E}

theorem View.parent_eq (hv : h.View ctx (fork d c a x b)) : h.parent x = above ctx := by
  simp [parent, (linked_fork.mp hv.inner).1]

theorem View.color_eq (hv : h.View ctx (fork d c a x b)) : h.color x = c := by
  simp [color, (linked_fork.mp hv.inner).1]

theorem View.near_eq (hv : h.View ctx (fork d c a x b)) : h.child d x = a.top := by
  simp [child, (linked_fork.mp hv.inner).1]

theorem View.far_eq (hv : h.View ctx (fork d c a x b)) : h.child d.other x = b.top := by
  simp [child, (linked_fork.mp hv.inner).1]

theorem Linked.isRed (hl : h.Linked p t) : h.isRed t.top = decide (t.color = .red) := by
  obtain rfl | ⟨c, a, x, b, rfl⟩ := eq_nil_or_fork .left t
  · rfl
  · simp [RbHeap.isRed, RbHeap.color, (linked_fork.mp hl).1]

theorem View.isRed (hv : h.View ctx t) : h.isRed t.top = decide (t.color = .red) :=
  hv.inner.isRed

theorem View.isRed_sib (hv : h.View (f :: ctx) t) :
    h.isRed f.sib.top = decide (f.sib.color = .red) :=
  hv.outer.2.1.isRed

theorem View.isRed_above (hv : h.View (f :: ctx) t) :
    h.isRed (above (f :: ctx)) = decide (f.color = .red) := by
  have := (view_cons.mp hv).color_eq
  simp [above, RbHeap.isRed, this]

/-- The code looks at the left link to find out which side of a node the hole is on. -/
theorem View.side_eq [DecidableEq E] (hv : h.View (f :: ctx) t) (hne : t.top ≠ f.sib.top) :
    (if h.child .left f.elem = t.top then Side.left else .right) = f.side := by
  obtain ⟨d, c, x, sib⟩ := f
  have hn := (view_cons.mp hv).near_eq
  have hf := (view_cons.mp hv).far_eq
  cases d with
  | left => rw [if_pos hn]
  | right =>
      rw [if_neg]
      intro ht
      exact hne (ht.symm.trans hf)

/-- Two subtrees of one node begin differently, unless both are empty. -/
theorem top_ne_of_disjoint (hd : ∀ z ∈ a.toList, z ∉ b.toList) (hb : a ≠ .nil ∨ b ≠ .nil) :
    a.top ≠ b.top := by
  intro ht
  cases a with
  | nil =>
      cases b with
      | nil => simp at hb
      | node => cases ht
  | node c l x r => exact hd x (by simp [toList]) (top_mem ht.symm)

theorem View.disjoint_sib (hv : h.View (f :: ctx) t) : ∀ z ∈ t.toList, z ∉ f.sib.toList :=
  (nodup_fork.mp (nodup_of_plug (view_cons.mp hv).nodup)).2.2

end Reads

section Repairs

variable [DecidableEq E] {h : RbHeap E} {ctx : List (Frame E)} {t a b e u : RbTree E}
  {d d' : Side} {c c' c₁ : Color} {x y : E} {n : Nat}

/-! ## Working next to the place of view -/

omit [DecidableEq E] in
/-- A node is its near subtree in the hole of a frame. -/
theorem view_near : h.View ctx (fork d c t y e) ↔ h.View (⟨d, c, y, e⟩ :: ctx) t :=
  (view_cons (f := ⟨d, c, y, e⟩)).symm

omit [DecidableEq E] in
theorem view_far : h.View ctx (fork d c e y t) ↔ h.View (⟨d.other, c, y, e⟩ :: ctx) t := by
  rw [view_cons, fill, fork_other]

omit [DecidableEq E] in
/-- A repair has succeeded: the heap holds a red-black tree of the nodes `l`. -/
def Repaired (result : Option (RbHeap E)) (l : List E) : Prop :=
  ∃ h' t', result = some h' ∧ h'.View [] t' ∧ t'.RedBlack ∧ t'.toList = l

@[simp] theorem blacken_some (h : RbHeap E) (x : E) :
    h.blacken (some x) = h.setColor x .black := rfl

theorem View.blacken (hv : h.View ctx t) : (h.blacken t.top).View ctx (t.paint .black) := by
  obtain rfl | ⟨c, a, x, b, rfl⟩ := eq_nil_or_fork .left t
  · exact hv
  · rw [paint_fork, top_fork]
    exact hv.setColor .black

theorem View.setColor_near (hv : h.View ctx (fork d c (fork d' c' a x b) y e)) (c₁ : Color) :
    (h.setColor x c₁).View ctx (fork d c (fork d' c₁ a x b) y e) :=
  view_near.mpr ((view_near.mp hv).setColor c₁)

theorem View.setColor_far (hv : h.View ctx (fork d c e y (fork d' c' a x b))) (c₁ : Color) :
    (h.setColor x c₁).View ctx (fork d c e y (fork d' c₁ a x b)) :=
  view_far.mpr ((view_far.mp hv).setColor c₁)

theorem View.blacken_far (hv : h.View ctx (fork d c e y t)) :
    (h.blacken t.top).View ctx (fork d c e y (t.paint .black)) :=
  view_far.mpr (view_far.mp hv).blacken

/-- The root is painted black at the end. -/
theorem View.finish (hv : h.View [] t) : (h.blacken h.root).View [] (t.paint .black) := by
  have ht : h.root = t.top := hv.outer
  rw [ht]
  exact hv.blacken

/-! ## Insertion -/

/-- The loop ends where there is no red parent. -/
theorem rbInsertColor_stop (hv : h.View ctx (fork d c a x b))
    (hp : h.isRed (above ctx) = false) (fuel : Nat) :
    ∃ h', rbInsertColor (fuel + 1) h x = some h' ∧
      h'.View [] ((plug ctx (fork d c a x b)).paint .black) := by
  have hw := hv.whole
  have hroot : h.root = (plug ctx (fork d c a x b)).top := hw.outer
  obtain ht | ⟨c', a', y, b', ht⟩ := eq_nil_or_fork .left (plug ctx (fork d c a x b))
  · have hm : x ∈ (plug ctx (fork d c a x b)).toList := by simp [toList_plug]
    rw [ht] at hm
    exact absurd hm List.not_mem_nil
  · rw [ht] at hw hroot ⊢
    rw [top_fork] at hroot
    refine ⟨h.setColor y .black, ?_, by rw [paint_fork]; exact hw.setColor .black⟩
    simp [rbInsertColor, hv.parent_eq, hp, hroot]

/-- The rotation at the grandparent, once the red nodes are in line on side `d`. -/
theorem View.turn_outer (hv : h.View ctx (fork d .black (fork d .red t x a) y u)) :
    ∃ h', rbRotate d.other (h.setBlackRed x y) y = some h' ∧
      h'.View ctx (fork d .black t x (fork d .red a y u)) := by
  have h₁ := (hv.setColor_near .black).setColor .red
  rw [← fork_other, ← fork_other (d := d)] at h₁
  obtain ⟨h', hr, hv'⟩ := h₁.rotate
  rw [fork_other, fork_other] at hv'
  exact ⟨h', hr, hv'⟩

/-- The loop ends below the black node that the rotations leave on top. -/
theorem rbInsertColor_turned (hv : h.View ctx (fork d .black (fork d' .red a x b) y e))
    (hf : Fits ctx (n + 1)) (ht : (fork d .black (fork d' .red a x b) y e).Valid (n + 1))
    {fuel : Nat} (hfuel : 0 < fuel) :
    Repaired (rbInsertColor fuel h x)
      (plug ctx (fork d .black (fork d' .red a x b) y e)).toList := by
  obtain ⟨fuel, rfl⟩ := Nat.exists_eq_add_one.mpr hfuel
  have hv' := view_near.mp hv
  obtain ⟨h', hr, hv''⟩ := rbInsertColor_stop hv' (by simp [hv'.isRed_above]) fuel
  have hrb := hf.redBlack ht fun hc => by simp at hc
  rw [plug, fill, paint_of_color hrb.1] at hv''
  exact ⟨h', _, hr, hv'', hrb, rfl⟩

/-- **`RB_INSERT_COLOR` restores the red-black tree** around a red node whose subtree
and whose surroundings are in order. -/
theorem rbInsertColor_view (hv : h.View ctx (fork d .red a x b)) (hf : Fits ctx n)
    (ht : (fork d .red a x b).Valid n) {fuel : Nat} (hfuel : ctx.length < fuel) :
    Repaired (rbInsertColor fuel h x) (plug ctx (fork d .red a x b)).toList := by
  induction fuel using Nat.strong_induction_on generalizing h ctx d a x b n with
  | _ fuel ih =>
  obtain ⟨fuel, rfl⟩ := Nat.exists_eq_add_one.mpr (Nat.zero_lt_of_lt hfuel)
  cases ctx with
  | nil =>
      obtain ⟨h', hr, hv'⟩ := rbInsertColor_stop hv rfl fuel
      refine ⟨h', _, hr, hv', ?_, toList_paint⟩
      rw [plug, paint_fork]
      exact ⟨color_fork, _, valid_fork_black.mpr (valid_fork_red.mp ht).2⟩
  | cons f ctx =>
      obtain ⟨df, cf, p, s⟩ := f
      cases cf with
      | black =>
          obtain ⟨h', hr, hv'⟩ := rbInsertColor_stop hv (by simp [hv.isRed_above]) fuel
          have hrb := hf.redBlack ht fun _ => rfl
          rw [paint_of_color hrb.1] at hv'
          exact ⟨h', _, hr, hv', hrb, rfl⟩
      | red =>
          obtain ⟨hs, hsc, hpb, hf⟩ := hf
          cases ctx with
          | nil => cases hpb
          | cons g ctx =>
              obtain ⟨dg, cg, g, u⟩ := g
              obtain rfl : cg = .black := hpb
              obtain ⟨hu, hf⟩ := hf
              have hvp := view_cons.mp hv
              have hvg := view_cons.mp hvp
              simp only [fill] at hvp hvg
              have hlt : 0 < fuel := by
                simp only [List.length_cons] at hfuel
                omega
              have hpar : h.parent x = some p := hv.parent_eq
              have hred : h.isRed (some p) = true := hv.isRed_above
              have hgpar : h.parent p = some g := hvp.parent_eq
              have hside : (if h.child .left g = some p then Side.left else .right) = dg := by
                have hne := top_ne_of_disjoint hvp.disjoint_sib (Or.inl fork_ne_nil)
                simpa using hvp.side_eq hne
              have huncle : h.child dg.other g = u.top := hvg.far_eq
              have hured : h.isRed u.top = decide (u.color = .red) := hvp.isRed_sib
              simp only [rbInsertColor, hpar, hred, hgpar, hside, huncle, hured,
                Option.bind_eq_bind, Option.bind_some, if_true, decide_eq_true_eq]
              simp only [List.length_cons] at hfuel
              obtain huc | huc := eq_black_or_red u.color
              · rw [if_neg (by simp [huc])]
                rcases Side.eq_or_eq_other dg df with rfl | rfl
                · -- `elm` is on the outer side of its parent
                  have hfar : h.child df.other p ≠ some x := by
                    rw [hvp.far_eq]
                    exact fun hst => hv.disjoint_sib x (by simp) (top_mem hst)
                  rw [if_neg hfar]
                  obtain ⟨h', hr, hv'⟩ := hvg.turn_outer
                  have hval := valid_fork_black (d := df) (x := p) |>.mpr
                    ⟨ht, valid_fork_red (d := df) (x := g) |>.mpr ⟨⟨hsc, huc⟩, hs, hu⟩⟩
                  obtain ⟨h'', t', hr', hv'', hrb, hlist⟩ :=
                    rbInsertColor_turned hv' hf hval hlt
                  refine ⟨h'', t', by simp [hr, hr'], hv'', hrb, hlist.trans ?_⟩
                  exact toList_plug_congr (by simp [fill])
                · -- `elm` is on the inner side
                  obtain ⟨a', b', hturn⟩ := fork_turn d dg .red a x b
                  have hnear : h.child dg.other p = some x := by
                    rw [hvp.near_eq, top_fork]
                  rw [if_pos hnear]
                  rw [hturn] at hvp ht ⊢
                  rw [fork_other] at hvp
                  obtain ⟨h₁, hr₁, hv₁⟩ := hvp.rotate
                  obtain ⟨h₂, hr₂, hv₂⟩ := (view_cons.mp hv₁).turn_outer
                  obtain ⟨⟨hac, hbc⟩, ha, hb⟩ := valid_fork_red.mp ht
                  have hval := valid_fork_black (d := dg) (x := x) |>.mpr
                    ⟨valid_fork_red (d := dg) (x := p) |>.mpr ⟨⟨hsc, hac⟩, hs, ha⟩,
                      valid_fork_red (d := dg) (x := g) |>.mpr ⟨⟨hbc, huc⟩, hb, hu⟩⟩
                  obtain ⟨h', t', hr', hv', hrb, hlist⟩ :=
                    rbInsertColor_turned hv₂ hf hval hlt
                  refine ⟨h', t', by simp [hr₁, hr₂, hr'], hv', hrb, hlist.trans ?_⟩
                  exact toList_plug_congr (by simp [fill])
              · rw [if_pos huc]
                -- a red uncle: the trouble moves up to the grandparent
                have h₁ := (hvg.blacken_far.setColor_near .black).setColor .red
                have hval := valid_fork_red (d := dg) (x := g) |>.mpr
                  ⟨⟨color_fork, by cases u <;> rfl⟩,
                    valid_fork_black (d := df) (x := p) |>.mpr ⟨ht, hs⟩, hu.paint_black huc⟩
                obtain ⟨h', t', hr, hv', hrb, hlist⟩ :=
                  ih fuel (by omega) h₁ hf hval (by omega)
                refine ⟨h', t', hr, hv', hrb, hlist.trans ?_⟩
                exact toList_plug_congr (by simp [fill])

/-! ## Removal -/

omit [DecidableEq E] in
/-- A place with a node above it is not where the root pointer leads. -/
theorem View.top_ne_root {f : Frame E} (hv : h.View (f :: ctx) t) : t.top ≠ h.root := by
  have hw : h.root = (plug (f :: ctx) t).top := hv.whole.outer
  obtain ⟨y, hy, g, hg, rfl⟩ : ∃ y, (plug (f :: ctx) t).top = some y ∧ ∃ g ∈ f :: ctx, g.elem = y :=
    top_plug
  rw [hw, hy]
  intro ht
  have hm : Around (f :: ctx) g.elem := by
    clear hv hw hy ht
    induction ctx generalizing f with
    | nil => exact around_cons.mpr (Or.inl (by rw [List.mem_singleton.mp hg]))
    | cons f' ctx ih =>
        rcases List.mem_cons.mp hg with rfl | hg
        · exact around_cons.mpr (Or.inl rfl)
        · exact around_cons.mpr (Or.inr (Or.inr (ih hg)))
  exact notMem_of_around hv.nodup hm (top_mem ht)

/-- A red node in the hole makes up for the missing black one. -/
theorem rbRemoveColor_red (hv : h.View ctx t) (hf : Fits ctx (n + 1)) (hc : t.color = .red)
    (ht : (t.paint .black).Valid (n + 1)) {fuel : Nat} (hfuel : 0 < fuel) (p : Option E) :
    Repaired (rbRemoveColor fuel h p t.top) (plug ctx t).toList := by
  obtain ⟨fuel, rfl⟩ := Nat.exists_eq_add_one.mpr hfuel
  have hb : (t.paint .black).color = .black := by cases t <;> rfl
  refine ⟨h.blacken t.top, plug ctx (t.paint .black), ?_, hv.blacken.whole,
    hf.redBlack ht fun hr => by simp [hb] at hr, toList_plug_congr toList_paint⟩
  simp [rbRemoveColor, hv.isRed, hc]

omit [DecidableEq E] in
/-- The test for two black children, on whichever sides they are. -/
theorem View.both_black (hv : h.View ctx (fork d c a x b)) :
    (¬ h.isRed (h.child .left x) ∧ ¬ h.isRed (h.child .right x)) ↔
      (a.color = .black ∧ b.color = .black) := by
  have ha := (view_near.mp hv).isRed
  have hb := (view_far.mp hv).isRed
  have hna := hv.near_eq
  have hnb := hv.far_eq
  cases d <;> simp only [Side.other] at hnb <;> rw [hna, hnb, ha, hb] <;>
    cases a.color <;> cases b.color <;> simp

/-- The end of a turn, once the child of `tmp` on the far side is red. -/
theorem rbRemoveTurn_view (hv : h.View ctx (fork d c t y (fork d .black a x b)))
    (ht : t.Valid n) (ha : a.Valid n) (hb : b.Valid n) (hbc : b.color = .red) :
    ∃ h' t', rbRemoveTurn d h y x = some h' ∧ h'.View ctx t' ∧ t'.color = c ∧
      t'.Valid (c.up (n + 1)) ∧
      t'.toList = (fork d c t y (fork d .black a x b)).toList := by
  have h₁ := (hv.setColor_far c).setColor .black
  have hfar := (view_far.mp h₁).far_eq
  have h₂ := view_far.mpr (view_far.mp h₁).blacken_far
  obtain ⟨h', hr, hv'⟩ := h₂.rotate
  refine ⟨h', _, ?_, hv', color_fork, valid_fork_up.mpr ⟨fun _ => ⟨color_fork, ?_⟩,
    valid_fork_black.mpr ⟨ht, ha⟩, hb.paint_black hbc⟩, ?_⟩
  · rw [rbRemoveTurn, hv.color_eq]
    simp only [hfar]
    exact hr
  · cases b <;> rfl
  · simp

/-- **One turn of `RB_REMOVE_COLOR`**, with a black sibling `x` of the place where a
black node is missing: either the sibling turns red and the black node is missing one
level up, or rotations put everything in order. -/
theorem rbRemoveCases_view (hv : h.View ctx (fork d c t y (fork d .black a x b)))
    (ht : t.Valid n) (ha : a.Valid n) (hb : b.Valid n) :
    ∃ h' r, rbRemoveCases d h y x = some (h', r) ∧
      ((r = none ∧ (a.color = .black ∧ b.color = .black) ∧
          h'.View ctx (fork d c t y (fork d .red a x b))) ∨
        (r = some h'.root ∧ ∃ t', h'.View ctx t' ∧ t'.color = c ∧ t'.Valid (c.up (n + 1)) ∧
          t'.toList = (fork d c t y (fork d .black a x b)).toList)) := by
  have hvx := view_far.mp hv
  have hboth := hvx.both_black
  by_cases hbb : a.color = .black ∧ b.color = .black
  · refine ⟨h.setColor x .red, none, ?_, Or.inl ⟨rfl, hbb, hv.setColor_far .red⟩⟩
    rw [rbRemoveCases, if_pos (hboth.mpr hbb)]
  · rcases eq_black_or_red b.color with hbc | hbc
    · -- the red child is on the near side: rotate it to the far side first
      have hac : a.color = .red := (eq_black_or_red a.color).resolve_left fun hac => hbb ⟨hac, hbc⟩
      obtain rfl | ⟨ca, B, o, C, rfl⟩ := eq_nil_or_fork d.other a
      · cases hac
      obtain rfl : ca = .red := by simpa using hac
      obtain ⟨⟨hBc, -⟩, hB, hC⟩ := valid_fork_red.mp ha
      have hv₁ := (hvx.setColor_near .black).setColor .red
      rw [← fork_other] at hv₁
      obtain ⟨h₁, hr₁, hv₂⟩ := hv₁.rotate
      rw [fork_other, fork_other] at hv₂
      have hv₃ := view_far.mpr hv₂
      obtain ⟨h', t', hr, hv', hc, hval, hlist⟩ := rbRemoveTurn_view hv₃ ht hC
        (valid_fork_red.mpr ⟨⟨hBc, hbc⟩, hB, hb⟩) color_fork
      refine ⟨h', some h'.root, ?_, Or.inr ⟨rfl, t', hv', hc, hval, hlist.trans (by simp)⟩⟩
      have hfar : h.isRed (h.child d.other x) = false := by
        rw [hvx.far_eq, (view_far.mp hvx).isRed, hbc]
        rfl
      have hnear : h.child d x = some o := by rw [hvx.near_eq, top_fork]
      have htmp : h₁.child d.other y = some o := by rw [hv₃.far_eq, top_fork]
      rw [rbRemoveCases, if_neg (mt hboth.mp hbb)]
      simp [hfar, hnear, hr₁, htmp, hr]
    · obtain ⟨h', t', hr, hv', hc, hval, hlist⟩ := rbRemoveTurn_view hv ht ha hb hbc
      refine ⟨h', some h'.root, ?_, Or.inr ⟨rfl, t', hv', hc, hval, hlist⟩⟩
      have hfar : h.isRed (h.child d.other x) = true := by
        rw [hvx.far_eq, (view_far.mp hvx).isRed, hbc]
        rfl
      rw [rbRemoveCases, if_neg (mt hboth.mp hbb)]
      simp [hfar, hr]

/-- What follows a turn: the loop goes on one level up, or ends with `elm` at the root. -/
theorem rbRemoveCases_repaired (hv : h.View ctx (fork d c t y (fork d .black a x b)))
    (hf : Fits ctx (c.up (n + 1))) (hp : c = .red → ParentBlack ctx)
    (ht : t.Valid n) (ha : a.Valid n) (hb : b.Valid n) {fuel : Nat} (hfuel : 0 < fuel)
    (hnext : c = .black → ∀ h' : RbHeap E, h'.View ctx (fork d c t y (fork d .red a x b)) →
      (fork d c t y (fork d .red a x b)).Valid (n + 1) →
      Repaired (rbRemoveColor fuel h' (above ctx) (some y))
        (plug ctx (fork d c t y (fork d .red a x b))).toList) :
    Repaired (rbRemoveCases d h y x >>= fun turned =>
        match turned.2 with
        | none => rbRemoveColor fuel turned.1 (turned.1.parent y) (some y)
        | some elm => pure (turned.1.blacken elm))
      (plug ctx (fork d c t y (fork d .black a x b))).toList := by
  have hlist : (plug ctx (fork d c t y (fork d .red a x b))).toList =
      (plug ctx (fork d c t y (fork d .black a x b))).toList := toList_plug_congr (by simp)
  obtain ⟨h', r, hr, ⟨rfl, hbb, hv'⟩ | ⟨rfl, t', hv', hc, hval, hl⟩⟩ :=
    rbRemoveCases_view hv ht ha hb
  · have hred : (fork d .red a x b).Valid n := valid_fork_red.mpr ⟨hbb, ha, hb⟩
    simp only [hr, Option.bind_eq_bind, Option.bind_some, hv'.parent_eq]
    rw [← hlist]
    rcases eq_black_or_red c with rfl | rfl
    · exact hnext rfl h' hv' (valid_fork_black.mpr ⟨ht, hred⟩)
    · have := rbRemoveColor_red hv' hf color_fork
        (by rw [paint_fork]; exact valid_fork_black.mpr ⟨ht, hred⟩) hfuel (above ctx)
      rwa [top_fork] at this
  · have hrb := hf.redBlack hval fun hr => hp (hc.symm.trans hr)
    have hfin := hv'.whole.finish
    rw [paint_of_color hrb.1] at hfin
    exact ⟨_, _, by simp [hr], hfin, hrb, toList_plug_congr hl⟩

/-- **`RB_REMOVE_COLOR` restores the red-black tree** around a place where one black
node is missing on every way down. -/
theorem rbRemoveColor_view (hv : h.View ctx t) (hf : Fits ctx (n + 1)) (ht : t.Valid n)
    {fuel : Nat} (hfuel : ctx.length < fuel) :
    Repaired (rbRemoveColor fuel h (above ctx) t.top) (plug ctx t).toList := by
  induction fuel using Nat.strong_induction_on generalizing h ctx t n with
  | _ fuel ih =>
  rcases eq_black_or_red t.color with htc | htc
  · obtain ⟨fuel, rfl⟩ := Nat.exists_eq_add_one.mpr (Nat.zero_lt_of_lt hfuel)
    cases ctx with
    | nil =>
        have hroot : h.root = t.top := hv.outer
        refine ⟨h.blacken t.top, t, ?_, ?_, ⟨htc, n, ht⟩, rfl⟩
        · simp [rbRemoveColor, hroot]
        · have := hv.blacken
          rwa [paint_of_color htc] at this
    | cons f ctx =>
        replace hfuel : ctx.length < fuel := by simpa using hfuel
        obtain ⟨hs, hred, hf⟩ := fits_cons.mp hf
        have hne : f.sib ≠ .nil := fun hnil => by
          rw [hnil] at hs
          exact absurd (valid_nil.mp hs) (Nat.succ_ne_zero n)
        have hside := hv.side_eq (top_ne_of_disjoint hv.disjoint_sib (Or.inr hne))
        obtain ⟨d, c, y, s⟩ := f
        obtain ⟨cs, a, x, b, rfl⟩ := hs.eq_fork d
        have hvy := view_near.mpr hv
        have htmp : h.child d.other y = some x := by rw [hvy.far_eq, top_fork]
        have hcolor : h.color x = cs := (view_far.mp hvy).color_eq
        have hroot := hv.top_ne_root
        have hbk : h.isRed t.top = false := by rw [hv.isRed, htc]; rfl
        simp only [above] at hside ⊢
        rw [rbRemoveColor, if_pos ⟨by simp [hbk], hroot⟩]
        simp only [hside, htmp, hcolor, Option.bind_eq_bind, Option.bind_some]
        rcases eq_black_or_red cs with rfl | rfl
        · obtain ⟨ha, hb⟩ := valid_fork_black.mp hs
          have hkey := rbRemoveCases_repaired hvy hf (fun hr => (hred hr).2) ht ha hb
            (Nat.zero_lt_of_lt hfuel) fun hc h' hv' hval => by
              subst hc
              have := ih fuel (Nat.lt_succ_self _) hv' hf hval hfuel
              rwa [top_fork] at this
          simp only [reduceCtorEq, if_false, Option.pure_def, Option.bind_some]
          exact hkey
        · -- a red sibling: rotate it away, and a black one takes its place
          obtain rfl : c = .black := (eq_black_or_red c).resolve_right fun hr => by
            exact absurd (hred hr).1 (by simp)
          obtain ⟨⟨hac, -⟩, ha, hb⟩ := valid_fork_red.mp hs
          have hv₁ := (hvy.setColor_far .black).setColor .red
          obtain ⟨h₁, hr₁, hv₂⟩ := hv₁.rotate
          have hv₃ := view_near.mp hv₂
          have hf₃ : Fits (⟨d, .black, x, b⟩ :: ctx) (n + 1) := ⟨hb, hf⟩
          obtain ⟨ca, a₁, x₁, b₁, rfl⟩ := ha.eq_fork d
          obtain rfl : ca = .black := by simpa using hac
          obtain ⟨ha₁, hb₁⟩ := valid_fork_black.mp ha
          have htmp₁ : h₁.child d.other y = some x₁ := by rw [hv₃.far_eq, top_fork]
          have hkey := rbRemoveCases_repaired hv₃ hf₃ (fun _ => rfl) ht ha₁ hb₁
            (Nat.zero_lt_of_lt hfuel) fun hc => by cases hc
          have hturn : (fork d .black (fork d .red t y (fork d .black a₁ x₁ b₁)) x b).toList =
              (fork d .black t y (fork d .red (fork d .black a₁ x₁ b₁) x b)).toList := by simp
          have hlist : (plug (⟨d, .black, x, b⟩ :: ctx)
              (fork d .red t y (fork d .black a₁ x₁ b₁))).toList =
              (plug (⟨d, .black, y, fork d .red (fork d .black a₁ x₁ b₁) x b⟩ :: ctx) t).toList :=
            toList_plug_congr hturn
          rw [hlist] at hkey
          simp only [setBlackRed, hr₁, htmp₁, if_true, Option.pure_def, Option.bind_some]
          exact hkey
  · exact rbRemoveColor_red hv hf htc (ht.paint_black htc) (Nat.zero_lt_of_lt hfuel) _

end Repairs

end RbHeap

end LibrePortable.Sys
