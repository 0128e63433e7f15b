import LibrePortable.Sys.TreeRuns

/-!
# What holds of the heap

The conditions on a red-black tree, said of the links, parent pointers and colours
themselves. They hold after every operation of a run, and the loops that follow the
links visit the nodes in order.
-/

namespace LibrePortable.Sys

open Lib Lib.RbTree Lib.Frame RbHeap

variable {E : Type} {cmp : E → E → Int} {h : RbHeap E} {x y : E}

/-- `Descends h p n b`: a way down from the link `p` to a NULL pointer meets `n` nodes,
`b` of them black. -/
inductive Descends (h : RbHeap E) : Option E → Nat → Nat → Prop where
  | null : Descends h none 0 0
  | node {x : E} (d : Side) {n b : Nat} :
      Descends h (h.child d x) n b → Descends h (some x) (n + 1) ((h.color x).up b)

/-- **What is kept of the heap by all operations.** -/
structure RbSound [DecidableEq E] (cmp : E → E → Int) (h : RbHeap E) (s : Finset E) : Prop where
  /-- The in-order sequence is strictly increasing. -/
  inOrder : InOrder cmp h s
  /-- The parent pointer of a child points back. -/
  parent : ∀ x ∈ s, ∀ d y, h.child d x = some y → h.parent y = some x
  /-- The root has no parent and is black. -/
  root : ∀ x, h.root = some x → h.parent x = none ∧ h.color x = .black
  /-- A red node has no red child. -/
  red : ∀ x ∈ s, h.color x = .red → ∀ d y, h.child d x = some y → h.color y = .black
  /-- All ways from the root down meet the same number of black nodes. -/
  black : ∃ m, ∀ n b, Descends h h.root n b → b = m
  /-- They meet at most `2 lg(n + 1)` nodes. -/
  height : ∀ n b, Descends h h.root n b → 2 ^ n ≤ (s.card + 1) ^ 2

namespace RbHeap

variable {ctx : List (Frame E)} {t a b : RbTree E} {d : Side} {c : Color}

theorem descends_view {n m : Nat} {p : Option E} (hd : Descends h p n m) (hv : h.View ctx t)
    (hp : p = t.top) : n ≤ t.height ∧ ∀ k, t.Valid k → m = k := by
  induction hd generalizing ctx t with
  | null =>
      cases t with
      | nil => exact ⟨Nat.zero_le _, fun k hk => (valid_nil.mp hk).symm⟩
      | node => cases hp
  | node d hd ih =>
      rename_i x n b
      obtain rfl | ⟨c, l, y, r, rfl⟩ := eq_nil_or_fork d t
      · cases hp
      obtain rfl : x = y := by simpa using hp
      obtain ⟨hn, hb⟩ := ih (view_near.mp hv) hv.near_eq
      refine ⟨?_, fun k hk => ?_⟩
      · have hle : l.height + 1 ≤ (fork d c l x r).height := by
          cases d <;> simp [fork, height]
        omega
      · rw [hv.color_eq]
        rcases eq_black_or_red c with rfl | rfl
        · obtain ⟨m, rfl⟩ := valid_fork_black_pos hk
          rw [hb m (valid_fork_black.mp hk).1]
          rfl
        · rw [hb k (valid_fork_red.mp hk).2.1]
          rfl

/-- A child of a node is the top of a subtree. -/
theorem View.child_view (hv : h.View ctx (fork d c a x b)) (hy : h.child d x = some y) :
    ∃ ca l r, a = fork .left ca l y r ∧
      h.View (⟨d, c, x, b⟩ :: ctx) (fork .left ca l y r) := by
  rw [hv.near_eq] at hy
  obtain rfl | ⟨ca, l, z, r, rfl⟩ := eq_nil_or_fork .left a
  · cases hy
  · obtain rfl : z = y := by simpa using hy
    exact ⟨ca, l, r, rfl, view_near.mp hv⟩

end RbHeap

variable [DecidableEq E] {s : Finset E}

theorem HoldsSorted.sound (hg : HoldsSorted cmp h s) : RbSound cmp h s := by
  have hin := hg.inOrder
  obtain ⟨xs, hh, -, rfl⟩ := hg
  have hcard := card_toFinset hh
  obtain ⟨t, hv, hrb, rfl⟩ := hh
  have hroot : h.root = t.top := hv.outer
  -- every node can be looked at from either side
  have hfork : ∀ z ∈ t.toList.toFinset, ∀ d, ∃ ctx c a b, h.View ctx (fork d c a z b) ∧
      (plug ctx (fork d c a z b)).RedBlack := fun z hz d => by
    obtain ⟨ctx, c, l, r, rfl⟩ := exists_plug (List.mem_toFinset.mp hz)
    obtain ⟨a, b, hab⟩ := fork_turn .left d c l z r
    rw [show RbTree.node c l z r = fork d c a z b from hab] at hv hrb
    exact ⟨ctx, c, a, b, hv.focus, hrb⟩
  refine ⟨hin, fun z hz d y hy => ?_, fun z hz => ?_, fun z hz hc d y hy => ?_, ?_,
    fun n m hd => ?_⟩
  · obtain ⟨ctx, c, a, b, hv, -⟩ := hfork z hz d
    obtain ⟨ca, l, r, -, hvy⟩ := hv.child_view hy
    exact hvy.parent_eq
  · obtain rfl | ⟨c, l, y, r, rfl⟩ := eq_nil_or_fork .left t
    · rw [hroot] at hz
      cases hz
    · obtain rfl : y = z := by simpa [hroot] using hz
      exact ⟨hv.parent_eq, hv.color_eq.trans (by simpa using hrb.1)⟩
  · obtain ⟨ctx, c, a, b, hv, hrb⟩ := hfork z hz d
    obtain ⟨ca, l, r, rfl, hvy⟩ := hv.child_view hy
    obtain ⟨n, -, hval, -⟩ := exists_fits hrb
    obtain rfl : c = .red := hv.color_eq.symm.trans hc
    exact hvy.color_eq.trans (by simpa using (valid_fork_red.mp hval).1.1)
  · obtain ⟨-, k, hval⟩ := hrb
    exact ⟨k, fun n m hd => (descends_view hd hv hroot).2 k hval⟩
  · rw [hcard]
    exact (Nat.pow_le_pow_right (by omega) (descends_view hd hv hroot).1).trans hrb.height_le

/-- **Red-black trees stay red-black trees.** In every run the heap is as it should be;
and the next operation ends, with no NULL pointer followed on the way, and leaves it so. -/
theorem rb_sound (hcmp : Consistent cmp) {s : RbHeap E × Finset E}
    (hr : (rbTrees cmp).Reachable s) :
    RbSound cmp s.1 s.2 ∧ ∀ op : RbOp E, op.Legal s.2 → ∃ v,
      (∀ fuel, s.2.card + 1 < fuel → op.run cmp fuel s.1 = some v) ∧
      RbSound cmp v.1 (op.apply cmp s.2) := by
  have hg := holdsSorted_reachable hcmp hr
  refine ⟨hg.sound, fun op hl => ?_⟩
  obtain ⟨v, hv, hg', -⟩ := Below.eventually (fun m n hmn => op.run_below cmp hmn s.1)
    fun fuel hfuel => op.correct hcmp hg hl hfuel
  exact ⟨v, hv, hg'.sound⟩

/-- The root of two nodes is removed. -/
theorem rb_sound_two : ∃ h : RbHeap Nat, RbSound (fun a b : Nat => (a : Int) - b) h {3, 5} ∧
    ∃ v, (RbOp.remove 5).run (fun a b : Nat => (a : Int) - b) 4 h = some v ∧
      RbSound (fun a b : Nat => (a : Int) - b) v.1 {3} := by
  obtain ⟨h, hr⟩ := two_reachable
  obtain ⟨hs, hop⟩ := rb_sound (.sub fun a : Nat => (a : Int)) hr
  have h5 : 5 ∈ ({3, 5} : Finset Nat) := by decide
  have hcard : ({3, 5} : Finset Nat).card + 1 < 4 := by decide
  obtain ⟨v, hv, hs'⟩ := hop (.remove 5) h5
  exact ⟨h, hs, v, hv 4 hcard, hs'⟩

/-- **The loops visit every node once, in order.** So do those that remove nodes on the
way, and the nodes that they do not remove remain. -/
theorem rb_foreach (hcmp : Consistent cmp) {s : RbHeap E × Finset E}
    (hr : (rbTrees cmp).Reachable s) :
    ∃ xs, Sorted cmp xs ∧ xs.toFinset = s.2 ∧
      ∀ fuel turns, s.2.card < fuel → s.2.card < turns →
        rbForeachLoop .right s.1 fuel turns = some xs ∧
        rbForeachLoop .left s.1 fuel turns = some xs.reverse ∧
        ∀ S : E → Bool,
          (∃ h', rbForeachSafeLoop .right S s.1 fuel turns = some (h', xs) ∧
            RbSound cmp h' (s.2.filter fun x => ¬ S x)) ∧
          ∃ h', rbForeachSafeLoop .left S s.1 fuel turns = some (h', xs.reverse) ∧
            RbSound cmp h' (s.2.filter fun x => ¬ S x) := by
  obtain ⟨xs, hh, hs, hxs⟩ := holdsSorted_reachable hcmp hr
  refine ⟨xs, hs, hxs, fun fuel turns hfuel hturns => ?_⟩
  rw [← hxs, card_toFinset hh] at hfuel hturns
  have hread : ∀ d : Side, (d.read xs).length < turns := fun d => by
    rw [d.length_read]
    exact hturns
  have hloop : ∀ d : Side, rbForeachLoop d s.1 fuel turns = some (d.other.read xs) := fun d => by
    rw [rbForeachLoop, hh.minMax d.other hfuel]
    exact hh.foreach hfuel (List.nil_append _).symm (hread _)
  have hsafe : ∀ (d : Side) (S : E → Bool), ∃ h',
      rbForeachSafeLoop d S s.1 fuel turns = some (h', d.other.read xs) ∧
        RbSound cmp h' (s.2.filter fun x => ¬ S x) := fun d S => by
    obtain ⟨h', ys, ho, hh', hys⟩ :=
      hh.foreachSafe (d := d) S hfuel (List.nil_append _).symm (hread _)
    have hfilter : ys = xs.filter fun x => ¬ S x := by
      rw [List.nil_append, Side.filter_read] at hys
      rw [← d.other.read_read ys, hys, Side.read_read]
    refine ⟨h', ?_, HoldsSorted.sound ⟨ys, hh', ?_, ?_⟩⟩
    · rw [rbForeachSafeLoop, hh.minMax d.other hfuel]
      exact ho
    · rw [hfilter]
      exact hs.sublist List.filter_sublist
    · rw [hfilter, List.toFinset_filter, hxs]
      simp
  exact ⟨hloop .right, hloop .left, fun S => ⟨hsafe .right S, hsafe .left S⟩⟩

/-- Two nodes are visited, and the larger one is removed. -/
theorem rb_foreach_two : ∃ (h h' : RbHeap Nat) (xs : List Nat), xs.toFinset = {3, 5} ∧
    rbForeachLoop .right h 3 3 = some xs ∧
    rbForeachSafeLoop .left (fun x => x = 5) h 3 3 = some (h', xs.reverse) ∧
    RbSound (fun a b : Nat => (a : Int) - b) h' {3} := by
  obtain ⟨h, hr⟩ := two_reachable
  obtain ⟨xs, -, hxs, hall⟩ := rb_foreach (.sub fun a : Nat => (a : Int)) hr
  have hcard : ({3, 5} : Finset Nat).card < 3 := by decide
  obtain ⟨hloop, -, hsafe⟩ := hall 3 3 hcard hcard
  obtain ⟨-, h', ho, hs⟩ := hsafe fun x => x = 5
  exact ⟨h, h', xs, hxs, hloop, ho, hs⟩

end LibrePortable.Sys
