import LibrePortable.Sys.TreeSearch

/-!
# Walking through a tree

`RB_NEXT` leads from a node to the next one in the order of the tree, whether that is
below it or above it, and `RB_PREV` is its mirror image. The loops follow them from one
end to the other. A loop whose body removes nodes has looked up the next node before,
and a removal neither takes that one away nor changes what follows it.
-/

namespace LibrePortable.Sys

open Lib Lib.RbTree Lib.Frame RbHeap

variable {E : Type} [DecidableEq E] {h : RbHeap E} {ctx : List (Frame E)} {a b : RbTree E}
  {d d' : Side} {c : Color} {x : E} {xs : List E} {fuel : Nat}

namespace RbHeap

omit [DecidableEq E] in
/-- A node hangs on one side of its parent only. -/
theorem View.child_ne {f : Frame E} (hv : h.View (f :: ctx) (fork d c a x b)) :
    h.child f.side.other f.elem ≠ some x := by
  rw [(view_cons.mp hv).far_eq]
  intro ht
  exact hv.disjoint_sib x (mem_fork.mpr (Or.inr (Or.inl rfl))) (top_mem ht)

omit [DecidableEq E] in
theorem View.child_eq {f : Frame E} (hv : h.View (f :: ctx) (fork d c a x b)) :
    h.child f.side f.elem = some x := by
  rw [(view_cons.mp hv).near_eq, top_fork]

/-- Climbing stops below the first node that is ahead. -/
theorem rbClimb_view (hv : h.View ctx (fork d' c a x b)) (hfuel : ctx.length < fuel) :
    ∃ y, rbClimb d h fuel x = some y ∧ h.parent y = (ahead d ctx).head? := by
  induction ctx generalizing a x b c d' fuel with
  | nil =>
      obtain ⟨fuel, rfl⟩ := Nat.exists_eq_add_one.mpr hfuel
      refine ⟨x, ?_, ?_⟩
      · rw [rbClimb, hv.parent_eq, above]
      · rw [hv.parent_eq]
        cases d <;> rfl
  | cons f ctx ih =>
      obtain ⟨fuel, rfl⟩ := Nat.exists_eq_add_one.mpr (Nat.zero_lt_of_lt hfuel)
      rw [rbClimb, hv.parent_eq, above]
      rcases Side.eq_or_eq_other f.side d with rfl | rfl
      · -- `x` is behind its parent
        rw [ahead_cons_near]
        simp only [hv.child_eq, if_true]
        exact ih (view_cons.mp hv) (by simpa using hfuel)
      · -- its parent is ahead
        rw [ahead_cons_far]
        refine ⟨x, ?_, hv.parent_eq⟩
        simp only [hv.child_ne, if_false]

/-- `RB_NEXT`, `RB_PREV` -/
theorem rbStep_view (hv : h.View ctx (fork d.other c a x b))
    (hfuel : ctx.length + b.toList.length < fuel) :
    rbStep d h fuel x = some (d.other.read b.toList ++ ahead d ctx).head? := by
  have hd : h.child d x = b.top := by simpa using hv.far_eq
  by_cases hb : b = .nil
  · subst hb
    have hctx : ctx.length < fuel := Nat.lt_of_add_right_lt hfuel
    obtain ⟨y, hclimb, hy⟩ := rbClimb_view (d := d) hv hctx
    rw [toList, Side.read_nil, List.nil_append, ← hy]
    rw [top] at hd
    have hfar : (do let top ← rbClimb d h fuel x; pure (h.parent top)) = some (h.parent y) := by
      rw [hclimb]
      rfl
    cases ctx with
    | nil =>
        have hp : h.parent x = none := hv.parent_eq
        simp only [rbStep, hd, hp]
        exact hfar
    | cons f ctx =>
        have hp : h.parent x = some f.elem := hv.parent_eq
        simp only [rbStep, hd, hp]
        by_cases hc : h.child d.other f.elem = some x
        · -- its parent is the next node
          rw [if_pos hc, hy]
          rcases Side.eq_or_eq_other f.side d with rfl | rfl
          · exact absurd hc hv.child_ne
          · rw [ahead_cons_far]
            rfl
        · rw [if_neg hc]
          exact hfar
  · -- the next node is below
    obtain ⟨ctx₁, c', z, r, rfl, hs⟩ := exists_plug_end d.other hb
    obtain ⟨x₁, hx₁⟩ := Option.ne_none_iff_exists'.mp (top_ne_none hb)
    have hlen := length_le ctx₁ (fork d.other c' .nil z r)
    have hlt : ctx₁.length < fuel := by omega
    have hfar := rbFar_view (view_far.mp hv) hs hx₁ hlt
    rw [hx₁] at hd
    simp only [rbStep, hd, hfar]
    rw [read_plug, ahead_eq_nil hs, toList_fork, Side.read_seq, toList, Side.read_nil]
    rfl

end RbHeap

omit [DecidableEq E] in
/-- The loops begin at one end. -/
theorem Holds.minMax (hh : Holds h xs) (d : Side) (hfuel : xs.length < fuel) :
    rbMinMax d h fuel h.root none = some (d.read xs).head? := by
  obtain ⟨t, hv, -, rfl⟩ := hh
  have hroot : h.root = t.top := hv.outer
  rw [hroot, rbMinMax_view d hv none hfuel, Option.or_none]

/-- **The next node** is the one behind it in the list. -/
theorem Holds.step {as bs : List E} (hh : Holds h xs) (hx : d.other.read xs = as ++ x :: bs)
    (hfuel : xs.length < fuel) : rbStep d h fuel x = some bs.head? := by
  have hmem : x ∈ xs := by
    rw [← Side.mem_read (d := d.other), hx]
    simp
  have hnodup : (as ++ x :: bs).Nodup := by
    rw [← hx, Side.nodup_read]
    exact hh.nodup
  obtain ⟨t, hv, -, rfl⟩ := hh
  obtain ⟨ctx, c, l, r, rfl⟩ := exists_plug hmem
  obtain ⟨a, b, hab⟩ := fork_turn .left d.other c l x r
  rw [show RbTree.node c l x r = fork d.other c a x b from hab] at hv hx hfuel
  -- the node is in the list only once
  obtain ⟨has, hbs⟩ : x ∉ as ∧ x ∉ bs := by
    rw [List.nodup_append, List.nodup_cons] at hnodup
    exact ⟨fun hm => hnodup.2.2 x hm x List.mem_cons_self rfl, hnodup.2.1.1⟩
  have hsplit : as ++ x :: bs = ((ahead d.other ctx).reverse ++ d.other.read a.toList) ++
      x :: (d.other.read b.toList ++ ahead d ctx) := by
    rw [← hx, read_plug, toList_fork, Side.read_seq, Side.other_other]
    simp
  obtain ⟨-, -, rfl⟩ := (List.append_cons_inj_of_notMem has hbs).mp hsplit
  refine rbStep_view hv.focus (Nat.lt_of_le_of_lt ?_ hfuel)
  have hlen := length_le ctx (fork d.other c a x b)
  rw [← d.other.length_read (fork d.other c a x b).toList, toList_fork, Side.read_seq] at hlen
  simp only [List.length_append, List.length_cons, Side.length_read] at hlen ⊢
  omega

/-- `RB_FOREACH` from any node on. -/
theorem Holds.foreach (hh : Holds h xs) (hfuel : xs.length < fuel) {as bs : List E}
    (hx : d.other.read xs = as ++ bs) {turns : Nat} (hturns : bs.length < turns) :
    rbForeach d h fuel turns bs.head? = some bs := by
  induction bs generalizing as turns with
  | nil =>
      obtain ⟨turns, rfl⟩ := Nat.exists_eq_add_one.mpr (Nat.zero_lt_of_lt hturns)
      rfl
  | cons x bs ih =>
      obtain ⟨turns, rfl⟩ := Nat.exists_eq_add_one.mpr (Nat.zero_lt_of_lt hturns)
      have hx' : d.other.read xs = (as ++ [x]) ++ bs := by simpa using hx
      have hrest := ih hx' (by simpa using hturns)
      rw [List.head?_cons, rbForeach, hh.step hx hfuel]
      simp only [Option.bind_eq_bind, Option.bind_some, hrest]
      rfl

theorem Holds.erase_read (hh : Holds h xs) {as bs : List E} (hx : d.read xs = as ++ x :: bs) :
    d.read (xs.erase x) = as ++ bs := by
  have hnodup : (as ++ x :: bs).Nodup := by
    rw [← hx, Side.nodup_read]
    exact hh.nodup
  rw [hh.nodup.erase_eq_filter, ← Side.filter_read, hx, ← hnodup.erase_eq_filter]
  rw [List.nodup_append] at hnodup
  have has : x ∉ as := fun hm => hnodup.2.2 x hm x List.mem_cons_self rfl
  rw [List.erase_append_right _ has, List.erase_cons_head]

/-- **`RB_FOREACH_SAFE` from any node on**, with a body that removes the nodes in `S`. -/
theorem Holds.foreachSafe (hh : Holds h xs) (S : E → Bool) (hfuel : xs.length < fuel)
    {as bs : List E} (hx : d.other.read xs = as ++ bs) {turns : Nat} (hturns : bs.length < turns) :
    ∃ h' ys, rbForeachSafe d S fuel turns h bs.head? = some (h', bs) ∧ Holds h' ys ∧
      d.other.read ys = as ++ bs.filter fun x => ¬ S x := by
  induction bs generalizing h xs as turns with
  | nil =>
      obtain ⟨turns, rfl⟩ := Nat.exists_eq_add_one.mpr (Nat.zero_lt_of_lt hturns)
      exact ⟨h, xs, rfl, hh, hx⟩
  | cons x bs ih =>
      obtain ⟨turns, rfl⟩ := Nat.exists_eq_add_one.mpr (Nat.zero_lt_of_lt hturns)
      have hturns' : bs.length < turns := by simpa using hturns
      have hmem : x ∈ xs := by
        rw [← Side.mem_read (d := d.other), hx]
        simp
      rw [List.head?_cons, rbForeachSafe, hh.step hx hfuel]
      by_cases hS : S x
      · -- the next node is the same in the tree without `x`
        obtain ⟨h₁, hr, hh₁⟩ := hh.remove hmem hfuel
        have hlen : (xs.erase x).length < fuel := Nat.lt_of_le_of_lt (List.length_erase_le) hfuel
        obtain ⟨h', ys, ho, hh', hl⟩ := ih hh₁ hlen (hh.erase_read hx) hturns'
        refine ⟨h', ys, ?_, hh', ?_⟩
        · simp only [Option.bind_eq_bind, Option.bind_some, if_pos hS, hr, Option.pure_def, ho]
        · rw [hl, List.filter_cons_of_neg (by simpa using hS)]
      · have hx' : d.other.read xs = (as ++ [x]) ++ bs := by simpa using hx
        obtain ⟨h', ys, ho, hh', hl⟩ := ih hh hfuel hx' hturns'
        refine ⟨h', ys, ?_, hh', ?_⟩
        · simp only [Option.bind_eq_bind, Option.bind_some, if_neg hS, Option.pure_def, ho]
        · rw [hl, List.filter_cons_of_pos (by simpa using hS)]
          simp

end LibrePortable.Sys
