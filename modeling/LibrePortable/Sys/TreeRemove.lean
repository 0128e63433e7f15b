import LibrePortable.Sys.TreeColor

/-!
# Removal

`RB_REMOVE` takes out the node itself if it has at most one child. Otherwise it takes
out its successor, which has no left child, and puts that one into the node's place.
Either way the nodes that remain are those there were, in the same order.
-/

namespace LibrePortable.Sys

open Lib Lib.RbTree Lib.Frame RbHeap

variable {E : Type}

/-- **The heap holds a red-black tree of the nodes `xs`**, in this order. -/
def Holds (h : RbHeap E) (xs : List E) : Prop :=
  ∃ t, h.View [] t ∧ t.RedBlack ∧ t.toList = xs

theorem Holds.nodup {h : RbHeap E} {xs : List E} (hh : Holds h xs) : xs.Nodup := by
  obtain ⟨t, hv, -, rfl⟩ := hh
  exact hv.nodup

theorem repaired_iff {o : Option (RbHeap E)} {xs : List E} :
    Repaired o xs ↔ ∃ h', o = some h' ∧ Holds h' xs :=
  ⟨fun ⟨h', t', ho, hv, hrb, hl⟩ => ⟨h', ho, t', hv, hrb, hl⟩,
    fun ⟨h', ho, t', hv, hrb, hl⟩ => ⟨h', t', ho, hv, hrb, hl⟩⟩

namespace RbHeap

variable [DecidableEq E] {h : RbHeap E} {ctx ctx₁ : List (Frame E)} {t l r : RbTree E} {d : Side}
  {c : Color} {x y z : E} {n : Nat}

omit [DecidableEq E] in
/-- Going on to side `d` leads to the first node from that side. -/
theorem rbFar_view (hv : h.View ctx (plug ctx₁ (fork d c .nil z r)))
    (hs : ∀ f ∈ ctx₁, f.side = d) (hx : (plug ctx₁ (fork d c .nil z r)).top = some x)
    {fuel : Nat} (hfuel : ctx₁.length < fuel) : rbFar d h fuel x = some z := by
  induction fuel generalizing ctx ctx₁ x with
  | zero => exact absurd hfuel (Nat.not_lt_zero _)
  | succ fuel ih =>
      rcases List.eq_nil_or_concat ctx₁ with rfl | ⟨ctx₂, f, rfl⟩
      · rw [plug] at hv hx
        obtain rfl : z = x := by simpa using hx
        have hn : h.child d z = none := hv.near_eq
        rw [rbFar, hn]
      · obtain ⟨d', c', y, s⟩ := f
        obtain rfl : d' = d := hs ⟨d', c', y, s⟩ (by simp)
        rw [List.concat_eq_append, plug_append, plug, plug, fill] at hv hx
        obtain rfl : y = x := by simpa using hx
        obtain ⟨z', hz'⟩ : ∃ z', (plug ctx₂ (fork d' c .nil z r)).top = some z' := by
          cases ctx₂ with
          | nil => exact ⟨z, by rw [plug, top_fork]⟩
          | cons g ctx₂ => exact (top_plug (f := g)).imp fun _ h => h.1
        have hn : h.child d' y = some z' := hv.near_eq.trans hz'
        rw [rbFar, hn]
        exact ih (view_near.mp hv) (fun f hf => hs f (by simp [hf])) hz' (by simp at hfuel; omega)

omit [DecidableEq E] in
/-- Climbing from any node ends at the root. -/
theorem rbAugmentUp_view (hv : h.View ctx t) (hx : above ctx = some x) {fuel : Nat}
    (hfuel : ctx.length ≤ fuel) : rbAugmentUp h fuel x = some () := by
  induction ctx generalizing t x fuel with
  | nil => cases hx
  | cons f ctx ih =>
      obtain ⟨fuel, rfl⟩ := Nat.exists_eq_add_one.mpr (Nat.lt_of_lt_of_le (by simp) hfuel)
      obtain rfl : f.elem = x := Option.some.inj hx
      have hp := (view_cons.mp hv).parent_eq
      rw [rbAugmentUp, hp]
      cases hab : above ctx with
      | none => rfl
      | some y => exact ih (view_cons.mp hv) hab (by simpa using hfuel)

/-- The label `color` of `RB_REMOVE`: a node with one child has been taken out. -/
theorem removed_repaired (hv : h.View ctx t) (hf : Fits ctx n)
    (ht : (fork d c t x .nil).Valid n) {fuel : Nat} (hfuel : ctx.length < fuel) :
    Repaired (if c = .black then rbRemoveColor fuel h (above ctx) t.top else pure h)
      (plug ctx t).toList := by
  rcases eq_black_or_red c with rfl | rfl
  · obtain ⟨m, rfl⟩ := valid_fork_black_pos ht
    rw [if_pos rfl]
    exact rbRemoveColor_view hv hf (valid_fork_black.mp ht).1 hfuel
  · obtain ⟨⟨htc, -⟩, ht, -⟩ := valid_fork_red.mp ht
    exact ⟨h, _, rfl, hv.whole, hf.redBlack ht fun hr => by simp [htc] at hr, rfl⟩

/-- Above the place of the successor is what was above it, with `z` for `x`. -/
theorem above_successor {s : Side} (hx : ∀ f ∈ ctx₁.head?, f.elem ≠ x) :
    (if above (ctx₁ ++ ⟨s, c, x, l⟩ :: ctx) = some x then some z
      else above (ctx₁ ++ ⟨s, c, x, l⟩ :: ctx)) = above (ctx₁ ++ ⟨s, c, z, l⟩ :: ctx) := by
  cases ctx₁ with
  | nil => exact if_pos rfl
  | cons f ctx₁ =>
      have hf : some f.elem ≠ some x := fun h => hx f rfl (Option.some.inj h)
      exact if_neg hf

/-- **Removal with two children.** The successor `z` is taken out of its place and put
into that of `x`; what `RB_REMOVE_COLOR` is then told is the place it was taken from. -/
theorem rbRemoveInner_view {cz : Color}
    (hv : h.View ctx (fork .left c l x (plug ctx₁ (fork .left cz .nil z r)))) (hl : l ≠ .nil)
    (hs : ∀ f ∈ ctx₁, f.side = .left) {fuel : Nat} (hfuel : ctx₁.length + ctx.length + 1 ≤ fuel) :
    ∃ h', rbRemoveInner fuel h x =
        some (h', above (ctx₁ ++ ⟨.right, c, z, l⟩ :: ctx), r.top, cz) ∧
      h'.View (ctx₁ ++ ⟨.right, c, z, l⟩ :: ctx) r := by
  have hvr := view_far.mp hv
  obtain ⟨x₁, hx₁⟩ : ∃ x₁, (plug ctx₁ (fork .left cz .nil z r)).top = some x₁ := by
    cases ctx₁ with
    | nil => exact ⟨z, by rw [plug, top_fork]⟩
    | cons g ctx₁ => exact (top_plug (f := g)).imp fun _ h => h.1
  have hright : h.child .right x = some x₁ := hv.far_eq.trans hx₁
  have hfar : rbFar .left h fuel x₁ = some z := rbFar_view hvr hs hx₁ (by omega)
  -- the successor is taken out
  have hvz := view_append.mpr hvr
  have hcz : h.child .right z = r.top := hvz.far_eq
  have hkz : h.color z = cz := hvz.color_eq
  have hpz := hvz.parent_eq
  rw [← fork_other] at hvz
  obtain ⟨hv₁, he₁, hz⟩ := hvz.unlink
  have hp₁ : (rbUnlink h z r.top).parent z = h.parent z := by rw [parent, he₁, parent]
  have hplug : plug (ctx₁ ++ ⟨Side.left.other, c, x, l⟩ :: ctx) r =
      plug ctx (fork .left c l x (plug ctx₁ r)) := by
    rw [plug_append, plug, fill, fork_other]
  rw [hplug] at hz
  have hzx : z ≠ x := by
    intro heq
    subst heq
    exact hz (by simp [toList_plug])
  -- it takes the place of `x`
  have hv₂ := view_far.mpr (view_append.mp hv₁)
  have hpx := hv₂.parent_eq
  have hlx := hv₂.near_eq
  have hrx := hv₂.far_eq
  have hax : above ctx ≠ some x := above_ne hv₂.nodup (by simp)
  obtain rfl | ⟨cl, a, l₁, b, rfl⟩ := eq_nil_or_fork .left l
  · exact absurd rfl hl
  have hl₁ : l₁ ≠ x := by
    intro heq
    subst heq
    exact (nodup_fork.mp (nodup_of_plug hv₂.nodup)).1.1 (by simp)
  have hv₃ := hv₂.replace hz
  have hv₄ := view_append.mpr (view_far.mp hv₃)
  let h₁ := rbUnlink h z r.top
  let h₂ := h₁.setEntry z (h₁.entry x)
  let h₃ := h₂.replaceChild (above ctx) x (some z)
  let h₄ := h₃.reparent (some l₁) (some z)
  have he₂ : h₂.entry x = h₁.entry x := by simp [h₂, hzx.symm]
  have he₃ : h₃.entry x = h₁.entry x := (replaceChild_entry_of_ne _ _ _ hax).trans he₂
  have he₄ : h₄.entry x = h₁.entry x :=
    (reparent_entry_of_ne h₃ _ (by simpa using hl₁)).trans he₃
  have hp₂ : h₂.parent x = above ctx := by rw [parent, he₂]; exact hpx
  have hl₃ : h₃.child .left x = some l₁ := by rw [child, he₃]; exact hlx
  have hr₄ : h₄.child .right x = (plug ctx₁ r).top := by rw [child, he₄]; exact hrx
  -- where the colours have to be repaired
  have hhead : ∀ f ∈ ctx₁.head?, f.elem ≠ x := by
    intro f hf heq
    subst heq
    obtain ⟨ctx₂, rfl⟩ := List.head?_eq_some_iff.mp hf
    refine (nodup_fork.mp (nodup_of_plug hv.nodup)).1.2 ?_
    rw [toList_plug, List.mem_append, List.mem_append]
    have ha : Around (f :: ctx₂) f.elem := around_above
    rcases ha with hm | hm
    · exact Or.inl (Or.inl hm)
    · exact Or.inr hm
  have hpar : (if h₁.parent z = some x then some z else h.parent z) =
      above (ctx₁ ++ ⟨Side.left.other, c, z, fork .left cl a l₁ b⟩ :: ctx) := by
    rw [hp₁, hpz]
    exact above_successor hhead
  obtain ⟨p, hp⟩ : ∃ p, above (ctx₁ ++ ⟨Side.left.other, c, z, fork .left cl a l₁ b⟩ :: ctx) =
      some p := by
    cases ctx₁ <;> exact ⟨_, rfl⟩
  have haug : rbAugmentUp (h₄.reparent (plug ctx₁ r).top (some z)) fuel p = some () := by
    have hfl : (ctx₁ ++ ⟨Side.left.other, c, z, fork .left cl a l₁ b⟩ :: ctx).length ≤ fuel := by
      simp
      omega
    have h := rbAugmentUp_view hv₄ hp hfl
    rwa [top_fork] at h
  rw [top_fork] at hv₄
  refine ⟨h₄.reparent (plug ctx₁ r).top (some z), ?_, hv₄⟩
  have hmain : (h₃.child .left x).bind (fun left =>
      (rbAugmentUp ((h₃.setParent left (some z)).reparent
        ((h₃.setParent left (some z)).child .right x) (some z)) fuel p).bind fun _ =>
      some ((h₃.setParent left (some z)).reparent
        ((h₃.setParent left (some z)).child .right x) (some z), some p, r.top, cz)) =
      some (h₄.reparent (plug ctx₁ r).top (some z), some p, r.top, cz) := by
    rw [hl₃, Option.bind_some]
    have hr : (h₃.setParent l₁ (some z)).child .right x = (plug ctx₁ r).top := hr₄
    have ha : rbAugmentUp ((h₃.setParent l₁ (some z)).reparent (plug ctx₁ r).top (some z)) fuel p =
        some () := haug
    rw [hr, ha]
    rfl
  simp only [rbRemoveInner, hright, hfar, hcz, hkz, Option.bind_eq_bind, Option.bind_some]
  have hpar' := hpar.trans hp
  simp only [h₁] at hpar'
  simp only [h₂, h₁] at hp₂
  rw [hpar', hp₂]
  exact hmain.trans (by rw [← hp]; rfl)

omit [DecidableEq E] in
theorem top_ne_none (ht : t ≠ .nil) : t.top ≠ none := by
  cases t with
  | nil => exact absurd rfl ht
  | node c l x r => exact nofun

/-- What is left in a tree from which `x` is erased. -/
theorem erase_plug (hn : (plug ctx (fork .left c l x r)).toList.Nodup) :
    (plug ctx (fork .left c l x r)).toList.erase x =
      before ctx ++ (l.toList ++ r.toList) ++ after ctx := by
  have hx : x ∉ before ctx ++ l.toList := by
    intro hm
    rcases List.mem_append.mp hm with hm | hm
    · exact notMem_of_around hn (Or.inl hm) (mem_fork.mpr (Or.inr (Or.inl rfl)))
    · exact (nodup_fork.mp (nodup_of_plug hn)).1.1 hm
  rw [toList_plug, toList_fork, Side.seq, List.append_assoc, List.append_assoc, ← List.append_assoc,
    List.erase_append_right _ hx, List.cons_append, List.erase_cons_head]
  simp

end RbHeap

open RbHeap

variable [DecidableEq E] {h h₁ h' : RbHeap E} {xs : List E} {x : E} {fuel : Nat}

/-- `RB_REMOVE` takes a node out, and repairs the colours from where that was. -/
theorem rbRemove_of {parent child : Option E} {color : Color}
    (hout : (if h.child .left x = none then
        pure (rbUnlink h x (h.child .right x), h.parent x, h.child .right x, h.color x)
      else if h.child .right x = none then
        pure (rbUnlink h x (h.child .left x), h.parent x, h.child .left x, h.color x)
      else rbRemoveInner fuel h x) = some (h₁, parent, child, color))
    (hcolor : (if color = .black then rbRemoveColor fuel h₁ parent child else pure h₁) = some h') :
    rbRemove fuel h x = some (h', x) := by
  have hend : (if color = .black then rbRemoveColor fuel h₁ parent child >>= fun h => pure (h, x)
      else (pure h₁ : Option (RbHeap E)) >>= fun h => pure (h, x)) = some (h', x) := by
    split at hcolor
    · rw [if_pos ‹_›, hcolor]
      rfl
    · rw [if_neg ‹_›, hcolor]
      rfl
  rw [rbRemove]
  by_cases hl : h.child .left x = none
  · rw [if_pos hl] at hout ⊢
    cases hout
    exact hend
  rw [if_neg hl] at hout ⊢
  by_cases hr : h.child .right x = none
  · rw [if_pos hr] at hout ⊢
    cases hout
    exact hend
  rw [if_neg hr] at hout ⊢
  rw [hout]
  exact hend

/-- **Removal.** `RB_REMOVE` of a node of the tree takes out that node and returns it. -/
theorem Holds.remove (hh : Holds h xs) (hx : x ∈ xs) (hfuel : xs.length < fuel) :
    ∃ h', rbRemove fuel h x = some (h', x) ∧ Holds h' (xs.erase x) := by
  obtain ⟨t, hv, hrb, rfl⟩ := hh
  obtain ⟨ctx, c, l, r, rfl⟩ := exists_plug hx
  have hv : h.View ctx (fork .left c l x r) := hv.focus
  have hlen := length_le ctx (fork .left c l x r)
  have hctx : ctx.length < fuel := Nat.lt_of_le_of_lt (Nat.le_of_add_right_le hlen) hfuel
  obtain ⟨n, hf, hval, -⟩ := exists_fits hrb
  have hleft : h.child .left x = l.top := hv.near_eq
  have hright : h.child .right x = r.top := hv.far_eq
  have hpar : h.parent x = above ctx := hv.parent_eq
  have hcol : h.color x = c := hv.color_eq
  have herase : (plug ctx (RbTree.node c l x r)).toList.erase x =
    before ctx ++ (l.toList ++ r.toList) ++ after ctx := erase_plug hv.nodup
  rw [herase]
  by_cases hl : l = .nil
  · -- the right subtree moves up
    subst hl
    obtain ⟨hv₁, -⟩ := View.unlink (d := .right) hv
    obtain ⟨h', ho, hh'⟩ :=
      repaired_iff.mp (removed_repaired (d := .right) (x := x) hv₁ hf hval hctx)
    rw [toList_plug] at hh'
    refine ⟨h', rbRemove_of ?_ ho, hh'⟩
    rw [if_pos (by rw [hleft, top]), hright, hpar, hcol]
    rfl
  by_cases hr : r = .nil
  · -- the left subtree moves up
    subst hr
    obtain ⟨hv₁, -⟩ := View.unlink (d := .left) hv
    obtain ⟨h', ho, hh'⟩ :=
      repaired_iff.mp (removed_repaired (d := .left) (x := x) hv₁ hf hval hctx)
    rw [toList_plug] at hh'
    refine ⟨h', rbRemove_of ?_ ho, by simpa [toList] using hh'⟩
    rw [if_neg (by rw [hleft]; exact top_ne_none hl), if_pos (by rw [hright, top]), hleft, hpar,
      hcol]
    rfl
  -- the successor takes the place of `x`
  obtain ⟨ctx₁, cz, z, s, rfl, hs⟩ := exists_plug_end .left hr
  have hlen₁ := length_le ctx₁ (fork .left cz .nil z s)
  have hctx₁ : (ctx₁ ++ ⟨.right, c, z, l⟩ :: ctx).length < fuel := by
    have hlt := Nat.lt_of_le_of_lt hlen hfuel
    rw [toList_fork, Side.seq] at hlt
    simp only [List.length_append, List.length_cons] at hlt ⊢
    omega
  have hfuel₁ : ctx₁.length + ctx.length + 1 ≤ fuel := by
    simp only [List.length_append, List.length_cons] at hctx₁
    omega
  obtain ⟨h₁, hin, hv₁⟩ := rbRemoveInner_view hv hl hs hfuel₁
  have hrb' : (plug (ctx₁ ++ ⟨.right, c, x, l⟩ :: ctx) (fork .left cz .nil z s)).RedBlack := by
    rw [plug_append]
    exact hrb
  obtain ⟨m, hf₁, hval₁, -⟩ := exists_fits hrb'
  obtain ⟨h', ho, hh'⟩ := repaired_iff.mp
    (removed_repaired (d := .right) (x := z) hv₁ hf₁.change hval₁ hctx₁)
  refine ⟨h', rbRemove_of ?_ ho, ?_⟩
  · rw [if_neg (by rw [hleft]; exact top_ne_none hl), if_neg (by rw [hright]; exact top_ne_none hr),
      hin]
  · -- the successor was the first node of the right subtree
    have hnext : l.toList ++ (plug ctx₁ (fork .left cz .nil z s)).toList =
        (fork .right c (plug ctx₁ s) z l).toList := by
      rw [toList_fork, Side.seq, toList_plug, toList_plug, toList_fork, Side.seq, before_eq_nil hs]
      simp [toList]
    rw [hnext, ← toList_plug]
    rwa [plug_append] at hh'

end LibrePortable.Sys
