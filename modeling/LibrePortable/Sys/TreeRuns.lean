import Mathlib.Data.Finset.Card
import LibrePortable.Lib.Transition
import LibrePortable.Sys.TreeFuel
import LibrePortable.Sys.TreeWalk

/-!
# Runs over a red-black tree

A run begins with `RB_INIT` and inserts and removes nodes. What the tree is for is a
finite set of nodes with an order; each operation is first said of such a set, and then
the functions are shown to do that, whatever the run has done to the tree before.
-/

namespace LibrePortable.Sys

open Lib Lib.RbTree Lib.Frame RbHeap

variable {E : Type} [DecidableEq E]

/-- The operations on a tree. -/
inductive RbOp (E : Type) where
  | insert (elm : E)
  | remove (elm : E)
  | find (elm : E)
  | nfind (elm : E)
  | min
  | max

namespace RbOp

variable (cmp : E → E → Int)

/-- The function an operation calls: the heap it leaves and what it returns. -/
def run (fuel : Nat) (h : RbHeap E) : RbOp E → Option (RbHeap E × Option E)
  | insert elm => rbInsert cmp fuel h elm
  | remove elm => (rbRemove fuel h elm).map fun s => (s.1, some s.2)
  | find elm => (rbFind cmp h elm fuel h.root).map fun r => (h, r)
  | nfind elm => (rbNfind cmp h elm fuel h.root none).map fun r => (h, r)
  | min => (rbMinMax .left h fuel h.root none).map fun r => (h, r)
  | max => (rbMinMax .right h fuel h.root none).map fun r => (h, r)

/-- A node is not inserted twice, and only nodes of the tree are removed. -/
def Legal (s : Finset E) : RbOp E → Prop
  | insert elm => elm ∉ s
  | remove elm => elm ∈ s
  | _ => True

/-- The set an operation leaves. -/
def apply (s : Finset E) : RbOp E → Finset E
  | insert elm => if ∃ y ∈ s, cmp elm y = 0 then s else Insert.insert elm s
  | remove elm => s.erase elm
  | _ => s

omit [DecidableEq E] in
/-- What an operation returns. -/
def Answers (s : Finset E) : RbOp E → Option E → Prop
  | insert elm => First (fun y z => cmp y z ≤ 0) (fun z => cmp elm z = 0) s
  | remove elm => fun r => r = some elm
  | find elm => First (fun y z => cmp y z ≤ 0) (fun z => cmp elm z = 0) s
  | nfind elm => First (fun y z => cmp y z ≤ 0) (fun z => cmp elm z ≤ 0) s
  | min => First (fun y z => cmp y z ≤ 0) (fun _ => True) s
  | max => First (fun y z => cmp z y ≤ 0) (fun _ => True) s

theorem run_below (op : RbOp E) {m n : Nat} (hmn : m ≤ n) (h : RbHeap E) :
    Below (op.run cmp m h) (op.run cmp n h) := by
  cases op with
  | insert x => exact rbInsert_below hmn h x
  | remove x => exact (rbRemove_below hmn h x).map _
  | find x => exact (rbFind_below hmn h x _).map _
  | nfind x => exact (rbNfind_below hmn h x _ _).map _
  | min => exact (rbMinMax_below hmn _ _).map _
  | max => exact (rbMinMax_below hmn _ _).map _

end RbOp

/-- A heap, and the set of the nodes in its tree. A step calls one of the functions and
shows what it returns. -/
def rbTrees (cmp : E → E → Int) : Lts (RbHeap E × Finset E) (RbOp E × Option E) where
  Init s := (∃ h, s.1 = rbInit h) ∧ s.2 = ∅
  Step s e s' := e.1.Legal s.2 ∧ (∃ fuel, e.1.run cmp fuel s.1 = some (s'.1, e.2)) ∧
    s'.2 = e.1.apply cmp s.2

/-- The nodes under a link, from left to right. -/
def rbWalk (h : RbHeap E) : (fuel : Nat) → (p : Option E) → Option (List E)
  | 0, _ => none
  | _ + 1, none => some []
  | fuel + 1, some x => do
    let l ← rbWalk h fuel (h.child .left x)
    let r ← rbWalk h fuel (h.child .right x)
    pure (l ++ x :: r)

/-- The nodes of the tree are those in `s`, from left to right in strictly increasing
order. -/
def InOrder (cmp : E → E → Int) (h : RbHeap E) (s : Finset E) : Prop :=
  ∃ xs, (∀ fuel, s.card < fuel → rbWalk h fuel h.root = some xs) ∧ Sorted cmp xs ∧
    xs.toFinset = s

/-- A run goes on with any legal operation that returns. -/
theorem RbOp.reachable {cmp : E → E → Int} {s : RbHeap E × Finset E}
    (hr : (rbTrees cmp).Reachable s) (op : RbOp E) (hl : op.Legal s.2) (fuel : Nat)
    {v : RbHeap E × Option E} (hv : op.run cmp fuel s.1 = some v) :
    (rbTrees cmp).Reachable (v.1, op.apply cmp s.2) :=
  hr.tail (e := (op, v.2)) ⟨hl, ⟨fuel, hv⟩, rfl⟩

/-- A tree of two nodes. -/
theorem two_reachable : ∃ h : RbHeap Nat, (rbTrees fun a b : Nat => (a : Int) - b).Reachable
    (h, {3, 5}) := by
  have h₀ : (rbTrees fun a b : Nat => (a : Int) - b).Reachable
      (rbInit ⟨none, fun _ => ⟨none, none, none, .black⟩⟩, ∅) := .init ⟨⟨_, rfl⟩, rfl⟩
  have h₁ := RbOp.reachable h₀ (.insert 5) (Finset.notMem_empty 5) 2 rfl
  have h3 : 3 ∉ ({5} : Finset Nat) := by decide
  exact ⟨_, RbOp.reachable h₁ (.insert 3) h3 3 rfl⟩

/-! ## The invariant -/

/-- The heap holds a red-black tree of the nodes in `s`, sorted. -/
def HoldsSorted (cmp : E → E → Int) (h : RbHeap E) (s : Finset E) : Prop :=
  ∃ xs, Holds h xs ∧ Sorted cmp xs ∧ xs.toFinset = s

section Operations

variable {cmp : E → E → Int} {h : RbHeap E} {s : Finset E} {xs : List E} {x : E}

omit [DecidableEq E] in
theorem holds_init (h : RbHeap E) : Holds (rbInit h) [] :=
  ⟨.nil, ⟨rfl, trivial, List.nodup_nil⟩, ⟨rfl, 0, rfl⟩, rfl⟩

theorem card_toFinset (hh : Holds h xs) : xs.toFinset.card = xs.length :=
  List.toFinset_card_of_nodup hh.nodup

/-- In a sorted list the first element with `P` is the least. -/
theorem first_find (hcmp : Consistent cmp) (hs : Sorted cmp xs) (P : E → Prop) [DecidablePred P] :
    First (fun y z => cmp y z ≤ 0) P xs.toFinset (xs.find? fun z => P z) := by
  cases hf : xs.find? fun z => P z with
  | none =>
      intro z hz hP
      have := List.find?_eq_none.mp hf z (List.mem_toFinset.mp hz)
      simp [hP] at this
  | some y =>
      obtain ⟨hPy, as, bs, rfl, has⟩ := List.find?_eq_some_iff_append.mp hf
      refine ⟨by simp, of_decide_eq_true hPy, fun z hz hPz => ?_⟩
      rcases List.mem_append.mp (List.mem_toFinset.mp hz) with hz | hz
      · have := has z hz
        simp [hPz] at this
      · rcases List.mem_cons.mp hz with rfl | hz
        · exact Int.le_of_eq (hcmp.refl z)
        · exact Int.le_of_lt ((List.pairwise_cons.mp (List.pairwise_append.mp hs).2.1).1 z hz)

/-- `RB_MIN` and `RB_MAX` return the ends of the list. -/
theorem first_head (hcmp : Consistent cmp) (hs : Sorted cmp xs) :
    First (fun y z => cmp y z ≤ 0) (fun _ => True) xs.toFinset (Side.left.read xs).head? := by
  cases xs with
  | nil => exact fun z hz => absurd hz (by simp)
  | cons y xs =>
      refine ⟨by simp, trivial, fun z hz _ => ?_⟩
      rcases List.mem_cons.mp (List.mem_toFinset.mp hz) with rfl | hz
      · exact Int.le_of_eq (hcmp.refl z)
      · exact Int.le_of_lt ((List.pairwise_cons.mp hs).1 z hz)

theorem first_last (hcmp : Consistent cmp) (hs : Sorted cmp xs) :
    First (fun y z => cmp z y ≤ 0) (fun _ => True) xs.toFinset (Side.right.read xs).head? := by
  rcases List.eq_nil_or_concat xs with rfl | ⟨xs, y, rfl⟩
  · exact fun z hz => absurd hz (by simp)
  · rw [List.concat_eq_append] at hs ⊢
    simp only [Side.read, List.reverse_append, List.reverse_singleton, List.singleton_append,
      List.head?_cons]
    refine ⟨by simp, trivial, fun z hz _ => ?_⟩
    rcases List.mem_append.mp (List.mem_toFinset.mp hz) with hz | hz
    · exact Int.le_of_lt ((List.pairwise_append.mp hs).2.2 z hz y (List.mem_singleton.mpr rfl))
    · rw [List.mem_singleton.mp hz]
      exact Int.le_of_eq (hcmp.refl y)

/-- The new node is between the smaller and the larger ones. -/
theorem insert_toFinset {as bs : List E} (ha : ∀ z ∈ as, 0 < cmp x z) (hb : ∀ z ∈ bs, cmp x z < 0) :
    (as ++ x :: bs).toFinset = (RbOp.insert x).apply cmp (as ++ bs).toFinset := by
  have hne : ¬ ∃ y ∈ (as ++ bs).toFinset, cmp x y = 0 := by
    intro h
    obtain ⟨y, hy, h0⟩ := h
    rcases List.mem_append.mp (List.mem_toFinset.mp hy) with hy | hy
    · have := ha y hy
      omega
    · have := hb y hy
      omega
  rw [RbOp.apply, if_neg hne]
  ext z
  simp only [List.mem_toFinset, List.mem_append, List.mem_cons, Finset.mem_insert]
  grind

/-- **Every operation does what is said of the set.** -/
theorem RbOp.correct (hcmp : Consistent cmp) (hg : HoldsSorted cmp h s) (op : RbOp E)
    (hl : op.Legal s) {fuel : Nat} (hfuel : s.card + 1 < fuel) :
    ∃ v, op.run cmp fuel h = some v ∧ HoldsSorted cmp v.1 (op.apply cmp s) ∧ op.Answers cmp s v.2 ∧
      (op.apply cmp s = s → v.1 = h) := by
  obtain ⟨xs, hh, hs, rfl⟩ := hg
  rw [card_toFinset hh] at hfuel
  have hlen : xs.length < fuel := Nat.lt_of_succ_lt hfuel
  cases op with
  | insert x =>
      have hx : x ∉ xs := fun hm => hl (List.mem_toFinset.mpr hm)
      rcases hh.insert (hs.falls hcmp x) hx hfuel with
        ⟨y, hy, h0, hr⟩ | ⟨h', as, bs, hr, rfl, ha, hb, hh'⟩
      · have happ : (RbOp.insert x).apply cmp xs.toFinset = xs.toFinset :=
          if_pos ⟨y, List.mem_toFinset.mpr hy, h0⟩
        refine ⟨_, hr, by rw [happ]; exact ⟨xs, hh, hs, rfl⟩, ?_, fun _ => rfl⟩
        exact ⟨List.mem_toFinset.mpr hy, h0, fun z _ hz =>
          hcmp.trans y x z (Int.le_of_eq (hcmp.symm h0)) (Int.le_of_eq hz)⟩
      · refine ⟨_, hr, ⟨_, hh', hs.insert hcmp ha hb, insert_toFinset ha hb⟩, ?_, fun happ => ?_⟩
        · intro z hz h0
          rcases List.mem_append.mp (List.mem_toFinset.mp hz) with hz | hz
          · have := ha z hz
            omega
          · have := hb z hz
            omega
        · rw [← insert_toFinset ha hb] at happ
          refine absurd (List.mem_toFinset.mp ?_) hx
          rw [← happ]
          simp
  | remove x =>
      have hx : x ∈ xs := List.mem_toFinset.mp hl
      obtain ⟨h', hr, hh'⟩ := hh.remove hx hlen
      refine ⟨(h', some x), ?_, ⟨_, hh', hs.sublist List.erase_sublist, ?_⟩, rfl, fun happ => ?_⟩
      · rw [RbOp.run, hr]
        rfl
      · ext z
        simp [RbOp.apply, hh.nodup.mem_erase_iff]
      · have herase : xs.toFinset.erase x = xs.toFinset := happ
        exact absurd hl (herase ▸ Finset.notMem_erase x _)
  | find x =>
      refine ⟨(h, _), ?_, ⟨xs, hh, hs, rfl⟩, first_find hcmp hs fun z => cmp x z = 0, fun _ => rfl⟩
      obtain ⟨t, hv, -, rfl⟩ := hh
      have hroot : h.root = t.top := hv.outer
      rw [RbOp.run, hroot, rbFind_view hv (hs.falls hcmp x) hlen]
      rfl
  | nfind x =>
      refine ⟨(h, _), ?_, ⟨xs, hh, hs, rfl⟩, first_find hcmp hs fun z => cmp x z ≤ 0, fun _ => rfl⟩
      obtain ⟨t, hv, -, rfl⟩ := hh
      have hroot : h.root = t.top := hv.outer
      rw [RbOp.run, hroot, rbNfind_view hv (hs.falls hcmp x) none hlen, Option.or_none]
      rfl
  | min =>
      refine ⟨(h, _), ?_, ⟨xs, hh, hs, rfl⟩, first_head hcmp hs, fun _ => rfl⟩
      rw [RbOp.run, hh.minMax .left hlen]
      rfl
  | max =>
      refine ⟨(h, _), ?_, ⟨xs, hh, hs, rfl⟩, first_last hcmp hs, fun _ => rfl⟩
      rw [RbOp.run, hh.minMax .right hlen]
      rfl

theorem holdsSorted_reachable (hcmp : Consistent cmp) {s : RbHeap E × Finset E}
    (hr : (rbTrees cmp).Reachable s) : HoldsSorted cmp s.1 s.2 := by
  refine hr.invariant (I := fun s => HoldsSorted cmp s.1 s.2) ?_ fun s e s' _ hg hs => ?_
  · rintro ⟨_, _⟩ ⟨⟨h, rfl⟩, rfl⟩
    exact ⟨[], holds_init h, List.Pairwise.nil, rfl⟩
  · obtain ⟨hl, ⟨fuel, hrun⟩, happ⟩ := hs
    obtain ⟨v, hv, hg', -⟩ := e.1.correct hcmp hg hl (Nat.lt_succ_self _)
    have hvs : v = (s'.1, e.2) :=
      Below.unique (fun m n hmn => e.1.run_below cmp hmn s.1) hv hrun
    rw [happ]
    rw [hvs] at hg'
    exact hg'

omit [DecidableEq E] in
theorem rbWalk_view {ctx : List (Frame E)} {t : RbTree E} (hv : h.View ctx t) {fuel : Nat}
    (hfuel : t.toList.length < fuel) : rbWalk h fuel t.top = some t.toList := by
  induction fuel generalizing ctx t with
  | zero => exact absurd hfuel (Nat.not_lt_zero _)
  | succ fuel ih =>
      obtain rfl | ⟨c, l, y, r, rfl⟩ := eq_nil_or_fork .left t
      · rfl
      obtain ⟨hll, hlr⟩ := lt_of_fork hfuel
      have hl : h.child .left y = l.top := hv.near_eq
      have hr : h.child .right y = r.top := hv.far_eq
      rw [top_fork, rbWalk, hl, hr, ih (view_near.mp hv) hll, ih (view_far.mp hv) hlr]
      rfl

theorem HoldsSorted.inOrder (hg : HoldsSorted cmp h s) : InOrder cmp h s := by
  obtain ⟨xs, hh, hs, rfl⟩ := hg
  refine ⟨xs, fun fuel hfuel => ?_, hs, rfl⟩
  rw [card_toFinset hh] at hfuel
  obtain ⟨t, hv, -, rfl⟩ := hh
  have hroot : h.root = t.top := hv.outer
  rw [hroot, rbWalk_view hv hfuel]

end Operations

/-- **A red-black tree is a sorted set.** In every run the tree shows the set that the
operations have built; and the next operation returns what it should of this set, makes
the next set out of it, and leaves the heap alone if that is the same. -/
theorem rb_sorted_set {cmp : E → E → Int} (hcmp : Consistent cmp) {s : RbHeap E × Finset E}
    (hr : (rbTrees cmp).Reachable s) :
    InOrder cmp s.1 s.2 ∧ ∀ op : RbOp E, op.Legal s.2 → ∃ v,
      (∀ fuel, s.2.card + 1 < fuel → op.run cmp fuel s.1 = some v) ∧
      op.Answers cmp s.2 v.2 ∧ InOrder cmp v.1 (op.apply cmp s.2) ∧
      (op.apply cmp s.2 = s.2 → v.1 = s.1) := by
  have hg := holdsSorted_reachable hcmp hr
  refine ⟨hg.inOrder, fun op hl => ?_⟩
  obtain ⟨v, hv, hg', ha, hsame⟩ := Below.eventually (fun m n hmn => op.run_below cmp hmn s.1)
    fun fuel hfuel => op.correct hcmp hg hl hfuel
  exact ⟨v, hv, ha, hg'.inOrder, hsame⟩

/-- The smallest node from 4 on is 5. -/
theorem rb_sorted_set_nfind : ∃ h : RbHeap Nat, InOrder (fun a b : Nat => (a : Int) - b) h {3, 5} ∧
    ∃ v, (RbOp.nfind 4).run (fun a b : Nat => (a : Int) - b) 4 h = some v ∧ v.2 = some 5 := by
  obtain ⟨h, hr⟩ := two_reachable
  obtain ⟨hin, hop⟩ := rb_sorted_set (.sub fun a : Nat => (a : Int)) hr
  obtain ⟨⟨h', r⟩, hv, ha, -⟩ := hop (.nfind 4) trivial
  have hcard : ({3, 5} : Finset Nat).card + 1 < 4 := by decide
  refine ⟨h, hin, (h', r), hv 4 hcard, ?_⟩
  cases r with
  | none => exact absurd (ha 5 (show 5 ∈ ({3, 5} : Finset Nat) by decide)) (by decide)
  | some y =>
      obtain ⟨hy, hle, -⟩ := ha
      have : y = 3 ∨ y = 5 := by simpa using hy
      rcases this with rfl | rfl
      · exact absurd hle (by decide)
      · rfl

end LibrePortable.Sys
