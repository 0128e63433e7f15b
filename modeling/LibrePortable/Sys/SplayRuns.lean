import LibrePortable.Sys.SplayOps

/-!
# Runs over a splay tree

A run begins with `SPLAY_INIT`. Looking something up changes the tree as much as
inserting and removing do, so every operation is a step. What the tree is for is the
same as for a red-black tree, a finite set of nodes with an order; but a node may be
asked for by any node equal to it, and `SPLAY_REMOVE` returns what it was asked with.

The header promises that `m` operations on an empty tree take `O(m lg n)` turns in all.
That is said of a run as a whole, as a single operation may take `n`, and of the loops that
splay. `SPLAY_NEXT` splays like the others, but from there it goes down to the next node,
which is a way of up to `n` turns each time.
-/

namespace LibrePortable.Sys

open Lib Lib.Splay

variable {E : Type} [DecidableEq E]

/-- The operations on a tree. -/
inductive SplayOp (E : Type) where
  | insert (elm : E)
  | remove (elm : E)
  | find (elm : E)
  | next (elm : E)
  | min
  | max

namespace SplayOp

variable (cmp : E → E → Int)

/-- The function an operation calls: the heap it leaves and what it returns. -/
def run (h : SplayHeap E) : SplayOp E → Metered (SplayHeap E × Option E)
  | insert elm => splayInsert cmp h elm
  | remove elm => splayRemove cmp h elm
  | find elm => splayFind cmp h elm
  | next elm => splayNext cmp h elm
  | min => splayEnd h (-1)
  | max => splayEnd h 1

/-- The next node is asked for of nodes of the tree. -/
def Legal (s : Finset E) : SplayOp E → Prop
  | next elm => elm ∈ s
  | _ => True

/-- The set an operation leaves. -/
def apply (s : Finset E) : SplayOp E → Finset E
  | insert elm => if ∃ y ∈ s, cmp elm y = 0 then s else Insert.insert elm s
  | remove elm => s.filter fun y => cmp elm y ≠ 0
  | _ => s

omit [DecidableEq E] in
/-- What an operation returns. -/
def Answers (s : Finset E) : SplayOp E → Option E → Prop
  | insert elm => First (fun y z => cmp y z ≤ 0) (fun z => cmp elm z = 0) s
  | remove elm => fun r => r = if ∃ y ∈ s, cmp elm y = 0 then some elm else none
  | find elm => First (fun y z => cmp y z ≤ 0) (fun z => cmp elm z = 0) s
  | next elm => First (fun y z => cmp y z ≤ 0) (fun z => cmp elm z < 0) s
  | min => First (fun y z => cmp y z ≤ 0) (fun _ => True) s
  | max => First (fun y z => cmp z y ≤ 0) (fun _ => True) s

omit [DecidableEq E] in
/-- The nodes an operation may write to beside those of the tree. -/
def Brings : SplayOp E → E → Prop
  | insert elm, z => z = elm
  | _, _ => False

omit [DecidableEq E] in
def isInsert : SplayOp E → Bool
  | insert _ => true
  | _ => false

omit [DecidableEq E] in
def isNext : SplayOp E → Bool
  | next _ => true
  | _ => false

/-- The splays of an operation, without the way down that `SPLAY_NEXT` goes after its own. -/
def splays (h : SplayHeap E) : SplayOp E → Metered (SplayHeap E)
  | next elm => splay cmp h elm
  | op => do
    let v ← op.run cmp h
    pure v.1

end SplayOp

/-- A heap, and the set of the nodes in its tree. A step calls one of the functions and
shows what it returns. -/
def splayTrees (cmp : E → E → Int) : Lts (SplayHeap E × Finset E) (SplayOp E × Option E) where
  Init s := (∃ h, s.1 = splayInit h) ∧ s.2 = ∅
  Step s e s' := e.1.Legal s.2 ∧
    (∃ fuel left, e.1.run cmp s.1 fuel = some ((s'.1, e.2), left)) ∧ s'.2 = e.1.apply cmp s.2

/-- The nodes under a link, from left to right. -/
def splayWalk (h : SplayHeap E) : (fuel : Nat) → (p : Option E) → Option (List E)
  | 0, _ => none
  | _ + 1, none => some []
  | fuel + 1, some x => do
    let l ← splayWalk h fuel (h.child .left x)
    let r ← splayWalk h fuel (h.child .right x)
    pure (l ++ x :: r)

/-- The nodes of the tree are those in `s`, from left to right in strictly increasing
order. -/
def SplayInOrder (cmp : E → E → Int) (h : SplayHeap E) (s : Finset E) : Prop :=
  ∃ xs, (∀ fuel, s.card < fuel → splayWalk h fuel h.root = some xs) ∧ Sorted cmp xs ∧
    xs.toFinset = s

/-- A run goes on with any legal operation that returns. -/
theorem SplayOp.reachable {cmp : E → E → Int} {s : SplayHeap E × Finset E}
    (hr : (splayTrees cmp).Reachable s) (op : SplayOp E) (hl : op.Legal s.2) (fuel : Nat)
    {v : SplayHeap E × Option E} {left : Nat} (hv : op.run cmp s.1 fuel = some (v, left)) :
    (splayTrees cmp).Reachable (v.1, op.apply cmp s.2) :=
  hr.tail (e := (op, v.2)) ⟨hl, ⟨fuel, left, hv⟩, rfl⟩

/-- A tree of two nodes. -/
theorem two_splayed : ∃ h : SplayHeap Nat, (splayTrees fun a b : Nat => (a : Int) - b).Reachable
    (h, {3, 5}) := by
  have h₀ : (splayTrees fun a b : Nat => (a : Int) - b).Reachable
      (splayInit ⟨none, fun _ => ⟨none, none⟩⟩, ∅) := .init ⟨⟨_, rfl⟩, rfl⟩
  have h₁ := SplayOp.reachable h₀ (.insert 5) trivial 1 rfl
  exact ⟨_, SplayOp.reachable h₁ (.insert 3) trivial 1 rfl⟩

/-! ## The invariant -/

/-- The heap holds a tree of the nodes in `s`, sorted. -/
structure SplaySorted (cmp : E → E → Int) (h : SplayHeap E) (s : Finset E) (t : BinaryTree E) :
    Prop where
  holds : SplayHolds h t
  sorted : Sorted cmp (inorder t)
  nodes : (inorder t).toFinset = s

section Operations

variable {cmp : E → E → Int} {h : SplayHeap E} {s : Finset E} {t : BinaryTree E} {x : E}

theorem SplaySorted.card_eq (hg : SplaySorted cmp h s t) : s.card = t.numNodes := by
  rw [← hg.nodes, List.toFinset_card_of_nodup hg.holds.nodup, length_inorder]

theorem SplaySorted.mem_iff (hg : SplaySorted cmp h s t) : x ∈ s ↔ x ∈ inorder t := by
  rw [← hg.nodes, List.mem_toFinset]

/-- A tree with the same nodes is sorted as well. -/
theorem SplaySorted.same {h' : SplayHeap E} {t' : BinaryTree E} (hg : SplaySorted cmp h s t)
    (hh : SplayHolds h' t') (ho : inorder t' = inorder t) : SplaySorted cmp h' s t' :=
  ⟨hh, by rw [ho]; exact hg.sorted, by rw [ho]; exact hg.nodes⟩

omit [DecidableEq E] in
theorem splayWalk_linked (hl : h.Linked t) {fuel : Nat} (hfuel : t.numNodes < fuel) :
    splayWalk h fuel (top t) = some (inorder t) := by
  induction t generalizing fuel with
  | nil =>
      obtain ⟨fuel, rfl⟩ := Nat.exists_eq_add_one.mpr hfuel
      rfl
  | node x l r ihl ihr =>
      obtain ⟨fuel, rfl⟩ := Nat.exists_eq_add_one.mpr (Nat.zero_lt_of_lt hfuel)
      obtain ⟨he, hll, hlr⟩ := hl
      rw [BinaryTree.numNodes] at hfuel
      have hcl : h.child .left x = top l := by rw [SplayHeap.child, he]; rfl
      have hcr : h.child .right x = top r := by rw [SplayHeap.child, he]; rfl
      rw [top, splayWalk, hcl, hcr, ihl hll (by omega), ihr hlr (by omega)]
      rfl

theorem SplaySorted.inOrder (hg : SplaySorted cmp h s t) : SplayInOrder cmp h s := by
  refine ⟨inorder t, fun fuel hfuel => ?_, hg.sorted, hg.nodes⟩
  rw [hg.holds.root, splayWalk_linked hg.holds.linked (hg.card_eq ▸ hfuel)]

/-- What is behind a node in a sorted list is greater, and the next one is the least. -/
theorem first_next (hcmp : Consistent cmp) {as bs : List E} (hs : Sorted cmp (as ++ x :: bs)) :
    First (fun y z => cmp y z ≤ 0) (fun z => cmp x z < 0) (as ++ x :: bs).toFinset bs.head? := by
  have hbehind : ∀ z ∈ (as ++ x :: bs).toFinset, cmp x z < 0 → z ∈ bs := by
    intro z hz hlt
    rcases List.mem_append.mp (List.mem_toFinset.mp hz) with hz | hz
    · have := (hs.falls hcmp x).pos_of_le (Int.le_of_eq (hcmp.refl x).symm) z hz
      omega
    · rcases List.mem_cons.mp hz with rfl | hz
      · rw [hcmp.refl] at hlt
        exact absurd hlt (Int.lt_irrefl 0)
      · exact hz
  have hsbs := (List.pairwise_cons.mp (List.pairwise_append.mp hs).2.1)
  cases bs with
  | nil => exact fun z hz hlt => absurd (hbehind z hz hlt) nofun
  | cons y bs =>
      refine ⟨by simp, hsbs.1 y List.mem_cons_self, fun z hz hlt => ?_⟩
      rcases List.mem_cons.mp (hbehind z hz hlt) with rfl | hz
      · exact Int.le_of_eq (hcmp.refl z)
      · exact Int.le_of_lt ((List.pairwise_cons.mp hsbs.2).1 z hz)

/-- What an operation costs, less what the tree gets better by. -/
noncomputable def opBound (t : BinaryTree E) : ℝ :=
  splayBound t + splayBound t + lg (t.numNodes + 1)

omit [DecidableEq E] in
theorem le_opBound (t : BinaryTree E) : splayBound t ≤ opBound t ∧ 2 * splayBound t ≤ opBound t ∧
    splayBound t + lg (t.numNodes + 1) ≤ opBound t := by
  have h₁ := splayBound_nonneg t
  have h₂ := lg_nonneg (t.numNodes + 1)
  rw [opBound]
  refine ⟨?_, ?_, ?_⟩ <;> linarith

/-- What is proved of a step of a run, which takes `n` turns to splay and `w` more. -/
structure Step (cmp : E → E → Int) (h : SplayHeap E) (s : Finset E) (t : BinaryTree E)
    (op : SplayOp E) (n w : Nat) (v : SplayHeap E × Option E) (t' : BinaryTree E) : Prop where
  takes : Takes (op.run cmp h) (n + w) v
  splays : Takes (op.splays cmp h) n v.1
  walk : w ≤ if op.isNext then s.card else 0
  tree : SplaySorted cmp v.1 (op.apply cmp s) t'
  answers : op.Answers cmp s v.2
  off : ∀ z, z ∉ s → ¬ op.Brings z → v.1.entry z = h.entry z
  cost : Within t n t' (opBound t)

theorem SplaySorted.off (hg : SplaySorted cmp h s t) {h' : SplayHeap E}
    (hoff : SameOff (inorder t) h h') {z : E} (hz : z ∉ s) : h'.entry z = h.entry z :=
  hoff z fun hm => hz (hg.mem_iff.mpr hm)

/-- **Every operation does what is said of the set.** -/
theorem SplayOp.correct (hcmp : Consistent cmp) (hg : SplaySorted cmp h s t) (op : SplayOp E)
    (hl : op.Legal s) : ∃ n w v t', Step cmp h s t op n w v t' := by
  obtain ⟨hb₁, hb₂, hb₃⟩ := le_opBound t
  cases op with
  | insert x =>
      obtain ⟨n, h', t', r, htakes, hh', hoff, hwithin, hcase⟩ :=
        hg.holds.insert (hg.sorted.falls hcmp x) (hcmp.refl x)
      refine ⟨n, 0, (h', r), t', htakes, htakes.bind (n := 0) (.pure _), Nat.le_refl 0, ?_, ?_,
        fun z hz hx => hoff z ?_, hwithin.mono hb₃⟩
      · rcases hcase with ⟨y, hy, h0, -, ho⟩ | ⟨as, bs, hx, ha, hb, -, ho⟩
        · rw [SplayOp.apply, if_pos ⟨y, hg.mem_iff.mpr hy, h0⟩]
          exact hg.same hh' ho
        · have hs := hg.sorted
          have hnodes := hg.nodes
          rw [hx] at hs hnodes
          refine ⟨hh', by rw [ho]; exact hs.insert hcmp ha hb, ?_⟩
          rw [ho, insert_toFinset ha hb, hnodes]
          rfl
      · rcases hcase with ⟨y, hy, h0, rfl, -⟩ | ⟨as, bs, hx, ha, hb, rfl, -⟩
        · exact ⟨hg.mem_iff.mpr hy, h0, fun z _ hz =>
            hcmp.trans y x z (Int.le_of_eq (hcmp.symm h0)) (Int.le_of_eq hz)⟩
        · intro z hz h0
          rw [hg.mem_iff, hx] at hz
          rcases List.mem_append.mp hz with hz | hz
          · have := ha z hz
            omega
          · have := hb z hz
            omega
      · rw [List.mem_cons, not_or]
        exact ⟨hx, fun hm => hz (hg.mem_iff.mpr hm)⟩
  | remove x =>
      obtain ⟨n, h', t', htakes, hh', ho, hoff, hwithin⟩ :=
        hg.holds.remove (hg.sorted.falls hcmp x)
      refine ⟨n, 0, (h', _), t', htakes, htakes.bind (n := 0) (.pure _), Nat.le_refl 0,
        ⟨hh', ?_, ?_⟩, ?_, fun z hz _ => hg.off hoff hz, hwithin.mono hb₂⟩
      · rw [ho]
        exact hg.sorted.sublist List.filter_sublist
      · rw [ho, ← hg.nodes, SplayOp.apply, List.toFinset_filter]
        simp
      · rw [SplayOp.Answers]
        cases hfind : (inorder t).find? fun z => cmp x z = 0 with
        | none =>
            refine (if_neg ?_).symm
            rintro ⟨y, hy, h0⟩
            exact List.find?_eq_none.mp hfind y (hg.mem_iff.mp hy) (decide_eq_true h0)
        | some y =>
            have hy := List.mem_of_find?_eq_some hfind
            have h0 : cmp x y = 0 := by simpa using List.find?_some hfind
            exact (if_pos ⟨y, hg.mem_iff.mpr hy, h0⟩).symm
  | find x =>
      obtain ⟨n, h', t', htakes, hh', ho, hoff, hwithin⟩ := hg.holds.find (hg.sorted.falls hcmp x)
      refine ⟨n, 0, (h', _), t', htakes, htakes.bind (n := 0) (.pure _), Nat.le_refl 0,
        hg.same hh' ho, ?_, fun z hz _ => hg.off hoff hz, hwithin.mono hb₁⟩
      rw [← hg.nodes]
      exact first_find hcmp hg.sorted fun z => cmp x z = 0
  | next x =>
      obtain ⟨as, bs, hx⟩ := List.append_of_mem (hg.mem_iff.mp hl)
      obtain ⟨n, w, h', t', htakes, hsplay, hw, hh', ho, hoff, hwithin⟩ :=
        hg.holds.next hcmp hg.sorted hx
      refine ⟨n, w, (h', _), t', htakes, hsplay, ?_, hg.same hh' ho, ?_,
        fun z hz _ => hg.off hoff hz, hwithin.mono hb₁⟩
      · rw [hg.card_eq]
        exact hw
      have hs := hg.sorted
      rw [hx] at hs
      rw [← hg.nodes, hx]
      exact first_next hcmp hs
  | min =>
      obtain ⟨n, h', t', htakes, hh', ho, hoff, hwithin⟩ :=
        hg.holds.ends (show Side.left.Towards (-1) by decide)
      refine ⟨n, 0, (h', _), t', htakes, htakes.bind (n := 0) (.pure _), Nat.le_refl 0,
        hg.same hh' ho, ?_, fun z hz _ => hg.off hoff hz, hwithin.mono hb₁⟩
      rw [← hg.nodes]
      exact first_head hcmp hg.sorted
  | max =>
      obtain ⟨n, h', t', htakes, hh', ho, hoff, hwithin⟩ :=
        hg.holds.ends (show Side.right.Towards 1 by decide)
      refine ⟨n, 0, (h', _), t', htakes, htakes.bind (n := 0) (.pure _), Nat.le_refl 0,
        hg.same hh' ho, ?_, fun z hz _ => hg.off hoff hz, hwithin.mono hb₁⟩
      rw [← hg.nodes]
      exact first_last hcmp hg.sorted

theorem splaySorted_init (h : SplayHeap E) : SplaySorted cmp (splayInit h) ∅ .nil :=
  ⟨splayHolds_init h, List.Pairwise.nil, rfl⟩

theorem splaySorted_reachable (hcmp : Consistent cmp) {s : SplayHeap E × Finset E}
    (hr : (splayTrees cmp).Reachable s) : ∃ t, SplaySorted cmp s.1 s.2 t := by
  refine hr.invariant (I := fun s => ∃ t, SplaySorted cmp s.1 s.2 t) ?_ fun s e s' _ hg hs => ?_
  · rintro ⟨_, _⟩ ⟨⟨h, rfl⟩, rfl⟩
    exact ⟨.nil, splaySorted_init h⟩
  · obtain ⟨t, hg⟩ := hg
    obtain ⟨hl, ⟨fuel, left, hrun⟩, happ⟩ := hs
    obtain ⟨n, w, v, t', hstep⟩ := e.1.correct hcmp hg hl
    obtain ⟨hv, -⟩ := hstep.takes.of_eq_some hrun
    refine ⟨t', ?_⟩
    have htree := hstep.tree
    rw [← hv, ← happ] at htree
    exact htree

end Operations

/-- **A splay tree is a sorted set.** In every run the tree shows the set that the
operations have built; and the next operation ends, returns what it should of this set,
makes the next set out of it, and writes to no node outside of it. -/
theorem splay_sorted_set {cmp : E → E → Int} (hcmp : Consistent cmp)
    {s : SplayHeap E × Finset E} (hr : (splayTrees cmp).Reachable s) :
    SplayInOrder cmp s.1 s.2 ∧ ∀ op : SplayOp E, op.Legal s.2 → ∃ n v,
      Takes (op.run cmp s.1) n v ∧ op.Answers cmp s.2 v.2 ∧
      SplayInOrder cmp v.1 (op.apply cmp s.2) ∧
      ∀ z, z ∉ s.2 → ¬ op.Brings z → v.1.entry z = s.1.entry z := by
  obtain ⟨t, hg⟩ := splaySorted_reachable hcmp hr
  refine ⟨hg.inOrder, fun op hl => ?_⟩
  obtain ⟨n, w, v, t', hstep⟩ := op.correct hcmp hg hl
  exact ⟨n + w, v, hstep.takes, hstep.answers, hstep.tree.inOrder, hstep.off⟩

/-- In the tree of 3 and 5 the node behind 3 is 5. -/
theorem splay_sorted_set_next : ∃ h : SplayHeap Nat,
    SplayInOrder (fun a b : Nat => (a : Int) - b) h {3, 5} ∧
    ∃ n v, Takes ((SplayOp.next 3).run (fun a b : Nat => (a : Int) - b) h) n v ∧ v.2 = some 5 := by
  obtain ⟨h, hr⟩ := two_splayed
  obtain ⟨hin, hop⟩ := splay_sorted_set (.sub fun a : Nat => (a : Int)) hr
  obtain ⟨n, ⟨h', r⟩, hv, ha, -⟩ := hop (.next 3) (show 3 ∈ ({3, 5} : Finset Nat) by decide)
  refine ⟨h, hin, n, (h', r), hv, ?_⟩
  cases r with
  | none => exact absurd (ha 5 (show 5 ∈ ({3, 5} : Finset Nat) by decide)) (by decide)
  | some y =>
      obtain ⟨hy, hlt, -⟩ := ha
      have : y = 3 ∨ y = 5 := by simpa using hy
      rcases this with rfl | rfl
      · exact absurd hlt (by decide)
      · rfl

/-- **`SPLAY_FOREACH`** visits every node once, from the smallest to the largest, although
each of its steps changes the tree. -/
theorem splay_foreach {cmp : E → E → Int} (hcmp : Consistent cmp)
    {s : SplayHeap E × Finset E} (hr : (splayTrees cmp).Reachable s) {turns : Nat}
    (hturns : s.2.card < turns) : ∃ n h' xs, Takes (splayForeachLoop cmp turns s.1) n (h', xs) ∧
      Sorted cmp xs ∧ xs.toFinset = s.2 ∧ SplayInOrder cmp h' s.2 := by
  obtain ⟨t, hg⟩ := splaySorted_reachable hcmp hr
  obtain ⟨m, h₁, t₁, htakes₁, hh₁, ho₁, -⟩ := hg.holds.ends (show Side.left.Towards (-1) by decide)
  have hg₁ := hg.same hh₁ ho₁
  have hlen : (inorder t).length < turns := by
    rw [length_inorder, ← hg.card_eq]
    exact hturns
  have hall : inorder t₁ = [] ++ inorder t := ho₁
  obtain ⟨n, h', t', htakes, hh', ho, -⟩ := hh₁.foreach hcmp hg₁.sorted hall hlen
  exact ⟨m + n, h', inorder t, htakes₁.bind htakes, hg.sorted, hg.nodes, (hg₁.same hh' ho).inOrder⟩

theorem splay_foreach_two : ∃ h : SplayHeap Nat, ∃ n h' xs,
    Takes (splayForeachLoop (fun a b : Nat => (a : Int) - b) 3 h) n (h', xs) ∧
      Sorted (fun a b : Nat => (a : Int) - b) xs ∧ xs.toFinset = {3, 5} ∧
      SplayInOrder (fun a b : Nat => (a : Int) - b) h' {3, 5} := by
  obtain ⟨h, hr⟩ := two_splayed
  have hcard : ({3, 5} : Finset Nat).card < 3 := by decide
  exact ⟨h, splay_foreach (.sub fun a : Nat => (a : Int)) hr hcard⟩

/-! ## What a run costs -/

namespace SplayOp

/-- All operations of a list, one after the other: the heap they leave and what they
return. -/
def runAll (cmp : E → E → Int) :
    List (SplayOp E) → SplayHeap E → Metered (SplayHeap E × List (Option E))
  | [], h => pure (h, [])
  | op :: ops, h => do
    let (h, r) ← op.run cmp h
    let (h, rs) ← runAll cmp ops h
    pure (h, r :: rs)

/-- The splays of all of them. -/
def splaysAll (cmp : E → E → Int) : List (SplayOp E) → SplayHeap E → Metered (SplayHeap E)
  | [], h => pure h
  | op :: ops, h => do
    let h ← op.splays cmp h
    splaysAll cmp ops h

/-- Each of the operations may be called when its turn comes. -/
def LegalAll (cmp : E → E → Int) : List (SplayOp E) → Finset E → Prop
  | [], _ => True
  | op :: ops, s => op.Legal s ∧ LegalAll cmp ops (op.apply cmp s)

omit [DecidableEq E] in
/-- How many of the operations are insertions. -/
def inserts (ops : List (SplayOp E)) : Nat := ops.countP isInsert

omit [DecidableEq E] in
/-- How many of them are calls of `SPLAY_NEXT`. -/
def nexts (ops : List (SplayOp E)) : Nat := ops.countP isNext

/-- Only an insertion makes the set larger. -/
theorem card_apply_le (cmp : E → E → Int) (s : Finset E) (op : SplayOp E) :
    (op.apply cmp s).card ≤ s.card + if op.isInsert then 1 else 0 := by
  cases op with
  | insert x =>
      rw [apply]
      split
      · exact Nat.le_add_right _ _
      · exact Finset.card_insert_le x s
  | remove x => exact Finset.card_filter_le _ _
  | find x => exact Nat.le_refl _
  | next x => exact Nat.le_refl _
  | min => exact Nat.le_refl _
  | max => exact Nat.le_refl _

end SplayOp

omit [DecidableEq E] in
/-- What is charged for one operation on at most `N` nodes. -/
theorem opBound_le {t : BinaryTree E} {N : Nat} (h : t.numNodes ≤ N) :
    opBound t ≤ 7 * lg (N + 1) + 4 := by
  have h₁ : lg t.numNodes ≤ lg (N + 1) := lg_le (by omega)
  have h₂ : lg (t.numNodes + 1) ≤ lg (N + 1) := lg_le (by omega)
  rw [opBound, splayBound]
  linarith

/-- A run from any tree costs what is charged, and what the tree may get better by. -/
theorem SplayOp.runAll_takes {cmp : E → E → Int} (hcmp : Consistent cmp) {N : Nat}
    (ops : List (SplayOp E)) {h : SplayHeap E} {s : Finset E} {t : BinaryTree E}
    (hops : LegalAll cmp ops s) (hg : SplaySorted cmp h s t) (hN : s.card + inserts ops ≤ N) :
    ∃ n w v, Takes (runAll cmp ops h) (n + w) v ∧ Takes (splaysAll cmp ops h) n v.1 ∧
      (n : ℝ) ≤ potential t + ops.length * (7 * lg (N + 1) + 4) ∧ w ≤ nexts ops * N := by
  induction ops generalizing h s t with
  | nil =>
      have := potential_nonneg t
      exact ⟨0, 0, _, .pure _, .pure _, by simpa using this, Nat.zero_le _⟩
  | cons op ops ih =>
      obtain ⟨hl, hrest⟩ := hops
      obtain ⟨m, k, v, t', hstep⟩ := op.correct hcmp hg hl
      have hcount : inserts (op :: ops) = inserts ops + if op.isInsert then 1 else 0 :=
        List.countP_cons
      have hnexts : nexts (op :: ops) = nexts ops + if op.isNext then 1 else 0 := List.countP_cons
      have hcard := op.card_apply_le cmp s
      obtain ⟨n, w, r, htakes, hsplays, hn, hw⟩ := ih hrest hstep.tree (by omega)
      have hturns : (m + k) + (n + w + 0) = (m + n) + (k + w) := by omega
      have hrun : Takes (runAll cmp (op :: ops) h) ((m + k) + (n + w + 0)) (r.1, v.2 :: r.2) :=
        hstep.takes.bind (htakes.bind (.pure _))
      rw [hturns] at hrun
      refine ⟨m + n, k + w, _, hrun, hstep.splays.bind hsplays, ?_, ?_⟩
      · have hcost := hstep.cost
        have hbound := opBound_le (t := t) (N := N) (by rw [← hg.card_eq]; omega)
        rw [Within] at hcost
        push_cast [List.length_cons]
        linarith
      · have hwalk := hstep.walk
        rw [hnexts]
        split at hwalk
        · next hnext =>
            rw [if_pos hnext, Nat.add_mul]
            omega
        · next hnext =>
            rw [if_neg hnext, Nat.add_zero]
            omega

/-- **A splay tree is as good as a balanced one over a whole run.** From an empty tree, the
splays of any operations of which `n` are insertions take at most `7 lg (n + 1) + 4` turns
for each operation, all loops counted together. All other turns are those on the way from
a node to the next one, at most `n` for each `SPLAY_NEXT`. -/
theorem splay_balance {cmp : E → E → Int} (hcmp : Consistent cmp) (ops : List (SplayOp E))
    (hops : SplayOp.LegalAll cmp ops ∅) (h : SplayHeap E) :
    ∃ n w v, Takes (SplayOp.runAll cmp ops (splayInit h)) (n + w) v ∧
      Takes (SplayOp.splaysAll cmp ops (splayInit h)) n v.1 ∧
      (n : ℝ) ≤ ops.length * (7 * Real.logb 2 (SplayOp.inserts ops + 1) + 4) ∧
      w ≤ SplayOp.nexts ops * SplayOp.inserts ops := by
  obtain ⟨n, w, v, htakes, hsplays, hn, hw⟩ := SplayOp.runAll_takes hcmp ops hops
    (splaySorted_init h) (Nat.le_of_eq (by rw [Finset.card_empty, Nat.zero_add]))
  refine ⟨n, w, v, htakes, hsplays, ?_, hw⟩
  rw [potential, zero_add, lg] at hn
  push_cast at hn
  exact hn

/-- Two insertions, a step to the next node and a search. -/
theorem splay_balance_four : ∃ n w v,
    Takes (SplayOp.runAll (fun a b : Nat => (a : Int) - b)
      [.insert 5, .insert 3, .next 3, .find 5] (splayInit ⟨none, fun _ => ⟨none, none⟩⟩))
      (n + w) v ∧
    Takes (SplayOp.splaysAll (fun a b : Nat => (a : Int) - b)
      [.insert 5, .insert 3, .next 3, .find 5] (splayInit ⟨none, fun _ => ⟨none, none⟩⟩)) n v.1 ∧
    (n : ℝ) ≤ (4 : Nat) * (7 * Real.logb 2 ((2 : Nat) + 1) + 4) ∧ w ≤ 1 * 2 :=
  splay_balance (.sub fun a : Nat => (a : Int)) [.insert 5, .insert 3, .next 3, .find 5]
    ⟨trivial, trivial, by unfold SplayOp.Legal; decide, trivial, trivial⟩ _

end LibrePortable.Sys
