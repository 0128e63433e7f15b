import LibrePortable.Lib.Compare
import LibrePortable.Sys.TreeRemove

/-!
# Searching

A search goes down from the root, comparing the key with one node after another. In a
tree whose order the comparison falls along, what lies on the side not taken cannot be
an answer, so each search finds what a search along the list of the nodes would find.
-/

namespace LibrePortable.Sys

open Lib Lib.RbTree Lib.Frame

variable {E : Type}

namespace RbHeap

variable {cmp : E → E → Int} {h : RbHeap E} {ctx : List (Frame E)} {t l r : RbTree E}
  {c : Color} {x y : E} {fuel : Nat}

/-- One turn of a search is enough for both subtrees. -/
theorem lt_of_fork (hfuel : (fork .left c l y r).toList.length < fuel + 1) :
    l.toList.length < fuel ∧ r.toList.length < fuel := by
  simp only [toList_fork, Side.seq, List.length_append, List.length_cons] at hfuel
  omega

/-- `RB_FIND` -/
theorem rbFind_view (hv : h.View ctx t) (hs : Falls (cmp x) t.toList)
    (hfuel : t.toList.length < fuel) :
    rbFind cmp h x fuel t.top = some (t.toList.find? fun z => cmp x z = 0) := by
  induction fuel generalizing ctx t with
  | zero => exact absurd hfuel (Nat.not_lt_zero _)
  | succ fuel ih =>
      obtain rfl | ⟨c, l, y, r, rfl⟩ := eq_nil_or_fork .left t
      · rfl
      obtain ⟨hll, hlr⟩ := lt_of_fork hfuel
      have hl : h.child .left y = l.top := hv.near_eq
      have hr : h.child .right y = r.top := hv.far_eq
      rw [toList_fork, Side.seq] at hs ⊢
      rw [top_fork, rbFind, hl, hr]
      have hle : ∀ z, (decide (cmp x z = 0) : Bool) → cmp x z ≤ 0 := fun z hz =>
        Int.le_of_eq (of_decide_eq_true hz)
      by_cases hlt : cmp x y < 0
      · rw [if_pos hlt, ih (view_near.mp hv) hs.left hll, hs.find_eq_neg hlt]
      by_cases hgt : cmp x y > 0
      · rw [if_neg hlt, if_pos hgt, ih (view_far.mp hv) hs.right hlr, hs.find_pos hle hgt]
      · have heq : cmp x y = 0 := by omega
        rw [if_neg hlt, if_neg hgt, hs.find_zero hle heq (decide_eq_true heq)]

/-- `RB_NFIND` -/
theorem rbNfind_view (hv : h.View ctx t) (hs : Falls (cmp x) t.toList) (res : Option E)
    (hfuel : t.toList.length < fuel) : rbNfind cmp h x fuel t.top res =
      some ((t.toList.find? fun z => cmp x z ≤ 0).or res) := by
  induction fuel generalizing ctx t res with
  | zero => exact absurd hfuel (Nat.not_lt_zero _)
  | succ fuel ih =>
      obtain rfl | ⟨c, l, y, r, rfl⟩ := eq_nil_or_fork .left t
      · rfl
      obtain ⟨hll, hlr⟩ := lt_of_fork hfuel
      have hl : h.child .left y = l.top := hv.near_eq
      have hr : h.child .right y = r.top := hv.far_eq
      rw [toList_fork, Side.seq] at hs ⊢
      rw [top_fork, rbNfind, hl, hr]
      have hle : ∀ z, (decide (cmp x z ≤ 0) : Bool) → cmp x z ≤ 0 := fun z => of_decide_eq_true
      by_cases hlt : cmp x y < 0
      · rw [if_pos hlt, ih (view_near.mp hv) hs.left _ hll, find_le_neg hlt, Option.or_assoc,
          Option.some_or]
      by_cases hgt : cmp x y > 0
      · rw [if_neg hlt, if_pos hgt, ih (view_far.mp hv) hs.right _ hlr, hs.find_pos hle hgt]
      · have heq : cmp x y = 0 := by omega
        rw [if_neg hlt, if_neg hgt,
          hs.find_zero hle heq (decide_eq_true (Int.le_of_eq heq)), Option.some_or]

/-- `RB_MIN`, `RB_MAX` -/
theorem rbMinMax_view (d : Side) (hv : h.View ctx t) (parent : Option E)
    (hfuel : t.toList.length < fuel) :
    rbMinMax d h fuel t.top parent = some ((d.read t.toList).head?.or parent) := by
  induction fuel generalizing ctx t parent with
  | zero => exact absurd hfuel (Nat.not_lt_zero _)
  | succ fuel ih =>
      obtain rfl | ⟨c, a, y, b, rfl⟩ := eq_nil_or_fork d t
      · rw [toList, Side.read_nil]
        rfl
      have ha : h.child d y = a.top := hv.near_eq
      have hla : a.toList.length < fuel := by
        rw [← d.length_read, toList_fork, Side.read_seq] at hfuel
        simp only [List.length_append, List.length_cons, Side.length_read] at hfuel
        omega
      rw [top_fork, rbMinMax, ha, ih (view_near.mp hv) _ hla, toList_fork, Side.read_seq,
        List.head?_append, Option.or_assoc]
      rfl

/-! ## Where a new node goes -/

/-- The key belongs into this hole. -/
structure Gap (cmp : E → E → Int) (x : E) (ctx : List (Frame E)) : Prop where
  before : ∀ z ∈ before ctx, 0 < cmp x z
  after : ∀ z ∈ after ctx, cmp x z < 0

/-- The last comparison says on which side of the last node the hole is. -/
def Leads (comp : Int) : List (Frame E) → Prop
  | [] => True
  | f :: _ => comp < 0 ↔ f.side = .left

theorem Gap.left (hg : Gap cmp x ctx) (hs : Falls (cmp x) (l.toList ++ y :: r.toList))
    (hlt : cmp x y < 0) : Gap cmp x (⟨.left, c, y, r⟩ :: ctx) where
  before := hg.before
  after z hz := by
    rcases List.mem_append.mp hz with hz | hz
    · rcases List.mem_cons.mp hz with rfl | hz
      · exact hlt
      · exact hs.neg_of_le (Int.le_of_lt hlt) z hz
    · exact hg.after z hz

theorem Gap.right (hg : Gap cmp x ctx) (hs : Falls (cmp x) (l.toList ++ y :: r.toList))
    (hgt : 0 < cmp x y) : Gap cmp x (⟨.right, c, y, l⟩ :: ctx) where
  before z hz := by
    rcases List.mem_append.mp hz with hz | hz
    · exact hg.before z hz
    · rcases List.mem_append.mp hz with hz | hz
      · exact hs.pos_of_le (Int.le_of_lt hgt) z hz
      · rw [List.mem_singleton.mp hz]
        exact hgt
  after := hg.after

/-- The search of `RB_INSERT` finds an equal node, or the place for a new one. -/
theorem rbDescend_view [DecidableEq E] {comp : Int} (hv : h.View ctx t)
    (hs : Falls (cmp x) t.toList) (hg : Gap cmp x ctx) (hc : Leads comp ctx)
    (hfuel : t.toList.length < fuel) :
    (∃ y p, rbDescend cmp h x fuel t.top (above ctx) comp = some (some y, p) ∧
      y ∈ t.toList ∧ cmp x y = 0) ∨
    ∃ ctx' comp', rbDescend cmp h x fuel t.top (above ctx) comp = some (none, above ctx', comp') ∧
      plug ctx' .nil = plug ctx t ∧ Gap cmp x ctx' ∧ Leads comp' ctx' := by
  induction fuel generalizing ctx t comp with
  | zero => exact absurd hfuel (Nat.not_lt_zero _)
  | succ fuel ih =>
      obtain rfl | ⟨c, l, y, r, rfl⟩ := eq_nil_or_fork .left t
      · exact Or.inr ⟨ctx, comp, rfl, rfl, hg, hc⟩
      obtain ⟨hll, hlr⟩ := lt_of_fork hfuel
      have hl : h.child .left y = l.top := hv.near_eq
      have hr : h.child .right y = r.top := hv.far_eq
      have hm : ∀ {z}, z ∈ l.toList ∨ z = y ∨ z ∈ r.toList → z ∈ (fork .left c l y r).toList :=
        mem_fork.mpr
      rw [toList_fork, Side.seq] at hs
      rw [top_fork, rbDescend, hl, hr]
      by_cases hlt : cmp x y < 0
      · rw [if_pos hlt]
        rcases ih (view_near.mp hv) hs.left (hg.left hs hlt) ⟨fun _ => rfl, fun _ => hlt⟩ hll with
          ⟨z, p, hd, hz, h0⟩ | ⟨ctx', comp', hd, hp, hg', hc'⟩
        · exact Or.inl ⟨z, p, hd, hm (Or.inl hz), h0⟩
        · exact Or.inr ⟨ctx', comp', hd, hp, hg', hc'⟩
      by_cases hgt : cmp x y > 0
      · rw [if_neg hlt, if_pos hgt]
        rcases ih (view_far.mp hv) hs.right (hg.right hs hgt)
          ⟨fun hlt' => absurd hlt' hlt, fun hs => by cases hs⟩ hlr with
          ⟨z, p, hd, hz, h0⟩ | ⟨ctx', comp', hd, hp, hg', hc'⟩
        · exact Or.inl ⟨z, p, hd, hm (Or.inr (Or.inr hz)), h0⟩
        · exact Or.inr ⟨ctx', comp', hd, hp, hg', hc'⟩
      · rw [if_neg hlt, if_neg hgt]
        exact Or.inl ⟨y, _, rfl, hm (Or.inr (Or.inl rfl)), by omega⟩

/-- The link that `RB_INSERT` sets is the one to the hole. -/
theorem hang_eq [DecidableEq E] {comp : Int} (h : RbHeap E) (hc : Leads comp ctx) (x : E) :
    (match above ctx with
      | some p => if comp < 0 then h.setChild .left p (some x) else h.setChild .right p (some x)
      | none => h.setRoot (some x)) = h.hang ctx x := by
  cases ctx with
  | nil => rfl
  | cons f ctx =>
      obtain ⟨d, c, y, sib⟩ := f
      cases d with
      | left => exact if_pos (hc.mpr rfl)
      | right => exact if_neg fun hlt => nomatch hc.mp hlt

end RbHeap

open RbHeap

variable [DecidableEq E] {cmp : E → E → Int} {h : RbHeap E} {xs : List E} {x : E} {fuel : Nat}

/-- **Insertion.** `RB_INSERT` of a new node returns an equal node of the tree, or puts
the new one between the smaller and the larger ones. -/
theorem Holds.insert (hh : Holds h xs) (hs : Falls (cmp x) xs) (hx : x ∉ xs)
    (hfuel : xs.length + 1 < fuel) :
    (∃ y ∈ xs, cmp x y = 0 ∧ rbInsert cmp fuel h x = some (h, some y)) ∨
    ∃ h' as bs, rbInsert cmp fuel h x = some (h', none) ∧ xs = as ++ bs ∧
      (∀ z ∈ as, 0 < cmp x z) ∧ (∀ z ∈ bs, cmp x z < 0) ∧ Holds h' (as ++ x :: bs) := by
  obtain ⟨t, hv, hrb, rfl⟩ := hh
  have hroot : h.root = t.top := hv.outer
  have hnil : Gap cmp x [] := ⟨nofun, nofun⟩
  have hstart : Leads 0 ([] : List (Frame E)) := trivial
  rcases rbDescend_view hv hs hnil hstart (Nat.lt_of_succ_lt hfuel) with
    ⟨y, p, hd, hy, h0⟩ | ⟨ctx, comp, hd, hp, hg, hc⟩
  · refine Or.inl ⟨y, hy, h0, ?_⟩
    rw [← hroot, above] at hd
    simp only [rbInsert, hd]
    rfl
  · obtain rfl : t = plug ctx .nil := hp.symm
    have hv' := hv.focus.attach hx
    obtain ⟨n, hf, hn, -⟩ := exists_fits hrb
    obtain rfl := valid_nil.mp hn
    have hred : (fork .left .red .nil x .nil : RbTree E).Valid 0 :=
      valid_fork_red.mpr ⟨⟨rfl, rfl⟩, rfl, rfl⟩
    have hlen : ctx.length < fuel := by
      have := length_le ctx (.nil : RbTree E)
      omega
    obtain ⟨h', hi, hh'⟩ := repaired_iff.mp (rbInsertColor_view hv' hf hred hlen)
    have hl : (plug ctx (fork .left .red .nil x .nil)).toList = before ctx ++ x :: after ctx := by
      simp [toList_plug, fork, toList]
    rw [hl] at hh'
    refine Or.inr ⟨h', before ctx, after ctx, ?_, by simp [toList_plug, toList], hg.before,
      hg.after, hh'⟩
    have hd' : rbDescend cmp h x fuel h.root none 0 = some (none, above ctx, comp) := by
      rw [hroot]
      exact hd
    rw [← hang_eq _ hc] at hi
    simp only [rbInsert, hd', Option.bind_eq_bind, Option.bind_some]
    exact congrArg (Option.bind · fun h => some (h, none)) hi

end LibrePortable.Sys
