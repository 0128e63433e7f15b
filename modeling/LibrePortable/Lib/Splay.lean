import Mathlib.Data.Tree.Basic
import LibrePortable.Lib.Compare
import LibrePortable.Lib.RedBlack

/-!
# Top-down splaying

A search for the place where `cut` changes its sign goes down from the root and takes
the tree apart on the way: what it leaves behind on one side is put aside, and twice
in the same direction is once with a rotation. Where the search ends, the parts are
put together again under the node it has reached.

Here this is a relation between the tree before and the tree after. It neither adds
nor loses a node nor changes their order, and it brings a node to the top that has
nothing between itself and the place looked for.
-/

namespace LibrePortable.Lib

/-- A comparison that sends a search to side `d`. -/
def Side.Towards (d : Side) (n : Int) : Prop :=
  match d with
  | .left => n < 0
  | .right => 0 < n

instance (d : Side) (n : Int) : Decidable (d.Towards n) :=
  match d with
  | .left => inferInstanceAs (Decidable (n < 0))
  | .right => inferInstanceAs (Decidable (0 < n))

namespace Side

variable {d : Side} {n : Int}

theorem Towards.not_other (h : d.Towards n) : ¬ d.other.Towards n := by
  cases d with
  | left => exact Int.not_lt.mpr (Int.le_of_lt h)
  | right => exact Int.not_lt.mpr (Int.le_of_lt h)

theorem Towards.ne_zero (h : d.Towards n) : n ≠ 0 := by
  cases d with
  | left => exact Int.ne_of_lt h
  | right => exact (Int.ne_of_lt h).symm

theorem exists_towards (h : n ≠ 0) : ∃ d : Side, d.Towards n := by
  rcases Int.lt_or_gt_of_ne h with h | h
  · exact ⟨.left, h⟩
  · exact ⟨.right, h⟩

end Side

namespace Splay

open BinaryTree

variable {α : Type}

/-- The nodes from left to right. -/
def inorder : BinaryTree α → List α
  | nil => []
  | node x l r => inorder l ++ x :: inorder r

def top : BinaryTree α → Option α
  | nil => none
  | node x _ _ => some x

/-- A node with `a` on side `d` and `b` on the other. -/
def fork (d : Side) (a : BinaryTree α) (x : α) (b : BinaryTree α) : BinaryTree α :=
  match d with
  | .left => node x a b
  | .right => node x b a

/-- What one run of the loop makes of a tree, and how many times it asks whether to go
on. -/
inductive Splays (cut : α → Int) : BinaryTree α → Nat → BinaryTree α → Prop where
  | found {x : α} {a b : BinaryTree α} : cut x = 0 → Splays cut (node x a b) 1 (node x a b)
  /-- There is nothing further on. -/
  | edge {d : Side} {x : α} {b : BinaryTree α} : d.Towards (cut x) →
      Splays cut (fork d nil x b) 1 (fork d nil x b)
  /-- There is nothing further on after a rotation. -/
  | turned {d : Side} {x y : α} {b e : BinaryTree α} : d.Towards (cut x) → d.Towards (cut y) →
      Splays cut (fork d (fork d nil y e) x b) 1 (fork d nil y (fork d e x b))
  /-- Two nodes are put aside, one rotated under the other. -/
  | zigzig {d : Side} {x y w : α} {a b e p q : BinaryTree α} {n : Nat} :
      d.Towards (cut x) → d.Towards (cut y) →
      Splays cut a n (fork d p w q) →
      Splays cut (fork d (fork d a y e) x b) (n + 1) (fork d p w (fork d q y (fork d e x b)))
  /-- One node is put aside. -/
  | zig {d : Side} {x y w : α} {a b e p q : BinaryTree α} {n : Nat} :
      d.Towards (cut x) → ¬ d.Towards (cut y) →
      Splays cut (fork d a y e) n (fork d p w q) →
      Splays cut (fork d (fork d a y e) x b) (n + 1) (fork d p w (fork d q x b))

variable {d : Side} {a b t : BinaryTree α} {x y : α} {n : Nat}

@[simp] theorem fork_other : fork d.other a x b = fork d b x a := by cases d <;> rfl

@[simp] theorem top_fork : top (fork d a x b) = some x := by cases d <;> rfl

@[simp] theorem inorder_fork : inorder (fork d a x b) = d.seq (inorder a) x (inorder b) := by
  cases d <;> rfl

theorem mem_fork {z : α} : z ∈ inorder (fork d a x b) ↔ z ∈ inorder a ∨ z = x ∨ z ∈ inorder b := by
  rw [inorder_fork, Side.mem_seq]

theorem nodup_fork : (inorder (fork d a x b)).Nodup ↔
    (x ∉ inorder a ∧ x ∉ inorder b) ∧ ((inorder a).Nodup ∧ (inorder b).Nodup) ∧
      ∀ z ∈ inorder a, z ∉ inorder b := by
  rw [inorder_fork]
  cases d with
  | left =>
      simp only [Side.seq, List.nodup_append, List.nodup_cons, List.mem_cons]
      grind
  | right =>
      simp only [Side.seq, List.nodup_append, List.nodup_cons, List.mem_cons]
      grind

@[simp] theorem numNodes_fork : (fork d a x b).numNodes = a.numNodes + b.numNodes + 1 := by
  cases d with
  | left => rfl
  | right => simp [fork, Nat.add_comm]

theorem fork_ne_nil : fork d a x b ≠ nil := by cases d <;> exact nofun

theorem top_eq_none : top t = none ↔ t = nil := by
  cases t with
  | nil => exact ⟨fun _ => rfl, fun _ => rfl⟩
  | node x l r => exact ⟨nofun, nofun⟩

theorem top_mem (h : top t = some x) : x ∈ inorder t := by
  cases t with
  | nil => cases h
  | node y l r =>
      obtain rfl : y = x := Option.some.inj h
      simp [inorder]

theorem length_inorder (t : BinaryTree α) : (inorder t).length = t.numNodes := by
  induction t with
  | nil => rfl
  | node x l r ihl ihr =>
      simp only [inorder, List.length_append, List.length_cons, ihl, ihr, numNodes]
      omega

theorem fork_inj {a' b' : BinaryTree α} (h : fork d a x b = fork d a' y b') :
    a = a' ∧ x = y ∧ b = b' := by
  cases d with
  | left => cases h; exact ⟨rfl, rfl, rfl⟩
  | right => cases h; exact ⟨rfl, rfl, rfl⟩

/-- Every tree is empty or a node, seen from either side. -/
theorem eq_nil_or_fork (d : Side) (t : BinaryTree α) : t = nil ∨ ∃ a x b, t = fork d a x b := by
  cases t with
  | nil => exact Or.inl rfl
  | node x l r =>
      refine Or.inr ?_
      cases d with
      | left => exact ⟨l, x, r, rfl⟩
      | right => exact ⟨r, x, l, rfl⟩

namespace Splays

variable {cut : α → Int} {t' : BinaryTree α}

theorem ne_nil (h : Splays cut t n t') : t' ≠ nil := by
  cases h with
  | found _ => exact nofun
  | edge _ => exact fork_ne_nil
  | turned _ _ => exact fork_ne_nil
  | zigzig _ _ _ => exact fork_ne_nil
  | zig _ _ _ => exact fork_ne_nil

theorem start_ne_nil (h : Splays cut t n t') : t ≠ nil := by
  cases h with
  | found _ => exact nofun
  | edge _ => exact fork_ne_nil
  | turned _ _ => exact fork_ne_nil
  | zigzig _ _ _ => exact fork_ne_nil
  | zig _ _ _ => exact fork_ne_nil

theorem eq_fork (d : Side) (h : Splays cut t n t') : ∃ p w q, t' = fork d p w q :=
  (eq_nil_or_fork d t').resolve_left h.ne_nil

/-- **A tree that is not empty can be splayed.** -/
theorem exists_of_ne_nil (cut : α → Int) (h : t ≠ nil) : ∃ n t', Splays cut t n t' := by
  induction hn : t.numNodes using Nat.strong_induction_on generalizing t with
  | _ k ih =>
  subst hn
  obtain ⟨x, l, r, rfl⟩ : ∃ x l r, t = node x l r := by
    cases t with
    | nil => exact absurd rfl h
    | node x l r => exact ⟨x, l, r, rfl⟩
  by_cases hx : cut x = 0
  · exact ⟨1, _, .found hx⟩
  obtain ⟨d, hd⟩ := Side.exists_towards hx
  obtain ⟨a, b, hab⟩ : ∃ a b, node x l r = fork d a x b := by
    cases d with
    | left => exact ⟨l, r, rfl⟩
    | right => exact ⟨r, l, rfl⟩
  rw [hab] at ih ⊢
  obtain rfl | ⟨a, y, e, rfl⟩ := eq_nil_or_fork d a
  · exact ⟨1, _, .edge hd⟩
  by_cases hy : d.Towards (cut y)
  · by_cases ha : a = nil
    · subst ha
      exact ⟨1, _, .turned hd hy⟩
    · obtain ⟨n, t', hs⟩ := ih a.numNodes (by simp only [numNodes_fork]; omega) ha rfl
      obtain ⟨p, w, q, rfl⟩ := hs.eq_fork d
      exact ⟨n + 1, _, .zigzig hd hy hs⟩
  · have hlt : (fork d a y e).numNodes < (fork d (fork d a y e) x b).numNodes := by
      simp only [numNodes_fork]
      omega
    obtain ⟨n, t', hs⟩ := ih _ hlt fork_ne_nil rfl
    obtain ⟨p, w, q, rfl⟩ := hs.eq_fork d
    exact ⟨n + 1, _, .zig hd hy hs⟩

/-- **The order of the nodes stays.** -/
theorem inorder_eq (h : Splays cut t n t') : inorder t' = inorder t := by
  induction h with
  | found _ => rfl
  | edge _ => rfl
  | turned _ _ => simp
  | zigzig _ _ _ ih =>
      simp only [inorder_fork] at ih ⊢
      simp only [← ih, Side.seq_seq]
  | zig _ _ _ ih =>
      simp only [inorder_fork] at ih ⊢
      rw [← Side.seq_seq, ih]

theorem numNodes_eq (h : Splays cut t n t') : t'.numNodes = t.numNodes := by
  rw [← length_inorder, ← length_inorder, h.inorder_eq]

end Splays

/-! ## What comes to the top -/

/-- What is before a node on the way to the place looked for is on its other side. -/
def Nearest (cut : α → Int) : BinaryTree α → Prop
  | nil => True
  | node w p q =>
      (cut w < 0 → ∀ z ∈ inorder p, 0 < cut z) ∧ (0 < cut w → ∀ z ∈ inorder q, cut z < 0)

section Nearest

variable {cut : α → Int} {t' : BinaryTree α} {as bs : List α}

theorem nearest_fork : Nearest cut (fork d a x b) ↔
    (d.Towards (cut x) → ∀ z ∈ inorder a, d.other.Towards (cut z)) ∧
      (d.other.Towards (cut x) → ∀ z ∈ inorder b, d.Towards (cut z)) := by
  cases d with
  | left => exact Iff.rfl
  | right => exact and_comm

theorem falls_near (h : Falls cut (d.seq as x bs)) : Falls cut as := by
  cases d with
  | left => exact h.left
  | right => exact h.right

/-- Behind a node that sends the search to side `d` all nodes do. -/
theorem falls_beyond (h : Falls cut (d.seq as x bs)) (hx : d.Towards (cut x)) :
    ∀ z ∈ bs, d.Towards (cut z) := by
  cases d with
  | left => exact h.neg_of_le (Int.le_of_lt hx)
  | right => exact h.pos_of_le (Int.le_of_lt hx)

/-- **Nothing is between the top and the place looked for.** -/
theorem Splays.nearest (h : Splays cut t n t') (hf : Falls cut (inorder t)) : Nearest cut t' := by
  induction h with
  | found h0 =>
      exact ⟨fun h => absurd h0 (Int.ne_of_lt h), fun h => absurd h0.symm (Int.ne_of_lt h)⟩
  | edge hx => exact nearest_fork.mpr ⟨fun _ => nofun, fun h => absurd h hx.not_other⟩
  | turned _ hy => exact nearest_fork.mpr ⟨fun _ => nofun, fun h => absurd h hy.not_other⟩
  | @zigzig d x y w a b e p q n hx hy _ ih =>
      simp only [inorder_fork, Side.seq_seq] at hf
      obtain ⟨hp, hq⟩ := nearest_fork.mp (ih (falls_near hf))
      refine nearest_fork.mpr ⟨hp, fun hw z hz => ?_⟩
      rw [inorder_fork, Side.mem_seq] at hz
      rcases hz with hz | rfl | hz
      · exact hq hw z hz
      · exact hy
      · exact falls_beyond hf hy z (by simpa using hz)
  | @zig d x y w a b e p q n hx hy _ ih =>
      rw [inorder_fork] at hf
      obtain ⟨hp, hq⟩ := nearest_fork.mp (ih (falls_near hf))
      refine nearest_fork.mpr ⟨hp, fun hw z hz => ?_⟩
      rw [inorder_fork, Side.mem_seq] at hz
      rcases hz with hz | rfl | hz
      · exact hq hw z hz
      · exact hx
      · exact falls_beyond hf hx z hz

/-- A node that is there is found. -/
theorem Splays.found_eq (h : Splays cut t n t') (hf : Falls cut (inorder t)) (hx : x ∈ inorder t)
    (h0 : cut x = 0) : ∃ w p q, t' = node w p q ∧ cut w = 0 := by
  obtain ⟨p, w, q, rfl⟩ := h.eq_fork .left
  refine ⟨w, p, q, rfl, ?_⟩
  rw [← h.inorder_eq] at hf hx
  obtain ⟨hp, hq⟩ := h.nearest (h.inorder_eq ▸ hf)
  by_contra hw
  rw [inorder_fork, Side.mem_seq] at hx
  rcases Int.lt_or_gt_of_ne hw with hlt | hgt
  · -- the nodes before `w` are positive and those behind it negative
    rcases hx with hx | rfl | hx
    · have := hp hlt x hx
      omega
    · exact hw h0
    · have := hf.neg_of_le (Int.le_of_lt hlt) x hx
      omega
  · rcases hx with hx | rfl | hx
    · have := hf.pos_of_le (Int.le_of_lt hgt) x hx
      omega
    · exact hw h0
    · have := hq hgt x hx
      omega

end Nearest

end Splay

end LibrePortable.Lib
