import Mathlib.Data.List.Basic
import Mathlib.Tactic.Linarith

/-!
# Red-black trees with a place to work at

Binary trees with coloured nodes, the two conditions on the colours, and trees with
a hole. An algorithm that repairs a tree works at one place and looks at most a few
nodes up; the rest of the tree is a list of frames, the innermost first, and what the
rest demands of whatever is put into the hole is `Fits`.

Left and right are symmetric everywhere. `fork d` builds a node whose first subtree is
on side `d`, so that a statement and its mirror image are one.
-/

namespace LibrePortable.Lib

inductive Color where
  | red | black
  deriving DecidableEq, Repr

inductive Side where
  | left | right
  deriving DecidableEq, Repr

/-- The black nodes on the ways down from a node of this colour, if there are `n` below. -/
def Color.up : Color → Nat → Nat
  | .red, n => n
  | .black, n => n + 1

def Side.other : Side → Side
  | .left => .right
  | .right => .left

@[simp] theorem Side.other_other (d : Side) : d.other.other = d := by cases d <;> rfl

theorem Side.eq_or_eq_other (d d' : Side) : d' = d ∨ d' = d.other := by
  cases d <;> cases d' <;> simp [other]

/-- Two lists with an element between them, `as` on side `d`. -/
def Side.seq {α : Type} (d : Side) (as : List α) (x : α) (bs : List α) : List α :=
  match d with
  | .left => as ++ x :: bs
  | .right => bs ++ x :: as

@[simp] theorem Side.mem_seq {α : Type} {d : Side} {as bs : List α} {x z : α} :
    z ∈ d.seq as x bs ↔ z ∈ as ∨ z = x ∨ z ∈ bs := by
  cases d with
  | left => simp [seq]
  | right =>
      simp only [seq, List.mem_append, List.mem_cons]
      grind

@[simp] theorem Side.seq_other {α : Type} (d : Side) (as : List α) (x : α) (bs : List α) :
    d.other.seq as x bs = d.seq bs x as := by cases d <;> rfl

@[simp] theorem Side.seq_seq {α : Type} (d : Side) (as bs es : List α) (x y : α) :
    d.seq (d.seq as x bs) y es = d.seq as x (d.seq bs y es) := by cases d <;> simp [seq]

/-- A list as read from side `d`. -/
def Side.read {α : Type} (d : Side) (xs : List α) : List α :=
  match d with
  | .left => xs
  | .right => xs.reverse

@[simp] theorem Side.read_nil {α : Type} (d : Side) : d.read ([] : List α) = [] := by
  cases d <;> rfl

@[simp] theorem Side.read_read {α : Type} (d : Side) (xs : List α) : d.read (d.read xs) = xs := by
  cases d <;> simp [read]

@[simp] theorem Side.mem_read {α : Type} {d : Side} {xs : List α} {x : α} :
    x ∈ d.read xs ↔ x ∈ xs := by
  cases d <;> simp [read]

@[simp] theorem Side.length_read {α : Type} (d : Side) (xs : List α) :
    (d.read xs).length = xs.length := by
  cases d <;> simp [read]

@[simp] theorem Side.nodup_read {α : Type} {d : Side} {xs : List α} :
    (d.read xs).Nodup ↔ xs.Nodup := by
  cases d with
  | left => exact Iff.rfl
  | right => exact (List.reverse_perm xs).nodup_iff

@[simp] theorem Side.filter_read {α : Type} (d : Side) (p : α → Bool) (xs : List α) :
    (d.read xs).filter p = d.read (xs.filter p) := by
  cases d <;> simp [read]

theorem Side.read_seq {α : Type} (d : Side) (as bs : List α) (x : α) :
    d.read (d.seq as x bs) = d.read as ++ x :: d.read bs := by
  cases d <;> simp [read, seq]

inductive RbTree (α : Type) where
  | nil
  | node (c : Color) (l : RbTree α) (x : α) (r : RbTree α)

namespace RbTree

variable {α : Type}

/-- The nodes from left to right. -/
def toList : RbTree α → List α
  | nil => []
  | node _ l x r => l.toList ++ x :: r.toList

def top : RbTree α → Option α
  | nil => none
  | node _ _ x _ => some x

/-- The colour of the root; an empty tree counts as black. -/
def color : RbTree α → Color
  | nil => .black
  | node c _ _ _ => c

/-- Give the root another colour. -/
def paint (c : Color) : RbTree α → RbTree α
  | nil => nil
  | node _ l x r => node c l x r

/-- A node with `a` on side `d` and `b` on the other. -/
def fork (d : Side) (c : Color) (a : RbTree α) (x : α) (b : RbTree α) : RbTree α :=
  match d with
  | .left => node c a x b
  | .right => node c b x a

variable {d : Side} {c c' : Color} {a b e t : RbTree α} {x y : α} {n : Nat}

@[simp] theorem fork_other : fork d.other c a x b = fork d c b x a := by cases d <;> rfl

@[simp] theorem top_fork : (fork d c a x b).top = some x := by cases d <;> rfl

@[simp] theorem color_fork : (fork d c a x b).color = c := by cases d <;> rfl

@[simp] theorem paint_fork : (fork d c' a x b).paint c = fork d c a x b := by cases d <;> rfl

@[simp] theorem toList_paint : (t.paint c).toList = t.toList := by cases t <;> rfl

@[simp] theorem top_paint : (t.paint c).top = t.top := by cases t <;> rfl

theorem fork_ne_nil : fork d c a x b ≠ nil := by cases d <;> exact nofun

/-- The order of the nodes does not depend on the colours, and does not change when a
node is rotated under its child. -/
@[simp] theorem toList_fork : (fork d c a x b).toList = d.seq a.toList x b.toList := by
  cases d <;> rfl

theorem mem_fork {z : α} :
    z ∈ (fork d c a x b).toList ↔ z ∈ a.toList ∨ z = x ∨ z ∈ b.toList := by
  simp

theorem nodup_fork : (fork d c a x b).toList.Nodup ↔
    (x ∉ a.toList ∧ x ∉ b.toList) ∧ (a.toList.Nodup ∧ b.toList.Nodup) ∧
      ∀ z ∈ a.toList, z ∉ b.toList := by
  rw [toList_fork]
  cases d with
  | left =>
      simp only [Side.seq, List.nodup_append, List.nodup_cons, List.mem_cons]
      grind
  | right =>
      simp only [Side.seq, List.nodup_append, List.nodup_cons, List.mem_cons]
      grind

theorem top_mem (h : t.top = some x) : x ∈ t.toList := by
  cases t with
  | nil => cases h
  | node c l y r =>
      obtain rfl : y = x := Option.some.inj h
      simp [toList]

/-- Every tree is empty or a node, seen from either side. -/
theorem eq_nil_or_fork (d : Side) (t : RbTree α) : t = nil ∨ ∃ c a x b, t = fork d c a x b := by
  cases t with
  | nil => exact Or.inl rfl
  | node c l x r =>
      refine Or.inr ?_
      cases d with
      | left => exact ⟨c, l, x, r, rfl⟩
      | right => exact ⟨c, r, x, l, rfl⟩

/-- A node can be seen from either side. -/
theorem fork_turn (d d' : Side) (c : Color) (a : RbTree α) (x : α) (b : RbTree α) :
    ∃ a' b', fork d c a x b = fork d' c a' x b' := by
  rcases Side.eq_or_eq_other d d' with rfl | rfl
  · exact ⟨a, b, rfl⟩
  · exact ⟨b, a, fork_other.symm⟩

/-- Induction on a tree seen from side `d`. -/
theorem forkInduction (d : Side) {motive : RbTree α → Prop} (nil : motive nil)
    (fork : ∀ c a x b, motive a → motive b → motive (fork d c a x b)) (t : RbTree α) :
    motive t := by
  induction t with
  | nil => exact nil
  | node c l x r ihl ihr =>
      cases d with
      | left => exact fork c l x r ihl ihr
      | right => exact fork c r x l ihr ihl

/-! ## Colours -/

/-- No red node has a red child, and every way down meets `n` black nodes. -/
def Valid : RbTree α → Nat → Prop
  | nil, n => n = 0
  | node .red l _ r, n => (l.color = .black ∧ r.color = .black) ∧ l.Valid n ∧ r.Valid n
  | node .black l _ r, n => ∃ m, n = m + 1 ∧ l.Valid m ∧ r.Valid m

/-- A red-black tree. -/
def RedBlack (t : RbTree α) : Prop := t.color = .black ∧ ∃ n, t.Valid n

theorem valid_nil : (nil : RbTree α).Valid n ↔ n = 0 := Iff.rfl

theorem valid_fork_red :
    (fork d .red a x b).Valid n ↔
      (a.color = .black ∧ b.color = .black) ∧ a.Valid n ∧ b.Valid n := by
  cases d with
  | left => exact Iff.rfl
  | right => exact ⟨fun ⟨⟨h₁, h₂⟩, h₃, h₄⟩ => ⟨⟨h₂, h₁⟩, h₄, h₃⟩,
      fun ⟨⟨h₁, h₂⟩, h₃, h₄⟩ => ⟨⟨h₂, h₁⟩, h₄, h₃⟩⟩

theorem valid_fork_black : (fork d .black a x b).Valid (n + 1) ↔ a.Valid n ∧ b.Valid n := by
  cases d with
  | left =>
      exact ⟨fun ⟨_, hm, ha, hb⟩ => by cases hm; exact ⟨ha, hb⟩, fun h => ⟨n, rfl, h⟩⟩
  | right =>
      exact ⟨fun ⟨_, hm, hb, ha⟩ => by cases hm; exact ⟨ha, hb⟩, fun h => ⟨n, rfl, h.2, h.1⟩⟩

theorem valid_fork_up : (fork d c a x b).Valid (c.up n) ↔
    (c = .red → a.color = .black ∧ b.color = .black) ∧ a.Valid n ∧ b.Valid n := by
  cases c with
  | red => simp [Color.up, valid_fork_red]
  | black => simp [Color.up, valid_fork_black]

theorem valid_fork_black_pos (h : (fork d .black a x b).Valid n) : ∃ m, n = m + 1 := by
  cases d with
  | left => exact ⟨_, h.choose_spec.1⟩
  | right => exact ⟨_, h.choose_spec.1⟩

/-- A tree with a black node on every way down is not empty. -/
theorem Valid.eq_fork (d : Side) (h : t.Valid (n + 1)) : ∃ c a x b, t = fork d c a x b :=
  (eq_nil_or_fork d t).resolve_left fun ht => by
    rw [ht] at h
    exact absurd (valid_nil.mp h) (Nat.succ_ne_zero n)

theorem eq_black_or_red (c : Color) : c = .black ∨ c = .red := by cases c <;> simp

/-- Painting a red root black adds one to the black nodes of every way down. -/
theorem Valid.paint_black (h : t.Valid n) (hc : t.color = .red) :
    (t.paint .black).Valid (n + 1) := by
  obtain rfl | ⟨c, a, x, b, rfl⟩ := eq_nil_or_fork .left t
  · cases hc
  · rw [color_fork] at hc
    subst hc
    rw [paint_fork]
    exact valid_fork_black.mpr (valid_fork_red.mp h).2

theorem paint_of_color (h : t.color = c) : t.paint c = t := by
  cases t with
  | nil => rfl
  | node c' l x r => rw [← h]; rfl

/-! ## How high a red-black tree is -/

/-- The number of nodes on the longest way down. -/
def height : RbTree α → Nat
  | nil => 0
  | node _ l _ r => max l.height r.height + 1

theorem Valid.pow_le (h : t.Valid n) : 2 ^ n ≤ t.toList.length + 1 := by
  induction t generalizing n with
  | nil => simp [valid_nil.mp h, toList]
  | node c l x r ihl ihr =>
      cases c with
      | red =>
          have hl := ihl h.2.1
          simp only [toList, List.length_append, List.length_cons]
          omega
      | black =>
          obtain ⟨m, rfl, hl, hr⟩ := h
          have hl := ihl hl
          have hr := ihr hr
          simp only [toList, List.length_append, List.length_cons, Nat.pow_succ]
          omega

/-- No two red nodes follow each other, so at least every second node is black. -/
theorem Valid.height_le (h : t.Valid n) :
    t.height ≤ 2 * n + 1 ∧ (t.color = .black → t.height ≤ 2 * n) := by
  induction t generalizing n with
  | nil => simp [height]
  | node c l x r ihl ihr =>
      cases c with
      | red =>
          obtain ⟨⟨hcl, hcr⟩, hl, hr⟩ := h
          have hl := (ihl hl).2 hcl
          have hr := (ihr hr).2 hcr
          refine ⟨?_, fun hc => absurd hc (by simp [color])⟩
          simp only [height]
          omega
      | black =>
          obtain ⟨m, rfl, hl, hr⟩ := h
          have hl := (ihl hl).1
          have hr := (ihr hr).1
          simp only [height]
          refine ⟨?_, fun _ => ?_⟩ <;> omega

/-- **A red-black tree of `n` nodes is at most `2 lg (n + 1)` high.** -/
theorem RedBlack.height_le (h : t.RedBlack) : 2 ^ t.height ≤ (t.toList.length + 1) ^ 2 := by
  obtain ⟨hc, n, hv⟩ := h
  calc 2 ^ t.height ≤ 2 ^ (2 * n) := Nat.pow_le_pow_right (by omega) (hv.height_le.2 hc)
    _ = (2 ^ n) ^ 2 := by rw [Nat.mul_comm, Nat.pow_mul]
    _ ≤ (t.toList.length + 1) ^ 2 := Nat.pow_le_pow_left hv.pow_le 2

end RbTree

/-! ## Trees with a hole -/

/-- A node with one subtree missing: the hole is on side `side`. -/
structure Frame (α : Type) where
  side : Side
  color : Color
  elem : α
  sib : RbTree α

namespace Frame

open RbTree

variable {α : Type}

/-- Fill the hole of one frame. -/
def fill (f : Frame α) (t : RbTree α) : RbTree α := fork f.side f.color t f.elem f.sib

/-- Fill the hole of a whole context, innermost frame first. -/
def plug : List (Frame α) → RbTree α → RbTree α
  | [], t => t
  | f :: ctx, t => plug ctx (f.fill t)

/-- The node above the hole. -/
def above : List (Frame α) → Option α
  | [] => none
  | f :: _ => some f.elem

/-- The nodes left of the hole. -/
def before : List (Frame α) → List α
  | [] => []
  | ⟨.left, _, _, _⟩ :: ctx => before ctx
  | ⟨.right, _, x, sib⟩ :: ctx => before ctx ++ (sib.toList ++ [x])

/-- The nodes right of the hole. -/
def after : List (Frame α) → List α
  | [] => []
  | ⟨.left, _, x, sib⟩ :: ctx => x :: sib.toList ++ after ctx
  | ⟨.right, _, _, _⟩ :: ctx => after ctx

theorem toList_plug (ctx : List (Frame α)) (t : RbTree α) :
    (plug ctx t).toList = before ctx ++ t.toList ++ after ctx := by
  induction ctx generalizing t with
  | nil => simp [plug, before, after]
  | cons f ctx ih =>
      obtain ⟨d, c, x, sib⟩ := f
      rw [plug, ih]
      cases d <;> simp [fill, fork, toList, before, after]

theorem toList_plug_congr {ctx : List (Frame α)} {t t' : RbTree α} (h : t.toList = t'.toList) :
    (plug ctx t).toList = (plug ctx t').toList := by
  rw [toList_plug, toList_plug, h]

/-- Without repetitions, the nodes in the hole and the nodes around it are apart. -/
theorem nodup_plug {ctx : List (Frame α)} {t : RbTree α} :
    (plug ctx t).toList.Nodup ↔ t.toList.Nodup ∧ (before ctx ++ after ctx).Nodup ∧
      ∀ z ∈ t.toList, z ∉ before ctx ++ after ctx := by
  simp only [toList_plug, List.nodup_append, List.mem_append]
  grind

theorem length_le (ctx : List (Frame α)) (t : RbTree α) :
    ctx.length + t.toList.length ≤ (plug ctx t).toList.length := by
  induction ctx generalizing t with
  | nil => simp [plug]
  | cons f ctx ih =>
      have := ih (f.fill t)
      obtain ⟨d, c, x, s⟩ := f
      cases d <;> simp only [plug, fill, toList_fork, Side.seq, List.length_append,
        List.length_cons] at this ⊢ <;> omega

/-- Behind a hole whose frames all have it on side `d`, nothing is on that side. -/
theorem before_eq_nil {ctx : List (Frame α)} (h : ∀ f ∈ ctx, f.side = .left) :
    before ctx = [] := by
  induction ctx with
  | nil => rfl
  | cons f ctx ih =>
      obtain ⟨d, c, x, s⟩ := f
      obtain rfl : d = .left := h _ List.mem_cons_self
      exact ih fun f hf => h f (List.mem_cons_of_mem _ hf)

theorem after_eq_nil {ctx : List (Frame α)} (h : ∀ f ∈ ctx, f.side = .right) :
    after ctx = [] := by
  induction ctx with
  | nil => rfl
  | cons f ctx ih =>
      obtain ⟨d, c, x, s⟩ := f
      obtain rfl : d = .right := h _ List.mem_cons_self
      exact ih fun f hf => h f (List.mem_cons_of_mem _ hf)

/-- The nodes around the hole on side `d`, the nearest first. -/
def ahead (d : Side) (ctx : List (Frame α)) : List α :=
  match d with
  | .left => (before ctx).reverse
  | .right => after ctx

theorem ahead_cons_near {f : Frame α} {ctx : List (Frame α)} :
    ahead f.side (f :: ctx) = ahead f.side ctx := by
  obtain ⟨d, c, x, sib⟩ := f
  cases d <;> rfl

theorem ahead_cons_far {f : Frame α} {ctx : List (Frame α)} : ahead f.side.other (f :: ctx) =
    f.elem :: f.side.read f.sib.toList ++ ahead f.side.other ctx := by
  obtain ⟨d, c, x, sib⟩ := f
  cases d <;> simp [ahead, before, after, Side.other, Side.read]

/-- The nodes of a tree with a hole, as read from one side. -/
theorem read_plug (d : Side) (ctx : List (Frame α)) (t : RbTree α) :
    d.read (plug ctx t).toList =
      (ahead d ctx).reverse ++ (d.read t.toList ++ ahead d.other ctx) := by
  cases d <;> simp [toList_plug, ahead, Side.read, Side.other]

theorem ahead_eq_nil {d : Side} {ctx : List (Frame α)} (h : ∀ f ∈ ctx, f.side = d) :
    ahead d ctx = [] := by
  cases d with
  | left => exact List.reverse_eq_nil_iff.mpr (before_eq_nil h)
  | right => exact after_eq_nil h

theorem plug_append (ctx ctx' : List (Frame α)) (t : RbTree α) :
    plug (ctx ++ ctx') t = plug ctx' (plug ctx t) := by
  induction ctx generalizing t with
  | nil => rfl
  | cons f ctx ih => exact ih (f.fill t)

/-- Every node of a tree can be brought to the hole. -/
theorem exists_plug {t : RbTree α} {x : α} (h : x ∈ t.toList) :
    ∃ ctx c l r, t = plug ctx (.node c l x r) := by
  induction t with
  | nil => exact absurd h List.not_mem_nil
  | node c l y r ihl ihr =>
      rcases List.mem_append.mp h with h | h
      · obtain ⟨ctx, c', l', r', rfl⟩ := ihl h
        exact ⟨ctx ++ [⟨.left, c, y, r⟩], c', l', r', by rw [plug_append]; rfl⟩
      · rcases List.mem_cons.mp h with rfl | h
        · exact ⟨[], c, l, r, rfl⟩
        · obtain ⟨ctx, c', l', r', rfl⟩ := ihr h
          exact ⟨ctx ++ [⟨.right, c, y, l⟩], c', l', r', by rw [plug_append]; rfl⟩

/-- The first node from side `d` has nothing on that side. -/
theorem exists_plug_end (d : Side) {t : RbTree α} (h : t ≠ .nil) :
    ∃ ctx c x r, t = plug ctx (fork d c .nil x r) ∧ ∀ f ∈ ctx, f.side = d := by
  induction t using forkInduction d with
  | nil => exact absurd rfl h
  | fork c a x b iha _ =>
      by_cases ha : a = .nil
      · exact ⟨[], c, x, b, by rw [ha, plug], by simp⟩
      · obtain ⟨ctx, c', y, r, rfl, hs⟩ := iha ha
        refine ⟨ctx ++ [⟨d, c, x, b⟩], c', y, r, by rw [plug_append]; rfl, fun f hf => ?_⟩
        rcases List.mem_append.mp hf with hf | hf
        · exact hs f hf
        · rw [List.mem_singleton.mp hf]

/-! ## What a context demands -/

/-- There is a frame, and it is black. -/
def ParentBlack : List (Frame α) → Prop
  | [] => False
  | f :: _ => f.color = .black

/-- All of a red-black tree except what is missing in the hole, where `n` black nodes
are expected on every way down. -/
def Fits : List (Frame α) → Nat → Prop
  | [], _ => True
  | ⟨_, .red, _, sib⟩ :: ctx, n =>
      sib.Valid n ∧ sib.color = .black ∧ ParentBlack ctx ∧ Fits ctx n
  | ⟨_, .black, _, sib⟩ :: ctx, n => sib.Valid n ∧ Fits ctx (n + 1)

theorem fits_cons {f : Frame α} {ctx : List (Frame α)} {n : Nat} : Fits (f :: ctx) n ↔
    f.sib.Valid n ∧ (f.color = .red → f.sib.color = .black ∧ ParentBlack ctx) ∧
      Fits ctx (f.color.up n) := by
  obtain ⟨d, c, x, sib⟩ := f
  cases c with
  | red => simp [Fits, Color.up, and_assoc]
  | black => simp [Fits, Color.up]

/-- What a context demands does not depend on its nodes. -/
theorem Fits.change {ctx ctx' : List (Frame α)} {d d' : Side} {c : Color} {x y : α}
    {s : RbTree α} {n : Nat} (h : Fits (ctx ++ ⟨d, c, x, s⟩ :: ctx') n) :
    Fits (ctx ++ ⟨d', c, y, s⟩ :: ctx') n := by
  induction ctx generalizing n with
  | nil =>
      obtain ⟨hs, hr, hf⟩ := fits_cons.mp h
      exact fits_cons.mpr ⟨hs, hr, hf⟩
  | cons f ctx ih =>
      obtain ⟨hs, hr, hf⟩ := fits_cons.mp h
      refine fits_cons.mpr ⟨hs, fun hc => ⟨(hr hc).1, ?_⟩, ih hf⟩
      cases ctx with
      | nil => exact (hr hc).2
      | cons g ctx => exact (hr hc).2

/-- The top of a filled context is a node of the context. -/
theorem top_plug {f : Frame α} {ctx : List (Frame α)} {t : RbTree α} :
    ∃ x, (plug (f :: ctx) t).top = some x ∧ ∃ g ∈ f :: ctx, g.elem = x := by
  induction ctx generalizing f t with
  | nil => exact ⟨f.elem, by rw [plug, fill, plug, top_fork], f, List.mem_cons_self, rfl⟩
  | cons g ctx ih =>
      obtain ⟨x, hx, g', hg, rfl⟩ := ih (f := g) (t := f.fill t)
      exact ⟨g'.elem, hx, g', List.mem_cons_of_mem _ hg, rfl⟩

/-- **A tree that fits completes a red-black tree.** A red root needs a black node above. -/
theorem Fits.redBlack {ctx : List (Frame α)} {t : RbTree α} {n : Nat} (h : Fits ctx n)
    (ht : t.Valid n) (hc : t.color = .red → ParentBlack ctx) : (plug ctx t).RedBlack := by
  induction ctx generalizing t n with
  | nil => exact ⟨(eq_black_or_red t.color).resolve_right hc, n, ht⟩
  | cons f ctx ih =>
      obtain ⟨d, c, x, sib⟩ := f
      cases c with
      | red =>
          obtain ⟨hs, hsc, hp, hf⟩ := h
          have htc : t.color = .black := (eq_black_or_red t.color).resolve_right fun hr => by
            exact absurd (hc hr) (by simp [ParentBlack])
          exact ih hf (valid_fork_red.mpr ⟨⟨htc, hsc⟩, ht, hs⟩) fun _ => hp
      | black =>
          obtain ⟨hs, hf⟩ := h
          exact ih hf (valid_fork_black.mpr ⟨ht, hs⟩) fun hr => by
            rw [fill, color_fork] at hr
            cases hr

/-- Taken apart at any place, a red-black tree is a subtree that fits its context. -/
theorem exists_fits {ctx : List (Frame α)} {t : RbTree α} (h : (plug ctx t).RedBlack) :
    ∃ n, Fits ctx n ∧ t.Valid n ∧ (t.color = .red → ParentBlack ctx) := by
  induction ctx generalizing t with
  | nil =>
      obtain ⟨hc, n, hv⟩ := h
      exact ⟨n, trivial, hv, fun hr => absurd (hc.symm.trans hr) (by simp)⟩
  | cons f ctx ih =>
      obtain ⟨n, hf, hv, hc⟩ := ih h
      obtain ⟨d, c, x, sib⟩ := f
      cases c with
      | red =>
          obtain ⟨⟨htc, hsc⟩, ht, hs⟩ := valid_fork_red.mp hv
          exact ⟨n, ⟨hs, hsc, hc (by simp [fill]), hf⟩, ht,
            fun hr => absurd (htc.symm.trans hr) (by simp)⟩
      | black =>
          obtain ⟨m, rfl⟩ := valid_fork_black_pos hv
          obtain ⟨ht, hs⟩ := valid_fork_black.mp hv
          exact ⟨m, ⟨hs, hf⟩, ht, fun _ => rfl⟩

end Frame

end LibrePortable.Lib
