import LibrePortable.Sys.Tree

/-!
# The tree in the heap

`View h ctx t` says that the heap holds the tree `plug ctx t`, seen from where the
subtree `t` hangs: its nodes link to each other, their parent pointers lead back, and
the context above it leads to its top. Moving the place of view up or down is free, so
a function that works at one place is specified there, whatever is around it.
-/

namespace LibrePortable.Sys

open Lib Lib.RbTree Lib.Frame

variable {E : Type}

/-- An entry with `near` on side `d` and `far` on the other. -/
def entryOf (d : Side) (near far parent : Option E) (color : Color) : RbEntry E :=
  match d with
  | .left => ⟨near, far, parent, color⟩
  | .right => ⟨far, near, parent, color⟩

section Entries

variable (d : Side) (a b p v : Option E) (c : Color)

@[simp] theorem entryOf_other : entryOf d.other a b p c = entryOf d b a p c := by cases d <;> rfl

@[simp] theorem entryOf_parent : (entryOf d a b p c).parent = p := by cases d <;> rfl

@[simp] theorem entryOf_color : (entryOf d a b p c).color = c := by cases d <;> rfl

@[simp] theorem entryOf_child : (entryOf d a b p c).child d = a := by cases d <;> rfl

@[simp] theorem entryOf_child_other : (entryOf d a b p c).child d.other = b := by cases d <;> rfl

@[simp] theorem entryOf_setChild : (entryOf d a b p c).setChild d v = entryOf d v b p c := by
  cases d <;> rfl

@[simp] theorem entryOf_setChild_other :
    (entryOf d a b p c).setChild d.other v = entryOf d a v p c := by cases d <;> rfl

@[simp] theorem entryOf_setParent : (entryOf d a b p c).setParent v = entryOf d a b v c := by
  cases d <;> rfl

@[simp] theorem entryOf_setColor (c' : Color) :
    (entryOf d a b p c).setColor c' = entryOf d a b p c' := by cases d <;> rfl

end Entries

namespace RbHeap

/-- The nodes of `t` are linked as in `t`, and `parent` is above its top. -/
def Linked (h : RbHeap E) (parent : Option E) : RbTree E → Prop
  | .nil => True
  | .node c l x r =>
      h.entry x = ⟨l.top, r.top, parent, c⟩ ∧ h.Linked (some x) l ∧ h.Linked (some x) r

/-- The context is linked, and `v` is what it leads to. -/
def Outer (h : RbHeap E) : List (Frame E) → Option E → Prop
  | [], v => h.root = v
  | f :: ctx, v =>
      h.entry f.elem = entryOf f.side v f.sib.top (above ctx) f.color ∧
        h.Linked (some f.elem) f.sib ∧ h.Outer ctx (some f.elem)

/-- **The heap holds `t` in the context `ctx`.** -/
structure View (h : RbHeap E) (ctx : List (Frame E)) (t : RbTree E) : Prop where
  outer : h.Outer ctx t.top
  inner : h.Linked (above ctx) t
  nodup : (plug ctx t).toList.Nodup

/-- The nodes of a context. -/
def Around (ctx : List (Frame E)) (z : E) : Prop := z ∈ before ctx ∨ z ∈ after ctx

theorem around_cons {f : Frame E} {ctx : List (Frame E)} {z : E} :
    Around (f :: ctx) z ↔ z = f.elem ∨ z ∈ f.sib.toList ∨ Around ctx z := by
  obtain ⟨d, c, x, sib⟩ := f
  cases d with
  | left =>
      simp only [Around, before, after, List.mem_append, List.mem_cons]
      grind
  | right =>
      simp only [Around, before, after, List.mem_append, List.mem_cons, List.not_mem_nil]
      grind

section Views

variable {h h' : RbHeap E} {ctx : List (Frame E)} {t t' a b e : RbTree E} {d : Side} {c c' : Color}
  {x y z : E} {p v w : Option E}

theorem linked_fork : h.Linked p (fork d c a x b) ↔
    h.entry x = entryOf d a.top b.top p c ∧ h.Linked (some x) a ∧ h.Linked (some x) b := by
  cases d with
  | left => exact Iff.rfl
  | right =>
      exact ⟨fun ⟨h₁, h₂, h₃⟩ => ⟨h₁, h₃, h₂⟩, fun ⟨h₁, h₂, h₃⟩ => ⟨h₁, h₃, h₂⟩⟩

/-- The place of view can move to a parent and back. -/
theorem view_cons {f : Frame E} : h.View (f :: ctx) t ↔ h.View ctx (f.fill t) := by
  constructor
  · intro hboth
    obtain ⟨⟨he, hs, ho⟩, hi, hn⟩ := hboth
    exact ⟨by rw [fill, top_fork]; exact ho, linked_fork.mpr ⟨he, hi, hs⟩, hn⟩
  · intro hboth
    obtain ⟨ho, hi, hn⟩ := hboth
    obtain ⟨he, hi, hs⟩ := linked_fork.mp hi
    rw [fill, top_fork] at ho
    exact ⟨⟨he, hs, ho⟩, hi, hn⟩

theorem view_append {ctx' : List (Frame E)} :
    h.View (ctx ++ ctx') t ↔ h.View ctx' (plug ctx t) := by
  induction ctx generalizing t with
  | nil => exact Iff.rfl
  | cons f ctx ih => rw [List.cons_append, view_cons, ih]; rfl

theorem View.whole (hv : h.View ctx t) : h.View [] (plug ctx t) :=
  view_append.mp (by simpa using hv)

theorem View.focus (hv : h.View [] (plug ctx t)) : h.View ctx t := by
  simpa using view_append.mpr hv

/-! ## Nothing else changes -/

theorem Linked.congr (hl : h.Linked p t) (hs : ∀ z ∈ t.toList, h'.entry z = h.entry z) :
    h'.Linked p t := by
  induction t generalizing p with
  | nil => trivial
  | node c l x r ihl ihr =>
      obtain ⟨he, hl, hr⟩ := hl
      have hx : h'.entry x = h.entry x := hs x (by simp [toList])
      exact ⟨hx.trans he, ihl hl fun z hz => hs z (List.mem_append_left _ hz),
        ihr hr fun z hz => hs z (List.mem_append_right _ (List.mem_cons_of_mem _ hz))⟩

theorem Outer.congr (ho : h.Outer ctx v) (hr : h'.root = h.root)
    (hs : ∀ z, Around ctx z → h'.entry z = h.entry z) : h'.Outer ctx v := by
  induction ctx generalizing v with
  | nil => exact hr.trans ho
  | cons f ctx ih =>
      obtain ⟨he, hl, ho⟩ := ho
      refine ⟨(hs _ (around_cons.mpr (Or.inl rfl))).trans he, hl.congr fun z hz => ?_, ih ho ?_⟩
      · exact hs z (around_cons.mpr (Or.inr (Or.inl hz)))
      · exact fun z hz => hs z (around_cons.mpr (Or.inr (Or.inr hz)))

theorem around_above {f : Frame E} : Around (f :: ctx) f.elem := around_cons.mpr (Or.inl rfl)

/-- What is around a subtree is not in it. -/
theorem notMem_of_around (hn : (plug ctx t).toList.Nodup) (hz : Around ctx z) : z ∉ t.toList := by
  rw [toList_plug, List.append_assoc, List.nodup_append] at hn
  obtain ⟨-, hn', hd⟩ := hn
  intro hm
  rcases hz with hz | hz
  · exact hd z hz z (List.mem_append_left _ hm) rfl
  · exact (List.nodup_append.mp hn').2.2 z hm z hz rfl

theorem nodup_of_plug (hn : (plug ctx t).toList.Nodup) : t.toList.Nodup := by
  rw [toList_plug] at hn
  exact (List.nodup_append.mp (List.nodup_append.mp hn).1).2.1

/-- The node of the innermost frame is there once. -/
theorem frame_fresh {f : Frame E} (hn : (plug (f :: ctx) t).toList.Nodup) :
    f.elem ∉ t.toList ∧ f.elem ∉ f.sib.toList ∧ ¬ Around ctx f.elem := by
  have hfill : (plug ctx (f.fill t)).toList.Nodup := hn
  obtain ⟨⟨ht, hs⟩, -⟩ := nodup_fork.mp (nodup_of_plug hfill)
  exact ⟨ht, hs, fun ha => notMem_of_around hfill ha (mem_fork.mpr (Or.inr (Or.inl rfl)))⟩

end Views

section Writes

variable [DecidableEq E] {h : RbHeap E} {ctx : List (Frame E)} {t a b e : RbTree E} {d : Side}
  {c c' : Color} {x y z : E} {p v w : Option E}

@[simp] theorem entry_setEntry (h : RbHeap E) (x z : E) (e : RbEntry E) :
    (h.setEntry x e).entry z = if z = x then e else h.entry z := by
  simp [setEntry, Function.update_apply]

@[simp] theorem root_setEntry (h : RbHeap E) (x : E) (e : RbEntry E) :
    (h.setEntry x e).root = h.root := rfl

theorem Linked.setEntry (hl : h.Linked p t) (hx : x ∉ t.toList) (e : RbEntry E) :
    (h.setEntry x e).Linked p t :=
  hl.congr fun z hz => by
    rw [entry_setEntry, if_neg]
    intro heq
    subst heq
    exact hx hz

theorem Outer.setEntry (ho : h.Outer ctx v) (hx : ¬ Around ctx x) (e : RbEntry E) :
    (h.setEntry x e).Outer ctx v :=
  ho.congr rfl fun z hz => by
    rw [entry_setEntry, if_neg]
    intro heq
    subst heq
    exact hx hz

/-- The parent pointer of a whole subtree is that of its top. -/
theorem Linked.reparent (hl : h.Linked p t) (hn : t.toList.Nodup) (v : Option E) :
    (h.reparent t.top v).Linked v t := by
  obtain rfl | ⟨c, a, x, b, rfl⟩ := eq_nil_or_fork .left t
  · trivial
  · obtain ⟨he, ha, hb⟩ := linked_fork.mp hl
    have hx := (nodup_fork.mp hn).1
    rw [top_fork]
    refine linked_fork.mpr ⟨?_, ha.setEntry hx.1 _, hb.setEntry hx.2 _⟩
    simp [RbHeap.reparent, setParent, he]

theorem reparent_entry_of_ne (h : RbHeap E) (v : Option E) (hz : p ≠ some z) :
    (h.reparent p v).entry z = h.entry z := by
  cases p with
  | none => rfl
  | some x =>
      rw [RbHeap.reparent, setParent, entry_setEntry, if_neg]
      intro heq
      subst heq
      exact hz rfl

@[simp] theorem reparent_root (h : RbHeap E) (p v : Option E) :
    (h.reparent p v).root = h.root := by
  cases p <;> rfl

/-- The link that `replaceChild` changes is the one on the side of the hole. -/
theorem replaceChild_eq {f : Frame E} (ho : h.Outer (f :: ctx) (some x))
    (hx : x ∉ f.sib.toList) (v : Option E) :
    h.replaceChild (some f.elem) x v = h.setChild f.side f.elem v := by
  obtain ⟨he, -, -⟩ := ho
  obtain ⟨d, c, y, sib⟩ := f
  cases d with
  | left =>
      have hl : h.child .left y = some x := by rw [child, he]; rfl
      simp [RbHeap.replaceChild, hl]
  | right =>
      have hl : h.child .left y ≠ some x := by
        rw [child, he]
        exact fun ht => hx (top_mem ht)
      simp [RbHeap.replaceChild, hl]

theorem Linked.reparent_other (hl : h.Linked p t) (hd : ∀ z ∈ b.toList, z ∉ t.toList)
    (v : Option E) : (h.reparent b.top v).Linked p t :=
  hl.congr fun z hz => reparent_entry_of_ne h v fun ht => hd z (top_mem ht) hz

theorem Outer.reparent (ho : h.Outer ctx w) (hd : ∀ z ∈ b.toList, ¬ Around ctx z)
    (v : Option E) : (h.reparent b.top v).Outer ctx w :=
  ho.congr (reparent_root h _ _) fun z hz => reparent_entry_of_ne h v fun ht =>
    hd z (top_mem ht) hz

/-- Whatever the context leads to can be replaced. -/
theorem Outer.replaceChild (ho : h.Outer ctx (some x)) (hn : (plug ctx t).toList.Nodup)
    (hx : ¬ Around ctx x) (v : Option E) : (h.replaceChild (above ctx) x v).Outer ctx v := by
  cases ctx with
  | nil => rfl
  | cons f ctx =>
      have hxs : x ∉ f.sib.toList := fun hm => hx (around_cons.mpr (Or.inr (Or.inl hm)))
      obtain ⟨-, hfs, hfc⟩ := frame_fresh hn
      rw [above, replaceChild_eq ho hxs]
      obtain ⟨he, hl, ho⟩ := ho
      exact ⟨by simp [setChild, he], hl.setEntry hfs _, ho.setEntry hfc _⟩

theorem replaceChild_entry_of_ne (h : RbHeap E) (x : E) (v : Option E) (hz : p ≠ some z) :
    (h.replaceChild p x v).entry z = h.entry z := by
  cases p with
  | none => rfl
  | some y =>
      have hzy : z ≠ y := by
        intro heq
        subst heq
        exact hz rfl
      simp only [RbHeap.replaceChild]
      split <;> simp [setChild, hzy]

omit [DecidableEq E] in
/-- Nothing in the hole is above it. -/
theorem above_ne (hn : (plug ctx t).toList.Nodup) (hz : z ∈ t.toList) : above ctx ≠ some z := by
  cases ctx with
  | nil => simp [above]
  | cons f ctx =>
      intro h
      obtain rfl : f.elem = z := Option.some.inj h
      exact (frame_fresh hn).1 hz

theorem Linked.replaceChild (hl : h.Linked p t) (hn : (plug ctx b).toList.Nodup)
    (ht : ∀ z ∈ t.toList, z ∈ b.toList) (x : E) (v : Option E) :
    (h.replaceChild (above ctx) x v).Linked p t :=
  hl.congr fun z hz => replaceChild_entry_of_ne h x v (above_ne hn (ht z hz))

/-! ## What the operations do to a view -/

/-- A node gets another colour. -/
theorem View.setColor (hv : h.View ctx (fork d c a x b)) (c' : Color) :
    (h.setColor x c').View ctx (fork d c' a x b) := by
  obtain ⟨ho, hi, hn⟩ := hv
  obtain ⟨he, ha, hb⟩ := linked_fork.mp hi
  obtain ⟨⟨hxa, hxb⟩, -⟩ := nodup_fork.mp (nodup_of_plug hn)
  have hx : ¬ Around ctx x := fun hx => notMem_of_around hn hx (mem_fork.mpr (Or.inr (Or.inl rfl)))
  rw [top_fork] at ho
  refine ⟨by rw [top_fork]; exact ho.setEntry hx _,
    linked_fork.mpr ⟨?_, ha.setEntry hxa _, hb.setEntry hxb _⟩, ?_⟩
  · simp [RbHeap.setColor, he]
  · have hl : (fork d c' a x b).toList = (fork d c a x b).toList := by simp
    rw [toList_plug_congr hl]
    exact hn

/-- **A rotation.** The node `x` goes down on side `d`, and its child `y` on the other
side takes its place. -/
theorem View.rotate (hv : h.View ctx (fork d c a x (fork d c' b y e))) :
    ∃ h', rbRotate d h x = some h' ∧ h'.View ctx (fork d c' (fork d c a x b) y e) := by
  obtain ⟨ho, hi, hn⟩ := hv
  obtain ⟨hex, ha, hyt⟩ := linked_fork.mp hi
  obtain ⟨hey, hb, he⟩ := linked_fork.mp hyt
  obtain ⟨⟨hxa, hxy⟩, ⟨hna, hny⟩, hda⟩ := nodup_fork.mp (nodup_of_plug hn)
  obtain ⟨⟨hyb, hye⟩, ⟨hnb, hne⟩, hdb⟩ := nodup_fork.mp hny
  have hxy' : x ≠ y := fun hxy' => hxy (mem_fork.mpr (Or.inr (Or.inl hxy')))
  have hxb : x ∉ b.toList := fun hm => hxy (mem_fork.mpr (Or.inl hm))
  have hxe : x ∉ e.toList := fun hm => hxy (mem_fork.mpr (Or.inr (Or.inr hm)))
  have hya : y ∉ a.toList := fun hm => hda y hm (mem_fork.mpr (Or.inr (Or.inl rfl)))
  have hout : ∀ z ∈ (fork d c a x (fork d c' b y e)).toList, ¬ Around ctx z :=
    fun z hz hz' => notMem_of_around hn hz' hz
  have hox := hout x (mem_fork.mpr (Or.inr (Or.inl rfl)))
  have hoy := hout y (by simp)
  have hob : ∀ z ∈ b.toList, ¬ Around ctx z := fun z hz => hout z (by simp [hz])
  have hba : ∀ z ∈ b.toList, z ∉ a.toList := fun z hz hza => hda z hza (mem_fork.mpr (Or.inl hz))
  have hbx : b.top ≠ some x := fun ht => hxb (top_mem ht)
  have hby : b.top ≠ some y := fun ht => hyb (top_mem ht)
  have hax : above ctx ≠ some x := above_ne hn (by simp)
  have hay : above ctx ≠ some y := above_ne hn (by simp)
  have hcx : h.child d.other x = some y := by simp [child, hex]
  have hcy : h.child d y = b.top := by simp [child, hey]
  rw [top_fork] at ho
  -- `x` takes over the subtree `b`
  let h₁ := h.setChild d.other x b.top
  have hex₁ : h₁.entry x = entryOf d a.top b.top (above ctx) c := by simp [h₁, setChild, hex]
  have hey₁ : h₁.entry y = entryOf d b.top e.top (some x) c' := by
    simp [h₁, setChild, hxy'.symm, hey]
  let h₂ := h₁.reparent b.top (some x)
  have hex₂ : h₂.entry x = entryOf d a.top b.top (above ctx) c :=
    (reparent_entry_of_ne h₁ _ hbx).trans hex₁
  have hey₂ : h₂.entry y = entryOf d b.top e.top (some x) c' :=
    (reparent_entry_of_ne h₁ _ hby).trans hey₁
  have ha₂ : h₂.Linked (some x) a := (ha.setEntry hxa _).reparent_other hba _
  have hb₂ : h₂.Linked (some x) b := (hb.setEntry hxb _).reparent hnb _
  have he₂ : h₂.Linked (some y) e := (he.setEntry hxe _).reparent_other hdb _
  have ho₂ : h₂.Outer ctx (some x) := (ho.setEntry hox _).reparent hob _
  -- what was above `x` leads to `y`
  let h₃ := h₂.setParent y (above ctx)
  have hex₃ : h₃.entry x = entryOf d a.top b.top (above ctx) c := by
    simp [h₃, setParent, hxy', hex₂]
  have hey₃ : h₃.entry y = entryOf d b.top e.top (above ctx) c' := by
    simp [h₃, setParent, hey₂]
  let h₄ := h₃.replaceChild (above ctx) x (some y)
  have hex₄ : h₄.entry x = entryOf d a.top b.top (above ctx) c :=
    (replaceChild_entry_of_ne h₃ x _ hax).trans hex₃
  have hey₄ : h₄.entry y = entryOf d b.top e.top (above ctx) c' :=
    (replaceChild_entry_of_ne h₃ x _ hay).trans hey₃
  have ha₄ : h₄.Linked (some x) a :=
    (ha₂.setEntry hya _).replaceChild hn (fun z hz => by simp [hz]) x _
  have hb₄ : h₄.Linked (some x) b :=
    (hb₂.setEntry hyb _).replaceChild hn (fun z hz => by simp [hz]) x _
  have he₄ : h₄.Linked (some y) e :=
    (he₂.setEntry hye _).replaceChild hn (fun z hz => by simp [hz]) x _
  have ho₄ : h₄.Outer ctx (some y) := (ho₂.setEntry hoy _).replaceChild hn hox _
  -- `x` hangs below `y`
  let h₅ := h₄.setChild d y (some x)
  let h₆ := h₅.setParent x (some y)
  refine ⟨h₆, ?_, ⟨?_, linked_fork.mpr ⟨?_, linked_fork.mpr ⟨?_, ?_, ?_⟩, ?_⟩, ?_⟩⟩
  · have hc₁ : h₁.child d y = b.top := by simp [child, hey₁]
    have hp₂ : h₂.parent x = above ctx := by simp [parent, hex₂]
    have hp₃ : h₃.parent x = above ctx := by simp [parent, hex₃]
    simp only [rbRotate, hcx, hcy, Option.bind_eq_bind, Option.bind_some]
    rw [hc₁, hp₂, hp₃]
    rfl
  · rw [top_fork]
    exact (ho₄.setEntry hoy _).setEntry hox _
  · simp [h₆, h₅, setParent, setChild, hxy'.symm, hey₄]
  · simp [h₆, h₅, setParent, setChild, hxy', hex₄]
  · exact (ha₄.setEntry hya _).setEntry hxa _
  · exact (hb₄.setEntry hyb _).setEntry hxb _
  · exact (he₄.setEntry hye _).setEntry hxe _
  · have hl : (fork d c' (fork d c a x b) y e).toList =
        (fork d c a x (fork d c' b y e)).toList := by simp
    rw [toList_plug_congr hl]
    exact hn

/-- **A node with one child is taken out**, and keeps its entry. -/
theorem View.unlink (hv : h.View ctx (fork d c t x .nil)) :
    (rbUnlink h x t.top).View ctx t ∧ (rbUnlink h x t.top).entry x = h.entry x ∧
      x ∉ (plug ctx t).toList := by
  obtain ⟨ho, hi, hn⟩ := hv
  obtain ⟨he, ht, -⟩ := linked_fork.mp hi
  obtain ⟨⟨hxt, -⟩, ⟨hnt, -⟩, -⟩ := nodup_fork.mp (nodup_of_plug hn)
  have hout : ∀ z ∈ t.toList, ¬ Around ctx z := fun z hz hz' =>
    notMem_of_around hn hz' (mem_fork.mpr (Or.inl hz))
  have hox : ¬ Around ctx x := fun hz' =>
    notMem_of_around hn hz' (mem_fork.mpr (Or.inr (Or.inl rfl)))
  have hp : h.parent x = above ctx := by simp [parent, he]
  have htx : t.top ≠ some x := fun h => hxt (top_mem h)
  have hax : above ctx ≠ some x := above_ne hn (by simp)
  rw [top_fork] at ho
  simp only [rbUnlink, hp]
  refine ⟨⟨?_, ?_, ?_⟩, ?_, ?_⟩
  · exact (ho.reparent hout _).replaceChild hn hox _
  · exact (ht.reparent hnt _).replaceChild hn (fun z hz => mem_fork.mpr (Or.inl hz)) x _
  · obtain ⟨-, hc, hd⟩ := nodup_plug.mp hn
    exact nodup_plug.mpr ⟨hnt, hc, fun z hz => hd z (mem_fork.mpr (Or.inl hz))⟩
  · rw [replaceChild_entry_of_ne _ _ _ hax, reparent_entry_of_ne _ _ htx]
  · rw [toList_plug, List.mem_append, List.mem_append]
    intro hcase
    rcases hcase with (hm | hm) | hm
    · exact hox (Or.inl hm)
    · exact hxt hm
    · exact hox (Or.inr hm)

/-- **A node is replaced by a fresh one** in its place, with its colour and children. -/
theorem View.replace (hv : h.View ctx (fork d c a x b))
    (hz : z ∉ (plug ctx (fork d c a x b)).toList) :
    ((((h.setEntry z (h.entry x)).replaceChild (above ctx) x (some z)).reparent a.top
      (some z)).reparent b.top (some z)).View ctx (fork d c a z b) := by
  obtain ⟨ho, hi, hn⟩ := hv
  obtain ⟨he, ha, hb⟩ := linked_fork.mp hi
  obtain ⟨⟨hxa, hxb⟩, ⟨hna, hnb⟩, hdis⟩ := nodup_fork.mp (nodup_of_plug hn)
  simp only [toList_plug, List.mem_append, mem_fork, not_or] at hz
  obtain ⟨⟨hzb', hza, hzx, hzb⟩, hza'⟩ := hz
  have hoz : ¬ Around ctx z := not_or.mpr ⟨hzb', hza'⟩
  have hout : ∀ w ∈ (fork d c a x b).toList, ¬ Around ctx w := fun w hw hw' =>
    notMem_of_around hn hw' hw
  have hox := hout x (mem_fork.mpr (Or.inr (Or.inl rfl)))
  have hoa : ∀ w ∈ a.toList, ¬ Around ctx w := fun w hw => hout w (mem_fork.mpr (Or.inl hw))
  have hob : ∀ w ∈ b.toList, ¬ Around ctx w := fun w hw =>
    hout w (mem_fork.mpr (Or.inr (Or.inr hw)))
  have haz : above ctx ≠ some z := by
    cases ctx with
    | nil => simp [above]
    | cons f ctx =>
        intro hf
        obtain rfl : f.elem = z := Option.some.inj hf
        exact hoz around_above
  have htz : a.top ≠ some z := fun ht => hza (top_mem ht)
  have hbz : b.top ≠ some z := fun ht => hzb (top_mem ht)
  rw [top_fork] at ho
  refine ⟨?_, linked_fork.mpr ⟨?_, ?_, ?_⟩, ?_⟩
  · rw [top_fork]
    exact (((ho.setEntry hoz _).replaceChild hn hox _).reparent hoa _).reparent hob _
  · rw [reparent_entry_of_ne _ _ hbz, reparent_entry_of_ne _ _ htz,
      replaceChild_entry_of_ne _ _ _ haz, entry_setEntry, if_pos rfl, he]
  · have h₁ := (ha.setEntry hza (h.entry x)).replaceChild hn
      (fun w hw => mem_fork.mpr (Or.inl hw)) x (some z)
    exact (h₁.reparent hna _).reparent_other (fun w hw hw' => hdis w hw' hw) _
  · have h₁ := (hb.setEntry hzb (h.entry x)).replaceChild hn
      (fun w hw => mem_fork.mpr (Or.inr (Or.inr hw))) x (some z)
    exact (h₁.reparent_other hdis _).reparent hnb _
  · obtain ⟨-, hc, hd⟩ := nodup_plug.mp hn
    refine nodup_plug.mpr ⟨nodup_fork.mpr ⟨⟨hza, hzb⟩, ⟨hna, hnb⟩, hdis⟩, hc, fun w hw => ?_⟩
    rcases mem_fork.mp hw with hw | rfl | hw
    · exact hd w (mem_fork.mpr (Or.inl hw))
    · exact fun hm => hoz (List.mem_append.mp hm)
    · exact hd w (mem_fork.mpr (Or.inr (Or.inr hw)))

/-- Make the context lead to `x`. -/
def hang (h : RbHeap E) (ctx : List (Frame E)) (x : E) : RbHeap E :=
  match ctx with
  | [] => h.setRoot (some x)
  | f :: _ => h.setChild f.side f.elem (some x)

/-- **A fresh red node is hung into an empty place.** -/
theorem View.attach (hv : h.View ctx .nil) (hx : x ∉ (plug ctx .nil).toList) :
    ((rbSet h x (above ctx)).hang ctx x).View ctx (fork .left .red .nil x .nil) := by
  obtain ⟨ho, -, hn⟩ := hv
  simp only [toList_plug, List.mem_append, toList, List.not_mem_nil, or_false] at hx
  have hox : ¬ Around ctx x := hx
  have hn' : (plug ctx (fork .left .red .nil x .nil)).toList.Nodup := by
    refine nodup_plug.mpr ⟨by simp [fork, toList], (nodup_plug.mp hn).2.1, fun w hw hm => ?_⟩
    obtain rfl : w = x := by simpa [fork, toList] using hw
    exact hox (List.mem_append.mp hm)
  have hax : above ctx ≠ some x := above_ne hn' (by simp)
  have ho' := ho.setEntry hox ⟨none, none, above ctx, .red⟩
  cases ctx with
  | nil =>
      refine ⟨rfl, linked_fork.mpr ⟨?_, trivial, trivial⟩, hn'⟩
      simp [hang, rbSet, setRoot, entryOf, top, above]
  | cons f ctx =>
      have hfx : x ≠ f.elem := fun hf => hax (congrArg some hf.symm)
      obtain ⟨-, hfs, hfc⟩ := frame_fresh hn'
      obtain ⟨he, hl, ho'⟩ := ho'
      refine ⟨⟨?_, hl.setEntry hfs _, ho'.setEntry hfc _⟩,
        linked_fork.mpr ⟨?_, trivial, trivial⟩, hn'⟩
      · simp only [entry_setEntry] at he
        simp [hang, rbSet, setChild, he]
      · simp [hang, rbSet, setChild, hfx, entryOf, top]

end Writes

end RbHeap

end LibrePortable.Sys
