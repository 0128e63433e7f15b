import LibrePortable.Lib.Fuel
import LibrePortable.Sys.Tree

/-!
# What the loops compute does not depend on the fuel
-/

namespace LibrePortable.Sys

open Lib RbHeap

variable {E : Type} {cmp : E → E → Int} {m n : Nat}

theorem rbFar_below {d : Side} {h : RbHeap E} (hmn : m ≤ n) (x : E) :
    Below (rbFar d h m x) (rbFar d h n x) := by
  refine below_of_turn (f := rbFar d h) (fun _ => rfl) (fun m n ih x => ?_) hmn x
  rw [rbFar, rbFar]
  split
  · exact Below.refl _
  · exact ih _

theorem rbAugmentUp_below {h : RbHeap E} (hmn : m ≤ n) (x : E) :
    Below (rbAugmentUp h m x) (rbAugmentUp h n x) := by
  refine below_of_turn (f := rbAugmentUp h) (fun _ => rfl) (fun m n ih x => ?_) hmn x
  rw [rbAugmentUp, rbAugmentUp]
  split
  · exact Below.refl _
  · exact ih _

theorem rbMinMax_below {d : Side} {h : RbHeap E} (hmn : m ≤ n) (tmp parent : Option E) :
    Below (rbMinMax d h m tmp parent) (rbMinMax d h n tmp parent) := by
  refine below_of_turn (f := fun n (s : Option E × Option E) => rbMinMax d h n s.1 s.2)
    (fun _ => rfl) (fun m n ih s => ?_) hmn (tmp, parent)
  obtain ⟨_ | x, p⟩ := s
  · exact Below.refl _
  · exact ih (_, _)

variable [DecidableEq E]

theorem rbInsertColor_below (hmn : m ≤ n) (h : RbHeap E) (x : E) :
    Below (rbInsertColor m h x) (rbInsertColor n h x) := by
  refine below_of_turn (f := fun n (s : RbHeap E × E) => rbInsertColor n s.1 s.2)
    (fun _ => rfl) (fun m n ih s => ?_) hmn (h, x)
  simp only [rbInsertColor]
  refine .ite (.bind (.refl _) fun parent => .bind (.refl _) fun gparent => ?_) (.refl _)
  refine .ite (ih (_, _)) (.ite ?_ ?_)
  · exact .bind (.refl _) fun h => .bind (.refl _) fun h => ih (_, _)
  · exact .bind (.refl _) fun h => ih (_, _)

theorem rbRemoveColor_below (hmn : m ≤ n) (h : RbHeap E) (parent elm : Option E) :
    Below (rbRemoveColor m h parent elm) (rbRemoveColor n h parent elm) := by
  refine below_of_turn
    (f := fun n (s : RbHeap E × Option E × Option E) => rbRemoveColor n s.1 s.2.1 s.2.2)
    (fun _ => rfl) (fun m n ih s => ?_) hmn (h, parent, elm)
  simp only [rbRemoveColor]
  refine .ite (.bind (.refl _) fun parent => .bind (.refl _) fun tmp => ?_) (.refl _)
  refine .ite (.bind (.refl _) fun h => .bind (.refl _) fun tmp => ?_) ?_
  · refine .bind (.refl _) fun s => .bind (.refl _) fun turned => ?_
    split
    · exact ih (_, _, _)
    · exact .refl _
  · refine .bind (.refl _) fun s => .bind (.refl _) fun turned => ?_
    split
    · exact ih (_, _, _)
    · exact .refl _

theorem rbRemoveInner_below (hmn : m ≤ n) (h : RbHeap E) (old : E) :
    Below (rbRemoveInner m h old) (rbRemoveInner n h old) := by
  simp only [rbRemoveInner]
  refine .bind (.refl _) fun elm => .bind (rbFar_below hmn _) fun elm =>
    .bind (.refl _) fun left => ?_
  split
  · exact .bind (rbAugmentUp_below hmn _) fun _ => .refl _
  · exact .refl _

theorem rbRemove_below (hmn : m ≤ n) (h : RbHeap E) (elm : E) :
    Below (rbRemove m h elm) (rbRemove n h elm) := by
  have hcolor : ∀ s : RbHeap E × Option E × Option E × Color, Below
      (if s.2.2.2 = .black then (rbRemoveColor m s.1 s.2.1 s.2.2.1).bind fun h => some (h, elm)
        else some (s.1, elm))
      (if s.2.2.2 = .black then (rbRemoveColor n s.1 s.2.1 s.2.2.1).bind fun h => some (h, elm)
        else some (s.1, elm)) := fun s =>
    .ite (.bind (rbRemoveColor_below hmn _ _ _) fun _ => .refl _) (.refl _)
  simp only [rbRemove]
  refine .ite (.bind (.refl _) hcolor) (.ite (.bind (.refl _) hcolor) (.bind ?_ hcolor))
  exact rbRemoveInner_below hmn h elm

omit [DecidableEq E] in
theorem rbDescend_below (hmn : m ≤ n) (h : RbHeap E) (elm : E) (tmp parent : Option E)
    (comp : Int) : Below (rbDescend cmp h elm m tmp parent comp)
      (rbDescend cmp h elm n tmp parent comp) := by
  refine below_of_turn
    (f := fun n (s : Option E × Option E × Int) => rbDescend cmp h elm n s.1 s.2.1 s.2.2)
    (fun _ => rfl) (fun m n ih s => ?_) hmn (tmp, parent, comp)
  obtain ⟨_ | x, p, comp⟩ := s
  · exact .refl _
  · exact .ite (ih (_, _, _)) (.ite (ih (_, _, _)) (.refl _))

theorem rbInsert_below (hmn : m ≤ n) (h : RbHeap E) (elm : E) :
    Below (rbInsert cmp m h elm) (rbInsert cmp n h elm) := by
  refine .bind (rbDescend_below hmn h elm h.root none 0) fun s => ?_
  split
  · exact .refl _
  · exact .bind (rbInsertColor_below hmn _ _) fun _ => .refl _

omit [DecidableEq E] in
theorem rbFind_below (hmn : m ≤ n) (h : RbHeap E) (elm : E) (tmp : Option E) :
    Below (rbFind cmp h elm m tmp) (rbFind cmp h elm n tmp) := by
  refine below_of_turn (f := rbFind cmp h elm) (fun _ => rfl) (fun m n ih tmp => ?_) hmn tmp
  cases tmp with
  | none => exact .refl _
  | some x => exact .ite (ih _) (.ite (ih _) (.refl _))

omit [DecidableEq E] in
theorem rbNfind_below (hmn : m ≤ n) (h : RbHeap E) (elm : E) (tmp res : Option E) :
    Below (rbNfind cmp h elm m tmp res) (rbNfind cmp h elm n tmp res) := by
  refine below_of_turn (f := fun n (s : Option E × Option E) => rbNfind cmp h elm n s.1 s.2)
    (fun _ => rfl) (fun m n ih s => ?_) hmn (tmp, res)
  obtain ⟨_ | x, res⟩ := s
  · exact .refl _
  · exact .ite (ih (_, _)) (.ite (ih (_, _)) (.refl _))

end LibrePortable.Sys
