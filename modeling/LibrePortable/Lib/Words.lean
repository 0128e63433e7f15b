import Mathlib.Data.List.Range

/-!
# Words and their bytes

A word is stored in memory as bytes, from its low end or from its high end. Everything
here is about the bytes by their place, counted from the low end: two words are the same
if their bytes are, masks and shifts move bytes from place to place, and the order in
memory is only the order in which the places are written down.
-/

namespace LibrePortable.Lib.Words

abbrev Byte := BitVec 8

/-- Which end of a word comes first in memory. -/
inductive ByteOrder where
  | little
  | big
  deriving DecidableEq, Repr

variable {w : Nat}

/-- The byte of a word at place `k`. -/
def byte (x : BitVec w) (k : Nat) : Byte := x.extractLsb' (8 * k) 8

/-- The word that has the byte `b` at place `k`, and else zeros. -/
def placed (w k : Nat) (b : Byte) : BitVec w := b.setWidth w <<< (8 * k)

/-- The bytes of a word in memory. -/
def stored (o : ByteOrder) (x : BitVec w) : List Byte :=
  let bytes := (List.range (w / 8)).map (byte x)
  match o with
  | .little => bytes
  | .big => bytes.reverse

/-- The word with these bytes from place `k` on. -/
def ofBytes (w : Nat) : Nat → List Byte → BitVec w
  | _, [] => 0#w
  | k, b :: bytes => placed w k b ||| ofBytes w (k + 1) bytes

/-- The word that is read from memory. -/
def loaded (w : Nat) (o : ByteOrder) (bytes : List Byte) : BitVec w :=
  match o with
  | .little => ofBytes w 0 bytes
  | .big => ofBytes w 0 bytes.reverse

/-- The word with the bytes in the opposite order. -/
def byteSwap (x : BitVec w) : BitVec w := loaded w .big (stored .little x)

/-! ## Bytes by their place -/

section Places

variable {x y : BitVec w} {b : Byte} {i j k n : Nat}

theorem getLsbD_byte (x : BitVec w) (k i : Nat) :
    (byte x k).getLsbD i = (decide (i < 8) && x.getLsbD (8 * k + i)) :=
  BitVec.getLsbD_extractLsb' ..

theorem getLsbD_placed (w k : Nat) (b : Byte) (i : Nat) :
    (placed w k b).getLsbD i =
      (decide (i < w) && !decide (i < 8 * k) && b.getLsbD (i - 8 * k)) := by
  rw [placed, BitVec.getLsbD_shiftLeft, BitVec.getLsbD_setWidth]
  by_cases hi : i < w
  · simp [hi, Nat.lt_of_le_of_lt (Nat.sub_le i (8 * k)) hi]
  · simp [hi]

/-- **A word is its bytes.** -/
theorem eq_of_byte_eq (hw : 8 ∣ w) (h : ∀ k < w / 8, byte x k = byte y k) : x = y := by
  refine BitVec.eq_of_getLsbD_eq fun i hi => ?_
  have hplace : i / 8 < w / 8 := by omega
  have hbit := congrArg (BitVec.getLsbD · (i % 8)) (h (i / 8) hplace)
  have hmod : i % 8 < 8 := Nat.mod_lt i (by decide)
  simp only [getLsbD_byte, hmod, decide_true, Bool.true_and, Nat.div_add_mod] at hbit
  exact hbit

theorem byte_or (x y : BitVec w) (k : Nat) : byte (x ||| y) k = byte x k ||| byte y k :=
  BitVec.extractLsb'_or

theorem byte_zero (w k : Nat) : byte 0#w k = 0#8 := BitVec.extractLsb'_zero

theorem byte_placed (b : Byte) (hk : k < w / 8) :
    byte (placed w j b) k = if k = j then b else 0#8 := by
  refine BitVec.eq_of_getLsbD_eq fun i hi => ?_
  rw [getLsbD_byte, getLsbD_placed]
  have hin : 8 * k + i < w := by omega
  split
  · next heq =>
      subst heq
      simp [hi, hin]
  · next hne =>
      rcases Nat.lt_or_gt_of_ne hne with hlt | hgt
      · have hlow : 8 * k + i < 8 * j := by omega
        simp [hlow]
      · have hhigh : 8 ≤ 8 * k + i - 8 * j := by omega
        simp [BitVec.getLsbD_of_ge b _ hhigh]

theorem byte_ofBytes (hk : k < w / 8) : ∀ (i : Nat) (bytes : List Byte),
    byte (ofBytes w i bytes) k = if i ≤ k then bytes[k - i]?.getD 0#8 else 0#8 := by
  intro i bytes
  induction bytes generalizing i with
  | nil => simp [ofBytes, byte_zero]
  | cons b bytes ih =>
      rw [ofBytes, byte_or, byte_placed b hk, ih]
      rcases Nat.lt_trichotomy k i with hlt | rfl | hgt
      · rw [if_neg (by omega), if_neg (by omega), if_neg (by omega), BitVec.or_zero]
      · rw [if_pos rfl, if_neg (by omega), if_pos (Nat.le_refl k), Nat.sub_self, BitVec.or_zero]
        rfl
      · obtain ⟨m, rfl⟩ : ∃ m, k = i + 1 + m := ⟨k - (i + 1), by omega⟩
        rw [if_neg (by omega), if_pos (by omega), if_pos (by omega), BitVec.zero_or,
          Nat.add_sub_cancel_left, show i + 1 + m - i = m + 1 by omega, List.getElem?_cons_succ]

/-! ## Masks, shifts and halves -/

/-- The mask of one place leaves its byte. -/
theorem and_mask (x : BitVec w) (k : Nat) : x &&& placed w k 0xFF#8 = placed w k (byte x k) := by
  refine BitVec.eq_of_getLsbD_eq fun i hi => ?_
  rw [BitVec.getLsbD_and, getLsbD_placed, getLsbD_placed, getLsbD_byte]
  by_cases hlow : i < 8 * k
  · simp [hlow]
  · by_cases hin : i - 8 * k < 8
    · have hones : (0xFF#8).getLsbD (i - 8 * k) = true := by
        rw [show 0xFF#8 = BitVec.allOnes 8 from rfl, BitVec.getLsbD_allOnes]
        exact decide_eq_true hin
      have hpos : 8 * k + (i - 8 * k) = i := by omega
      simp [hi, hlow, hin, hones, hpos]
    · have hzero : (0xFF#8).getLsbD (i - 8 * k) = false :=
        BitVec.getLsbD_of_ge _ _ (Nat.le_of_not_lt hin)
      simp [hin, hzero]

theorem placed_shiftLeft (h : 8 * i + n = 8 * j) : placed w i b <<< n = placed w j b := by
  rw [placed, placed, ← BitVec.shiftLeft_add, h]

theorem placed_ushiftRight (hi : i < w / 8) (h : 8 * j + n = 8 * i) :
    placed w i b >>> n = placed w j b := by
  refine BitVec.eq_of_getLsbD_eq fun m hm => ?_
  rw [BitVec.getLsbD_ushiftRight, getLsbD_placed, getLsbD_placed]
  have hpos : n + m - 8 * i = m - 8 * j := by omega
  have hlow : n + m < 8 * i ↔ m < 8 * j := by omega
  simp only [hpos, hlow]
  by_cases hin : n + m < w
  · simp [hin, hm]
  · have hhigh : 8 ≤ m - 8 * j := by omega
    simp [BitVec.getLsbD_of_ge b _ hhigh]

/-- A masked byte moves up. -/
theorem masked_shiftLeft {mask : BitVec w} (hmask : mask = placed w i 0xFF#8)
    (h : 8 * i + n = 8 * j) : (x &&& mask) <<< n = placed w j (byte x i) := by
  rw [hmask, and_mask, placed_shiftLeft h]

/-- A masked byte moves down. -/
theorem masked_ushiftRight {mask : BitVec w} (hmask : mask = placed w i 0xFF#8) (hi : i < w / 8)
    (h : 8 * j + n = 8 * i) : (x &&& mask) >>> n = placed w j (byte x i) := by
  rw [hmask, and_mask, placed_ushiftRight hi h]

/-- At the top there is room for one byte only. -/
theorem shiftLeft_top (hw : w = 8 * j + 8) (hn : n = 8 * j) (x : BitVec w) :
    x <<< n = placed w j (byte x 0) := by
  subst hn
  refine BitVec.eq_of_getLsbD_eq fun m hm => ?_
  rw [BitVec.getLsbD_shiftLeft, getLsbD_placed, getLsbD_byte, Nat.mul_zero, Nat.zero_add]
  have hin : m - 8 * j < 8 := by omega
  simp [hin]

/-- and only the byte at the top comes down to the bottom. -/
theorem ushiftRight_top (hw : w = 8 * j + 8) (hn : n = 8 * j) (x : BitVec w) :
    x >>> n = placed w 0 (byte x j) := by
  subst hn
  refine BitVec.eq_of_getLsbD_eq fun m hm => ?_
  rw [BitVec.getLsbD_ushiftRight, getLsbD_placed, getLsbD_byte, Nat.mul_zero, Nat.sub_zero]
  by_cases hin : m < 8
  · simp [hin, hm]
  · have hhigh : w ≤ 8 * j + m := by omega
    simp [hin, BitVec.getLsbD_of_ge x _ hhigh]

/-- What the cast to one byte leaves. -/
theorem setWidth_ushiftRight (x : BitVec w) (k : Nat) : (x >>> (8 * k)).setWidth 8 = byte x k := by
  refine BitVec.eq_of_getLsbD_eq fun m hm => ?_
  rw [BitVec.getLsbD_setWidth, BitVec.getLsbD_ushiftRight, getLsbD_byte]

/-- A word is its high part and its low part. -/
theorem append_setWidth {v : Nat} (x : BitVec (w + v)) :
    (x >>> v).setWidth w ++ x.setWidth v = x := by
  refine BitVec.eq_of_getLsbD_eq fun i hi => ?_
  rw [BitVec.getLsbD_append]
  split
  · next hlt => simp [hlt]
  · next hge =>
      have hin : i - v < w := by omega
      have hpos : v + (i - v) = i := by omega
      simp [hin, hpos]

theorem setWidth_or {v : Nat} (x : BitVec w) (y : BitVec v) :
    x.setWidth (w + v) <<< v ||| y.setWidth (w + v) = x ++ y := by
  refine BitVec.eq_of_getLsbD_eq fun i hi => ?_
  rw [BitVec.getLsbD_append, BitVec.getLsbD_or, BitVec.getLsbD_shiftLeft, BitVec.getLsbD_setWidth,
    BitVec.getLsbD_setWidth]
  split
  · next hlt => simp [hlt, hi]
  · next hge =>
      have hin : i - v < w + v := by omega
      simp [hge, hi, hin, BitVec.getLsbD_of_ge y i (Nat.le_of_not_lt hge)]

theorem byte_append {v : Nat} (hv : 8 ∣ v) (x : BitVec w) (y : BitVec v) (k : Nat) :
    byte (x ++ y) k = if k < v / 8 then byte y k else byte x (k - v / 8) := by
  refine BitVec.eq_of_getLsbD_eq fun i hi => ?_
  split
  · next hlt =>
      have hin : 8 * k + i < v := by omega
      rw [getLsbD_byte, getLsbD_byte, BitVec.getLsbD_append, if_pos hin]
  · next hge =>
      have hout : ¬ 8 * k + i < v := by omega
      have hpos : 8 * k + i - v = 8 * (k - v / 8) + i := by omega
      rw [getLsbD_byte, getLsbD_byte, BitVec.getLsbD_append, if_neg hout, hpos]

end Places

/-! ## Memory -/

section Memory

variable {x y : BitVec w} {o : ByteOrder} {bytes : List Byte}

theorem stored_inj (hw : 8 ∣ w) (h : stored o x = stored o y) : x = y := by
  have hbytes : (List.range (w / 8)).map (byte x) = (List.range (w / 8)).map (byte y) := by
    cases o with
    | little => exact h
    | big => exact List.reverse_injective h
  exact eq_of_byte_eq hw fun k hk => List.map_inj_left.mp hbytes k (List.mem_range.mpr hk)

/-- What is read and stored again is what there was. -/
theorem stored_loaded (hlen : bytes.length = w / 8) : stored o (loaded w o bytes) = bytes := by
  have hlow : ∀ l : List Byte, l.length = w / 8 →
      (List.range (w / 8)).map (byte (ofBytes w 0 l)) = l := by
    intro l hl
    refine List.ext_getElem (by simp [hl]) fun k hk hk' => ?_
    rw [List.getElem_map, List.getElem_range, byte_ofBytes (by omega), if_pos (Nat.zero_le k),
      Nat.sub_zero, List.getElem?_eq_getElem hk', Option.getD_some]
  cases o with
  | little => exact hlow bytes hlen
  | big =>
      show ((List.range (w / 8)).map (byte (ofBytes w 0 bytes.reverse))).reverse = bytes
      rw [hlow _ (by rw [List.length_reverse, hlen]), List.reverse_reverse]

theorem length_stored (o : ByteOrder) (x : BitVec w) : (stored o x).length = w / 8 := by
  cases o <;> simp [stored]

theorem stored_big (x : BitVec w) : stored .big x = (stored .little x).reverse := rfl

/-- **The swapped word** lies in memory from its other end. -/
theorem stored_byteSwap (x : BitVec w) : stored .big (byteSwap x) = stored .little x :=
  stored_loaded (length_stored .little x)

theorem eq_byteSwap (hw : 8 ∣ w) (h : stored .big y = stored .little x) : y = byteSwap x :=
  stored_inj hw (h.trans (stored_byteSwap x).symm)

/-- One word in one order and another one in the other, either way. -/
theorem stored_comm {o' : ByteOrder} (h : stored o x = stored o' y) : stored o' x = stored o y := by
  cases o <;> cases o' <;> first | exact h | skip
  · rw [stored_big, h, stored_big, List.reverse_reverse]
  · rw [stored_big, ← h, stored_big, List.reverse_reverse]

/-- The low part comes first from the low end. -/
theorem stored_append {v : Nat} (hw : 8 ∣ w) (hv : 8 ∣ v) (x : BitVec w) (y : BitVec v) :
    stored .little (x ++ y) = stored .little y ++ stored .little x := by
  have hlen : (w + v) / 8 = v / 8 + w / 8 := by omega
  show (List.range ((w + v) / 8)).map (byte (x ++ y)) =
    (List.range (v / 8)).map (byte y) ++ (List.range (w / 8)).map (byte x)
  rw [hlen, List.range_add, List.map_append, List.map_map]
  refine congrArg₂ (· ++ ·) (List.map_congr_left fun k hk => ?_)
    (List.map_congr_left fun k _ => ?_)
  · rw [byte_append hv, if_pos (List.mem_range.mp hk)]
  · show byte (x ++ y) (v / 8 + k) = _
    rw [byte_append hv, if_neg (by omega), Nat.add_sub_cancel_left]

/-- and the high part from the high end. -/
theorem stored_append_big {v : Nat} (hw : 8 ∣ w) (hv : 8 ∣ v) (x : BitVec w) (y : BitVec v) :
    stored .big (x ++ y) = stored .big x ++ stored .big y := by
  rw [stored_big, stored_append hw hv, List.reverse_append, stored_big, stored_big]

end Memory

/-! ## Conversions -/

/-- `hto` and `toh` convert to the byte order `o` and back, on a host with the byte order
`host`. -/
structure Converts (host o : ByteOrder) (hto toh : BitVec w → BitVec w) : Prop where
  /-- What has been converted lies in memory in the order `o`. -/
  writes : ∀ x, stored host (hto x) = stored o x
  /-- What lies in memory in the order `o` is read. -/
  reads : ∀ x, stored o (toh x) = stored host x
  undo : ∀ x, toh (hto x) = x
  redo : ∀ x, hto (toh x) = x

section Conversions

variable {host o : ByteOrder} {hto toh : BitVec w → BitVec w}

/-- **The order in memory decides**: conversions that are right there undo each other. -/
theorem Converts.of_memory (hw : 8 ∣ w) (hwrites : ∀ x, stored host (hto x) = stored o x)
    (hreads : ∀ x, stored o (toh x) = stored host x) : Converts host o hto toh where
  writes := hwrites
  reads := hreads
  undo x := stored_inj hw ((hreads (hto x)).trans (hwrites x))
  redo x := stored_inj hw ((hwrites (toh x)).trans (hreads x))

theorem Converts.same (o : ByteOrder) : Converts o o (fun x : BitVec w => x) fun x => x :=
  ⟨fun _ => rfl, fun _ => rfl, fun _ => rfl, fun _ => rfl⟩

/-- Swapping converts between the two orders. -/
theorem Converts.of_byteSwap (hw : 8 ∣ w) (hhto : ∀ x, hto x = byteSwap x)
    (htoh : ∀ x, toh x = byteSwap x) : Converts .big .little hto toh :=
  .of_memory hw (fun x => by rw [hhto]; exact stored_byteSwap x)
    fun x => by rw [htoh]; exact stored_comm (stored_byteSwap x)

/-- The network is big endian; on the way there and on the way back, the same is done. -/
theorem Converts.of_network (hw : 8 ∣ w) (hhto : ∀ x, stored .big (hto x) = stored host x)
    (htoh : ∀ x, stored .big (toh x) = stored host x) : Converts host .big hto toh :=
  .of_memory hw (fun x => stored_comm (hhto x)) htoh

end Conversions

end LibrePortable.Lib.Words
