import LibrePortable.Lib.Words

/-!
# Byte orders

The conversions that `include/compat/endian.h` writes out itself: those of AIX, which is
big endian, and those of Windows where there is no `endian.h`. On AIX a word is reversed
in three ways, with masks and shifts in a function and in a macro, and byte by byte where
the compiler does not tell the byte order. On Windows the 16 and 32 bit conversions are
those of Winsock, and the 64 bit ones are two of 32 bits with the halves exchanged.

Every conversion of the network order or of the opposite one is right if what it gives
lies in memory as it should. That the conversions undo each other follows.
-/

namespace LibrePortable.Sys

open Lib.Words

/-! ## AIX -/

namespace Aix

/-- `val.bytes`, as `htole64` fills it. -/
def valBytes (x : BitVec 64) : List Byte :=
  [x.setWidth 8, (x >>> 8).setWidth 8, (x >>> 16).setWidth 8, (x >>> 24).setWidth 8,
    (x >>> 32).setWidth 8, (x >>> 40).setWidth 8, (x >>> 48).setWidth 8, (x >>> 56).setWidth 8]

/-- `htole64`. `byteOrder` is `__BYTE_ORDER__`, if the compiler defines it, and `host` is the order
in which the union is read. -/
def htole64 (byteOrder : Option ByteOrder) (host : ByteOrder) (x : BitVec 64) : BitVec 64 :=
  match byteOrder with
  | some .little => x
  | some .big =>
      (x <<< 56) |||
      ((x &&& 0xFF00#64) <<< 40) |||
      ((x &&& 0xFF0000#64) <<< 24) |||
      ((x &&& 0xFF000000#64) <<< 8) |||
      ((x &&& 0xFF00000000#64) >>> 8) |||
      ((x &&& 0xFF0000000000#64) >>> 24) |||
      ((x &&& 0xFF000000000000#64) >>> 40) |||
      (x >>> 56)
  | none => loaded 64 host (valBytes x)

def be64toh (x : BitVec 64) : BitVec 64 := x

def be32toh (x : BitVec 32) : BitVec 32 := x

def be16toh (x : BitVec 16) : BitVec 16 := x

def le32toh (x : BitVec 32) : BitVec 32 :=
  ((x &&& 0xff#32) <<< 24) |||
  ((x &&& 0xff00#32) <<< 8) |||
  ((x &&& 0xff0000#32) >>> 8) |||
  ((x &&& 0xff000000#32) >>> 24)

/-- `le64toh`. A constant in hexadecimal is not negative, whatever type it has, so that the mask in
64 bits is the one that is written. -/
def le64toh (x : BitVec 64) : BitVec 64 :=
  ((x &&& 0x00000000000000ff#64) <<< 56) |||
  ((x &&& 0x000000000000ff00#64) <<< 40) |||
  ((x &&& 0x0000000000ff0000#64) <<< 24) |||
  ((x &&& 0x00000000ff000000#64) <<< 8) |||
  ((x &&& 0x000000ff00000000#64) >>> 8) |||
  ((x &&& 0x0000ff0000000000#64) >>> 24) |||
  ((x &&& 0x00ff000000000000#64) >>> 40) |||
  ((x &&& 0xff00000000000000#64) >>> 56)

def htobe64 (x : BitVec 64) : BitVec 64 := be64toh x

def htobe32 (x : BitVec 32) : BitVec 32 := be32toh x

def htobe16 (x : BitVec 16) : BitVec 16 := be16toh x

def htole32 (x : BitVec 32) : BitVec 32 := le32toh x

/-- What is promised of the conversions. -/
structure Conversions : Prop where
  /-- The shifts of `htole64`, its bytes and the masks of `le64toh` do the same. -/
  shifts : ∀ x, htole64 (some .big) .big x = byteSwap x
  bytes : ∀ x, htole64 none .big x = byteSwap x
  masks : ∀ x, le64toh x = byteSwap x
  masks32 : ∀ x, htole32 x = byteSwap x ∧ le32toh x = byteSwap x
  little64 : ∀ byteOrder, byteOrder = none ∨ byteOrder = some .big →
    Converts .big .little (htole64 byteOrder .big) le64toh
  little32 : Converts .big .little htole32 le32toh
  big64 : Converts .big .big htobe64 be64toh
  big32 : Converts .big .big htobe32 be32toh
  big16 : Converts .big .big htobe16 be16toh

/-- The bytes of a word of 64 bits, from the other end. -/
theorem byteSwap_placed (x : BitVec 64) : byteSwap x =
    placed 64 7 (byte x 0) ||| placed 64 6 (byte x 1) ||| placed 64 5 (byte x 2) |||
    placed 64 4 (byte x 3) ||| placed 64 3 (byte x 4) ||| placed 64 2 (byte x 5) |||
    placed 64 1 (byte x 6) ||| placed 64 0 (byte x 7) := by
  have hreverse : ∀ a b c d e f g h : BitVec 64,
      a ||| (b ||| (c ||| (d ||| (e ||| (f ||| (g ||| (h ||| 0#64))))))) =
        h ||| g ||| f ||| e ||| d ||| c ||| b ||| a := fun a b c d e f g h => by
    rw [BitVec.or_zero]
    ac_rfl
  exact hreverse ..

theorem byteSwap_placed32 (x : BitVec 32) : byteSwap x =
    placed 32 3 (byte x 0) ||| placed 32 2 (byte x 1) ||| placed 32 1 (byte x 2) |||
    placed 32 0 (byte x 3) := by
  have hreverse : ∀ a b c d : BitVec 32,
      a ||| (b ||| (c ||| (d ||| 0#32))) = d ||| c ||| b ||| a := fun a b c d => by
    rw [BitVec.or_zero]
    ac_rfl
  exact hreverse ..

theorem le64toh_eq (x : BitVec 64) : le64toh x = byteSwap x := by
  have h0 : (x &&& 0x00000000000000ff#64) <<< 56 = placed 64 7 (byte x 0) :=
    masked_shiftLeft rfl rfl
  have h1 : (x &&& 0x000000000000ff00#64) <<< 40 = placed 64 6 (byte x 1) :=
    masked_shiftLeft rfl rfl
  have h2 : (x &&& 0x0000000000ff0000#64) <<< 24 = placed 64 5 (byte x 2) :=
    masked_shiftLeft rfl rfl
  have h3 : (x &&& 0x00000000ff000000#64) <<< 8 = placed 64 4 (byte x 3) :=
    masked_shiftLeft rfl rfl
  have h4 : (x &&& 0x000000ff00000000#64) >>> 8 = placed 64 3 (byte x 4) :=
    masked_ushiftRight rfl (by decide) rfl
  have h5 : (x &&& 0x0000ff0000000000#64) >>> 24 = placed 64 2 (byte x 5) :=
    masked_ushiftRight rfl (by decide) rfl
  have h6 : (x &&& 0x00ff000000000000#64) >>> 40 = placed 64 1 (byte x 6) :=
    masked_ushiftRight rfl (by decide) rfl
  have h7 : (x &&& 0xff00000000000000#64) >>> 56 = placed 64 0 (byte x 7) :=
    masked_ushiftRight rfl (by decide) rfl
  rw [le64toh, h0, h1, h2, h3, h4, h5, h6, h7, byteSwap_placed]

/-- `htole64` does not mask what is at either end, since nothing is left there but one byte. -/
theorem htole64_shifts (x : BitVec 64) : htole64 (some .big) .big x = byteSwap x := by
  have hup : (x &&& 0x00000000000000ff#64) <<< 56 = placed 64 7 (byte x 0) :=
    masked_shiftLeft rfl rfl
  have htop : x <<< 56 = placed 64 7 (byte x 0) := shiftLeft_top (j := 7) rfl rfl x
  have hdown : (x &&& 0xff00000000000000#64) >>> 56 = placed 64 0 (byte x 7) :=
    masked_ushiftRight rfl (by decide) rfl
  have hbottom : x >>> 56 = placed 64 0 (byte x 7) := ushiftRight_top (j := 7) rfl rfl x
  rw [← le64toh_eq, le64toh, hup, hdown, htole64, htop, hbottom]

theorem htole64_bytes (x : BitVec 64) : htole64 none .big x = byteSwap x := by
  have hbytes : valBytes x = stored .little x := by
    show _ = [byte x 0, byte x 1, byte x 2, byte x 3, byte x 4, byte x 5, byte x 6, byte x 7]
    simp only [← setWidth_ushiftRight]
    rfl
  show loaded 64 .big (valBytes x) = _
  rw [hbytes]
  rfl

theorem le32toh_eq (x : BitVec 32) : le32toh x = byteSwap x := by
  have h0 : (x &&& 0xff#32) <<< 24 = placed 32 3 (byte x 0) := masked_shiftLeft rfl rfl
  have h1 : (x &&& 0xff00#32) <<< 8 = placed 32 2 (byte x 1) := masked_shiftLeft rfl rfl
  have h2 : (x &&& 0xff0000#32) >>> 8 = placed 32 1 (byte x 2) :=
    masked_ushiftRight rfl (by decide) rfl
  have h3 : (x &&& 0xff000000#32) >>> 24 = placed 32 0 (byte x 3) :=
    masked_ushiftRight rfl (by decide) rfl
  rw [le32toh, h0, h1, h2, h3, byteSwap_placed32]

theorem conversions : Conversions := by
  have h64 : 8 ∣ 64 := by decide
  have h32 : 8 ∣ 32 := by decide
  have hhtole64 : ∀ byteOrder, byteOrder = none ∨ byteOrder = some .big →
      ∀ x, htole64 byteOrder .big x = byteSwap x := by
    rintro _ (rfl | rfl)
    · exact htole64_bytes
    · exact htole64_shifts
  exact
    { shifts := htole64_shifts
      bytes := htole64_bytes
      masks := le64toh_eq
      masks32 := fun x => ⟨le32toh_eq x, le32toh_eq x⟩
      little64 := fun byteOrder h => .of_byteSwap h64 (hhtole64 byteOrder h) le64toh_eq
      little32 := .of_byteSwap h32 le32toh_eq le32toh_eq
      big64 := .same .big
      big32 := .same .big
      big16 := .same .big }

end Aix

/-! ## Windows -/

/-- The conversions of Winsock: between the order of the host and that of the network, which is
big endian. `u_short` has 16 bits and `u_long` 32. -/
structure Winsock (host : ByteOrder) where
  htons : BitVec 16 → BitVec 16
  htonl : BitVec 32 → BitVec 32
  ntohs : BitVec 16 → BitVec 16
  ntohl : BitVec 32 → BitVec 32
  htons_order : ∀ x, stored host (htons x) = stored .big x
  htonl_order : ∀ x, stored host (htonl x) = stored .big x
  ntohs_order : ∀ x, stored .big (ntohs x) = stored host x
  ntohl_order : ∀ x, stored .big (ntohl x) = stored host x

namespace Windows

/-- `ntohll` and `htonll`: one conversion of 32 bits is asked whether there is anything to do, and
the other one converts the halves. -/
def convertHalves (probe convert : BitVec 32 → BitVec 32) (x : BitVec 64) : BitVec 64 :=
  if 1#32 = probe 1#32 then x
  else
    ((convert ((x &&& 0xFFFFFFFF#64).setWidth 32)).setWidth 64 <<< 32) |||
      (convert ((x >>> 32).setWidth 32)).setWidth 64

section Macros

variable {host : ByteOrder} (lib : Winsock host)

def ntohll : BitVec 64 → BitVec 64 := convertHalves lib.htonl lib.ntohl

def htonll : BitVec 64 → BitVec 64 := convertHalves lib.ntohl lib.htonl

def be16toh (x : BitVec 16) : BitVec 16 := lib.ntohs x

def htobe16 (x : BitVec 16) : BitVec 16 := lib.htons x

def le32toh (x : BitVec 32) : BitVec 32 := x

def be32toh (x : BitVec 32) : BitVec 32 := lib.ntohl x

def htole32 (x : BitVec 32) : BitVec 32 := x

def htobe32 (x : BitVec 32) : BitVec 32 := lib.ntohl x

def be64toh (x : BitVec 64) : BitVec 64 := ntohll lib x

def htobe64 (x : BitVec 64) : BitVec 64 := ntohll lib x

def htole64 (x : BitVec 64) : BitVec 64 := x

def le64toh (x : BitVec 64) : BitVec 64 := x

end Macros

/-- What is promised of the conversions. -/
structure Conversions (lib : Winsock .little) : Prop where
  /-- Two halves are the whole. -/
  halves : ∀ x, ntohll lib x = byteSwap x ∧ htonll lib x = byteSwap x
  big64 : Converts .little .big (htobe64 lib) (be64toh lib)
  big32 : Converts .little .big (htobe32 lib) (be32toh lib)
  big16 : Converts .little .big (htobe16 lib) (be16toh lib)
  little64 : Converts .little .little htole64 le64toh
  little32 : Converts .little .little htole32 le32toh

variable {host : ByteOrder}

/-- **Two conversions of 32 bits** are one of 64, on hosts of either order. -/
theorem convertHalves_order {probe convert : BitVec 32 → BitVec 32}
    (hprobe : ∀ x, stored .big (probe x) = stored host x)
    (hconvert : ∀ x, stored .big (convert x) = stored host x) (x : BitVec 64) :
    stored .big (convertHalves probe convert x) = stored host x := by
  have h32 : 8 ∣ 32 := by decide
  rw [convertHalves]
  cases host with
  | big =>
      have hprobe' : probe 1#32 = 1#32 := stored_inj h32 (hprobe 1#32)
      rw [if_pos hprobe'.symm]
  | little =>
      have hprobe' : 1#32 ≠ probe 1#32 := fun h => by
        have hone := hprobe 1#32
        rw [← h] at hone
        exact absurd hone (by decide)
      have hlow : (x &&& 0xFFFFFFFF#64).setWidth 32 = x.setWidth 32 := by
        rw [BitVec.setWidth_and]
        exact BitVec.and_allOnes
      have hjoin := setWidth_or (convert (x.setWidth 32)) (convert ((x >>> 32).setWidth 32))
      -- what was the low half comes to the high end
      calc stored .big (if 1#32 = probe 1#32 then x else _)
        _ = stored .big (convert (x.setWidth 32) ++ convert ((x >>> 32).setWidth 32)) := by
          rw [if_neg hprobe', hlow]
          exact congrArg (stored .big) hjoin
        _ = stored .little (x.setWidth 32) ++ stored .little ((x >>> 32).setWidth 32) := by
          rw [stored_append_big h32 h32, hconvert, hconvert]
        _ = stored .little ((x >>> 32).setWidth 32 ++ x.setWidth 32) :=
          (stored_append h32 h32 _ _).symm
        _ = stored .little x := congrArg (stored .little) (append_setWidth (w := 32) (v := 32) x)

theorem ntohll_order (lib : Winsock host) (x : BitVec 64) :
    stored .big (ntohll lib x) = stored host x :=
  convertHalves_order (fun y => stored_comm (lib.htonl_order y)) lib.ntohl_order x

theorem htonll_order (lib : Winsock host) (x : BitVec 64) :
    stored .big (htonll lib x) = stored host x :=
  convertHalves_order lib.ntohl_order (fun y => stored_comm (lib.htonl_order y)) x

theorem conversions (lib : Winsock .little) : Conversions lib := by
  have h64 : 8 ∣ 64 := by decide
  have h32 : 8 ∣ 32 := by decide
  have h16 : 8 ∣ 16 := by decide
  exact
    { halves := fun x =>
        ⟨eq_byteSwap h64 (ntohll_order lib x), eq_byteSwap h64 (htonll_order lib x)⟩
      big64 := .of_network h64 (ntohll_order lib) (ntohll_order lib)
      big32 := .of_network h32 lib.ntohl_order lib.ntohl_order
      big16 := .of_network h16 (fun x => stored_comm (lib.htons_order x)) lib.ntohs_order
      little64 := .same .little
      little32 := .same .little }

end Windows

/-! ## Both -/

/-- **Every conversion is right in memory**, and has an inverse. -/
theorem endian_conversions (lib : Winsock .little) :
    Aix.Conversions ∧ Windows.Conversions lib :=
  ⟨Aix.conversions, Windows.conversions lib⟩

/-- Winsock on a little-endian host. -/
def swapping : Winsock .little where
  htons := byteSwap
  htonl := byteSwap
  ntohs := byteSwap
  ntohl := byteSwap
  htons_order x := stored_comm (stored_byteSwap x)
  htonl_order x := stored_comm (stored_byteSwap x)
  ntohs_order x := stored_byteSwap x
  ntohl_order x := stored_byteSwap x

theorem endian_conversions_swapping :
    Aix.Conversions ∧ Windows.Conversions swapping ∧
      Windows.ntohll swapping 0x0102030405060708#64 = 0x0807060504030201#64 :=
  ⟨(endian_conversions swapping).1, (endian_conversions swapping).2, by decide⟩

end LibrePortable.Sys
