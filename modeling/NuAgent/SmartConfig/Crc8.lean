import NuAgent.Lib.Crc

/-!
# The three CRC-8 computations

Reference: `__crc8_tbl` and `NST_GetCrc8` of `Sys/util.c`, and `__crc8_tbl` and `getCrc8` of
`ConfigwlHelper.java` in `NLConfigTool`.

The firmware and the phone each carry a 256-entry table. Both are compared here with the bit-serial
reflected check of polynomial `0xE0`. Java bytes are signed, so the phone's registers and table are
`Int8` and its index is computed in `int` arithmetic.
-/

namespace NuAgent.SmartConfig

/-! ## The firmware -/

set_option maxRecDepth 4000 in
/-- `__crc8_tbl` of `Sys/util.c`. -/
def crc8Tbl : Vector UInt8 256 :=
  #v[0x00, 0x91, 0xe3, 0x72, 0x07, 0x96, 0xe4, 0x75, 0x0e, 0x9f, 0xed, 0x7c, 0x09, 0x98, 0xea, 0x7b,
    0x1c, 0x8d, 0xff, 0x6e, 0x1b, 0x8a, 0xf8, 0x69, 0x12, 0x83, 0xf1, 0x60, 0x15, 0x84, 0xf6, 0x67,
    0x38, 0xa9, 0xdb, 0x4a, 0x3f, 0xae, 0xdc, 0x4d, 0x36, 0xa7, 0xd5, 0x44, 0x31, 0xa0, 0xd2, 0x43,
    0x24, 0xb5, 0xc7, 0x56, 0x23, 0xb2, 0xc0, 0x51, 0x2a, 0xbb, 0xc9, 0x58, 0x2d, 0xbc, 0xce, 0x5f,
    0x70, 0xe1, 0x93, 0x02, 0x77, 0xe6, 0x94, 0x05, 0x7e, 0xef, 0x9d, 0x0c, 0x79, 0xe8, 0x9a, 0x0b,
    0x6c, 0xfd, 0x8f, 0x1e, 0x6b, 0xfa, 0x88, 0x19, 0x62, 0xf3, 0x81, 0x10, 0x65, 0xf4, 0x86, 0x17,
    0x48, 0xd9, 0xab, 0x3a, 0x4f, 0xde, 0xac, 0x3d, 0x46, 0xd7, 0xa5, 0x34, 0x41, 0xd0, 0xa2, 0x33,
    0x54, 0xc5, 0xb7, 0x26, 0x53, 0xc2, 0xb0, 0x21, 0x5a, 0xcb, 0xb9, 0x28, 0x5d, 0xcc, 0xbe, 0x2f,
    0xe0, 0x71, 0x03, 0x92, 0xe7, 0x76, 0x04, 0x95, 0xee, 0x7f, 0x0d, 0x9c, 0xe9, 0x78, 0x0a, 0x9b,
    0xfc, 0x6d, 0x1f, 0x8e, 0xfb, 0x6a, 0x18, 0x89, 0xf2, 0x63, 0x11, 0x80, 0xf5, 0x64, 0x16, 0x87,
    0xd8, 0x49, 0x3b, 0xaa, 0xdf, 0x4e, 0x3c, 0xad, 0xd6, 0x47, 0x35, 0xa4, 0xd1, 0x40, 0x32, 0xa3,
    0xc4, 0x55, 0x27, 0xb6, 0xc3, 0x52, 0x20, 0xb1, 0xca, 0x5b, 0x29, 0xb8, 0xcd, 0x5c, 0x2e, 0xbf,
    0x90, 0x01, 0x73, 0xe2, 0x97, 0x06, 0x74, 0xe5, 0x9e, 0x0f, 0x7d, 0xec, 0x99, 0x08, 0x7a, 0xeb,
    0x8c, 0x1d, 0x6f, 0xfe, 0x8b, 0x1a, 0x68, 0xf9, 0x82, 0x13, 0x61, 0xf0, 0x85, 0x14, 0x66, 0xf7,
    0xa8, 0x39, 0x4b, 0xda, 0xaf, 0x3e, 0x4c, 0xdd, 0xa6, 0x37, 0x45, 0xd4, 0xa1, 0x30, 0x42, 0xd3,
    0xb4, 0x25, 0x57, 0xc6, 0xb3, 0x22, 0x50, 0xc1, 0xba, 0x2b, 0x59, 0xc8, 0xbd, 0x2c, 0x5e, 0xcf]

/-- `NST_GetCrc8`, on the `len` bytes that start at `ptr`. -/
def nstGetCrc8 (bytes : List UInt8) : UInt8 :=
  bytes.foldl (fun crc8 data => crc8Tbl.get ⟨(crc8 ^^^ data).toNat, (crc8 ^^^ data).toNat_lt⟩) 0

/-! ## The phone -/

set_option maxRecDepth 4000 in
/-- `ConfigwlHelper.__crc8_tbl`; an entry `(byte) 0x91` is negative. -/
def javaCrc8Tbl : Vector Int8 256 :=
  #v[0x00, 0x91, 0xe3, 0x72, 0x07, 0x96, 0xe4, 0x75, 0x0e, 0x9f, 0xed, 0x7c, 0x09, 0x98, 0xea, 0x7b,
    0x1c, 0x8d, 0xff, 0x6e, 0x1b, 0x8a, 0xf8, 0x69, 0x12, 0x83, 0xf1, 0x60, 0x15, 0x84, 0xf6, 0x67,
    0x38, 0xa9, 0xdb, 0x4a, 0x3f, 0xae, 0xdc, 0x4d, 0x36, 0xa7, 0xd5, 0x44, 0x31, 0xa0, 0xd2, 0x43,
    0x24, 0xb5, 0xc7, 0x56, 0x23, 0xb2, 0xc0, 0x51, 0x2a, 0xbb, 0xc9, 0x58, 0x2d, 0xbc, 0xce, 0x5f,
    0x70, 0xe1, 0x93, 0x02, 0x77, 0xe6, 0x94, 0x05, 0x7e, 0xef, 0x9d, 0x0c, 0x79, 0xe8, 0x9a, 0x0b,
    0x6c, 0xfd, 0x8f, 0x1e, 0x6b, 0xfa, 0x88, 0x19, 0x62, 0xf3, 0x81, 0x10, 0x65, 0xf4, 0x86, 0x17,
    0x48, 0xd9, 0xab, 0x3a, 0x4f, 0xde, 0xac, 0x3d, 0x46, 0xd7, 0xa5, 0x34, 0x41, 0xd0, 0xa2, 0x33,
    0x54, 0xc5, 0xb7, 0x26, 0x53, 0xc2, 0xb0, 0x21, 0x5a, 0xcb, 0xb9, 0x28, 0x5d, 0xcc, 0xbe, 0x2f,
    0xe0, 0x71, 0x03, 0x92, 0xe7, 0x76, 0x04, 0x95, 0xee, 0x7f, 0x0d, 0x9c, 0xe9, 0x78, 0x0a, 0x9b,
    0xfc, 0x6d, 0x1f, 0x8e, 0xfb, 0x6a, 0x18, 0x89, 0xf2, 0x63, 0x11, 0x80, 0xf5, 0x64, 0x16, 0x87,
    0xd8, 0x49, 0x3b, 0xaa, 0xdf, 0x4e, 0x3c, 0xad, 0xd6, 0x47, 0x35, 0xa4, 0xd1, 0x40, 0x32, 0xa3,
    0xc4, 0x55, 0x27, 0xb6, 0xc3, 0x52, 0x20, 0xb1, 0xca, 0x5b, 0x29, 0xb8, 0xcd, 0x5c, 0x2e, 0xbf,
    0x90, 0x01, 0x73, 0xe2, 0x97, 0x06, 0x74, 0xe5, 0x9e, 0x0f, 0x7d, 0xec, 0x99, 0x08, 0x7a, 0xeb,
    0x8c, 0x1d, 0x6f, 0xfe, 0x8b, 0x1a, 0x68, 0xf9, 0x82, 0x13, 0x61, 0xf0, 0x85, 0x14, 0x66, 0xf7,
    0xa8, 0x39, 0x4b, 0xda, 0xaf, 0x3e, 0x4c, 0xdd, 0xa6, 0x37, 0x45, 0xd4, 0xa1, 0x30, 0x42, 0xd3,
    0xb4, 0x25, 0x57, 0xc6, 0xb3, 0x22, 0x50, 0xc1, 0xba, 0x2b, 0x59, 0xc8, 0xbd, 0x2c, 0x5e, 0xcf]

/-- The index `((crc8 ^ data) + 256) % 256` of the table access, in `int` arithmetic. -/
def javaCrc8Index (crc8 data : Int8) : Int32 :=
  ((crc8.toInt32 ^^^ data.toInt32) + 256) % 256

/-- One turn of the loop of `ConfigwlHelper.getCrc8`; `none` is an index out of bounds. -/
def getCrc8Step (crc8 data : Int8) : Option Int8 :=
  if 0 ≤ javaCrc8Index crc8 data then javaCrc8Tbl[(javaCrc8Index crc8 data).toInt.toNat]? else none

/-- `ConfigwlHelper.getCrc8`, called with the length of the array. -/
def getCrc8 (ptr : List Int8) : Option Int8 := ptr.foldlM getCrc8Step 0

/-! ## Agreement -/

/-- The polynomial of the check, reflected. -/
def crc8Poly : BitVec 8 := 0xE0

theorem crc8Tbl_toList : crc8Tbl.toList =
    (List.finRange 256).map fun i => UInt8.ofBitVec ((Crc.shift crc8Poly)^[8] (BitVec.ofFin i)) := by
  decide +kernel

theorem javaCrc8Tbl_toList : javaCrc8Tbl.toList = crc8Tbl.toList.map UInt8.toInt8 := by
  decide +kernel

/-- The index of a signed register is its unsigned reading. -/
theorem index_unsigned : ∀ i : Fin 256,
    ((Int8.ofBitVec (BitVec.ofFin i)).toInt32 + 256) % 256 = Int32.ofNat i := by
  decide +kernel

/-- Every entry of the firmware's table is eight shifts of its index. -/
theorem crc8Tbl_get (i : Fin 256) :
    crc8Tbl.get i = UInt8.ofBitVec ((Crc.shift crc8Poly)^[8] (BitVec.ofFin i)) := by
  have hget : crc8Tbl.toList[i.val]? = some (crc8Tbl.get i) := by
    rw [Vector.getElem?_toList, Vector.getElem?_eq_getElem i.isLt]
    rfl
  have hentry : crc8Tbl.toList[i.val]?
      = some (UInt8.ofBitVec ((Crc.shift crc8Poly)^[8] (BitVec.ofFin i))) := by
    rw [crc8Tbl_toList, List.getElem?_map, List.getElem?_eq_getElem (by simp)]
    simp
  exact Option.some.inj (hget.symm.trans hentry)

/-- Every entry of the phone's table is the firmware's, as a signed byte. -/
theorem javaCrc8Tbl_getElem? (i : Fin 256) :
    javaCrc8Tbl[i.val]? = some (crc8Tbl.get i).toInt8 := by
  rw [← Vector.getElem?_toList, javaCrc8Tbl_toList, List.getElem?_map, Vector.getElem?_toList,
    Vector.getElem?_eq_getElem i.isLt]
  rfl

/-- One turn of the phone's loop is one turn of the firmware's, in signed bytes. -/
theorem getCrc8Step_eq (crc8 data : UInt8) :
    getCrc8Step crc8.toInt8 data.toInt8 =
      some (crc8Tbl.get ⟨(crc8 ^^^ data).toNat, (crc8 ^^^ data).toNat_lt⟩).toInt8 := by
  have hindex : javaCrc8Index crc8.toInt8 data.toInt8 = Int32.ofNat (crc8 ^^^ data).toNat := by
    rw [javaCrc8Index, ← Int8.toInt32_xor, ← UInt8.toInt8_xor]
    exact index_unsigned ⟨(crc8 ^^^ data).toNat, (crc8 ^^^ data).toNat_lt⟩
  have hlt := (crc8 ^^^ data).toNat_lt
  have hnat : (Int32.ofNat (crc8 ^^^ data).toNat).toInt = (crc8 ^^^ data).toNat :=
    Int32.toInt_ofNat_of_lt (by omega)
  rw [getCrc8Step, hindex, if_pos, hnat, Int.toNat_natCast]
  · exact javaCrc8Tbl_getElem? ⟨_, hlt⟩
  · rw [Int32.le_iff_toInt_le, hnat]
    exact Int.natCast_nonneg _

theorem getCrc8_foldlM (bytes : List UInt8) (crc8 : UInt8) :
    (bytes.map UInt8.toInt8).foldlM getCrc8Step crc8.toInt8 = some (bytes.foldl (fun crc8 data =>
      crc8Tbl.get ⟨(crc8 ^^^ data).toNat, (crc8 ^^^ data).toNat_lt⟩) crc8).toInt8 := by
  induction bytes generalizing crc8 with
  | nil => rfl
  | cons data bytes ih =>
    rw [List.map_cons, List.foldlM_cons, getCrc8Step_eq, List.foldl_cons]
    exact ih _

/-- The firmware computes the bit-serial check. -/
theorem nstGetCrc8_eq_feed (bytes : List UInt8) :
    (nstGetCrc8 bytes).toBitVec = Crc.feed crc8Poly 0 (bytes.map UInt8.toBitVec) := by
  have htable : ∀ i : BitVec 8,
      (crc8Tbl.get i.toFin).toBitVec = (Crc.shift crc8Poly)^[8] i := by
    intro i
    rw [crc8Tbl_get]
  rw [Crc.feed_eq_foldl_table htable, List.foldl_map, nstGetCrc8]
  refine (List.foldl_hom UInt8.toBitVec ?_).symm
  intro crc8 data
  rfl

/-- **The three computations agree.** On every byte string the phone's result, read back as an
unsigned byte, is the firmware's, and both are the bit-serial reflected check of polynomial `0xE0`
from a zero register. -/
theorem crc8_agree (bytes : List UInt8) :
    (getCrc8 (bytes.map UInt8.toInt8)).map Int8.toUInt8 = some (nstGetCrc8 bytes) ∧
      (nstGetCrc8 bytes).toBitVec = Crc.feed crc8Poly 0 (bytes.map UInt8.toBitVec) := by
  refine ⟨?_, nstGetCrc8_eq_feed bytes⟩
  rw [getCrc8, show (0 : Int8) = (0 : UInt8).toInt8 from rfl, getCrc8_foldlM]
  rfl

end NuAgent.SmartConfig
