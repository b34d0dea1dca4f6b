import NuAgent.Lib.Bytes
import NuAgent.Lib.Gf256

/-!
# The block cipher

Reference: `Lib/AES.c`, with `AES_KEY_LENGTH` 128, so `Nk` is 4 and `Nr` is 10.

A pointer to bytes is the list of the bytes from it on, and a loop over them is a fold that stores one
byte after the other.
-/

namespace NuAgent.Crypto

/-! ## The source -/

/-- `SBox`. -/
def sBox : List UInt8 :=
  [0x63, 0x7c, 0x77, 0x7b, 0xf2, 0x6b, 0x6f, 0xc5, 0x30, 0x01, 0x67, 0x2b, 0xfe, 0xd7, 0xab, 0x76,
   0xca, 0x82, 0xc9, 0x7d, 0xfa, 0x59, 0x47, 0xf0, 0xad, 0xd4, 0xa2, 0xaf, 0x9c, 0xa4, 0x72, 0xc0,
   0xb7, 0xfd, 0x93, 0x26, 0x36, 0x3f, 0xf7, 0xcc, 0x34, 0xa5, 0xe5, 0xf1, 0x71, 0xd8, 0x31, 0x15,
   0x04, 0xc7, 0x23, 0xc3, 0x18, 0x96, 0x05, 0x9a, 0x07, 0x12, 0x80, 0xe2, 0xeb, 0x27, 0xb2, 0x75,
   0x09, 0x83, 0x2c, 0x1a, 0x1b, 0x6e, 0x5a, 0xa0, 0x52, 0x3b, 0xd6, 0xb3, 0x29, 0xe3, 0x2f, 0x84,
   0x53, 0xd1, 0x00, 0xed, 0x20, 0xfc, 0xb1, 0x5b, 0x6a, 0xcb, 0xbe, 0x39, 0x4a, 0x4c, 0x58, 0xcf,
   0xd0, 0xef, 0xaa, 0xfb, 0x43, 0x4d, 0x33, 0x85, 0x45, 0xf9, 0x02, 0x7f, 0x50, 0x3c, 0x9f, 0xa8,
   0x51, 0xa3, 0x40, 0x8f, 0x92, 0x9d, 0x38, 0xf5, 0xbc, 0xb6, 0xda, 0x21, 0x10, 0xff, 0xf3, 0xd2,
   0xcd, 0x0c, 0x13, 0xec, 0x5f, 0x97, 0x44, 0x17, 0xc4, 0xa7, 0x7e, 0x3d, 0x64, 0x5d, 0x19, 0x73,
   0x60, 0x81, 0x4f, 0xdc, 0x22, 0x2a, 0x90, 0x88, 0x46, 0xee, 0xb8, 0x14, 0xde, 0x5e, 0x0b, 0xdb,
   0xe0, 0x32, 0x3a, 0x0a, 0x49, 0x06, 0x24, 0x5c, 0xc2, 0xd3, 0xac, 0x62, 0x91, 0x95, 0xe4, 0x79,
   0xe7, 0xc8, 0x37, 0x6d, 0x8d, 0xd5, 0x4e, 0xa9, 0x6c, 0x56, 0xf4, 0xea, 0x65, 0x7a, 0xae, 0x08,
   0xba, 0x78, 0x25, 0x2e, 0x1c, 0xa6, 0xb4, 0xc6, 0xe8, 0xdd, 0x74, 0x1f, 0x4b, 0xbd, 0x8b, 0x8a,
   0x70, 0x3e, 0xb5, 0x66, 0x48, 0x03, 0xf6, 0x0e, 0x61, 0x35, 0x57, 0xb9, 0x86, 0xc1, 0x1d, 0x9e,
   0xe1, 0xf8, 0x98, 0x11, 0x69, 0xd9, 0x8e, 0x94, 0x9b, 0x1e, 0x87, 0xe9, 0xce, 0x55, 0x28, 0xdf,
   0x8c, 0xa1, 0x89, 0x0d, 0xbf, 0xe6, 0x42, 0x68, 0x41, 0x99, 0x2d, 0x0f, 0xb0, 0x54, 0xbb, 0x16]

/-- `InvSBox`. -/
def invSBox : List UInt8 :=
  [0x52, 0x09, 0x6a, 0xd5, 0x30, 0x36, 0xa5, 0x38, 0xbf, 0x40, 0xa3, 0x9e, 0x81, 0xf3, 0xd7, 0xfb,
   0x7c, 0xe3, 0x39, 0x82, 0x9b, 0x2f, 0xff, 0x87, 0x34, 0x8e, 0x43, 0x44, 0xc4, 0xde, 0xe9, 0xcb,
   0x54, 0x7b, 0x94, 0x32, 0xa6, 0xc2, 0x23, 0x3d, 0xee, 0x4c, 0x95, 0x0b, 0x42, 0xfa, 0xc3, 0x4e,
   0x08, 0x2e, 0xa1, 0x66, 0x28, 0xd9, 0x24, 0xb2, 0x76, 0x5b, 0xa2, 0x49, 0x6d, 0x8b, 0xd1, 0x25,
   0x72, 0xf8, 0xf6, 0x64, 0x86, 0x68, 0x98, 0x16, 0xd4, 0xa4, 0x5c, 0xcc, 0x5d, 0x65, 0xb6, 0x92,
   0x6c, 0x70, 0x48, 0x50, 0xfd, 0xed, 0xb9, 0xda, 0x5e, 0x15, 0x46, 0x57, 0xa7, 0x8d, 0x9d, 0x84,
   0x90, 0xd8, 0xab, 0x00, 0x8c, 0xbc, 0xd3, 0x0a, 0xf7, 0xe4, 0x58, 0x05, 0xb8, 0xb3, 0x45, 0x06,
   0xd0, 0x2c, 0x1e, 0x8f, 0xca, 0x3f, 0x0f, 0x02, 0xc1, 0xaf, 0xbd, 0x03, 0x01, 0x13, 0x8a, 0x6b,
   0x3a, 0x91, 0x11, 0x41, 0x4f, 0x67, 0xdc, 0xea, 0x97, 0xf2, 0xcf, 0xce, 0xf0, 0xb4, 0xe6, 0x73,
   0x96, 0xac, 0x74, 0x22, 0xe7, 0xad, 0x35, 0x85, 0xe2, 0xf9, 0x37, 0xe8, 0x1c, 0x75, 0xdf, 0x6e,
   0x47, 0xf1, 0x1a, 0x71, 0x1d, 0x29, 0xc5, 0x89, 0x6f, 0xb7, 0x62, 0x0e, 0xaa, 0x18, 0xbe, 0x1b,
   0xfc, 0x56, 0x3e, 0x4b, 0xc6, 0xd2, 0x79, 0x20, 0x9a, 0xdb, 0xc0, 0xfe, 0x78, 0xcd, 0x5a, 0xf4,
   0x1f, 0xdd, 0xa8, 0x33, 0x88, 0x07, 0xc7, 0x31, 0xb1, 0x12, 0x10, 0x59, 0x27, 0x80, 0xec, 0x5f,
   0x60, 0x51, 0x7f, 0xa9, 0x19, 0xb5, 0x4a, 0x0d, 0x2d, 0xe5, 0x7a, 0x9f, 0x93, 0xc9, 0x9c, 0xef,
   0xa0, 0xe0, 0x3b, 0x4d, 0xae, 0x2a, 0xf5, 0xb0, 0xc8, 0xeb, 0xbb, 0x3c, 0x83, 0x53, 0x99, 0x61,
   0x17, 0x2b, 0x04, 0x7e, 0xba, 0x77, 0xd6, 0x26, 0xe1, 0x69, 0x14, 0x63, 0x55, 0x21, 0x0c, 0x7d]

/-- `RotationWord`. -/
def rotationWord (pWord : List UInt8) : List UInt8 :=
  let temp := pWord.getD 0 0
  let pWord := pWord.set 0 (pWord.getD 1 0)
  let pWord := pWord.set 1 (pWord.getD 2 0)
  let pWord := pWord.set 2 (pWord.getD 3 0)
  pWord.set 3 temp

/-- `XorBytes`. -/
def xorBytes (pData1 pData2 : List UInt8) (nCount : ℕ) : List UInt8 :=
  (List.range nCount).foldl
    (fun pData1 i => pData1.set i (pData1.getD i 0 ^^^ pData2.getD i 0)) pData1

/-- `AddRoundKey`. -/
def addRoundKey (pState pRoundKey : List UInt8) : List UInt8 := xorBytes pState pRoundKey 16

/-- `SubBytes`. -/
def subBytes (pState : List UInt8) (nCount : ℕ) (bInvert : Bool) : List UInt8 :=
  let pSBox := if bInvert then invSBox else sBox
  (List.range nCount).foldl
    (fun pState i => pState.set i (pSBox.getD (pState.getD i 0).toNat 0)) pState

/-- The body of the loop of `ShiftRows`. -/
def shiftRow (bInvert : Bool) (pState : List UInt8) (r : ℕ) : List UInt8 :=
  let rowData := (List.range 4).map fun c => pState.getD (r + 4 * c) 0
  let temp := if bInvert then 4 - r else r
  (List.range 4).foldl
    (fun pState c => pState.set (r + 4 * c) (rowData.getD ((c + temp) % 4) 0)) pState

/-- `ShiftRows`. -/
def shiftRows (pState : List UInt8) (bInvert : Bool) : List UInt8 :=
  [1, 2, 3].foldl (shiftRow bInvert) pState

/-- `GfMultBy02`. -/
def gfMultBy02 (num : UInt8) : UInt8 :=
  if num &&& 0x80 = 0 then num <<< 1 else (num <<< 1) ^^^ 0x1b

/-- The body of the loop of `MixColumns`: the array `result`. -/
def mixColumn (pState : List UInt8) (bInvert : Bool) : List UInt8 :=
  let p0 := pState.getD 0 0
  let p1 := pState.getD 1 0
  let p2 := pState.getD 2 0
  let p3 := pState.getD 3 0
  let temp := p0 ^^^ p1 ^^^ p2 ^^^ p3
  let r0 := temp ^^^ p0 ^^^ gfMultBy02 (p0 ^^^ p1)
  let r1 := temp ^^^ p1 ^^^ gfMultBy02 (p1 ^^^ p2)
  let r2 := temp ^^^ p2 ^^^ gfMultBy02 (p2 ^^^ p3)
  let r3 := temp ^^^ p3 ^^^ gfMultBy02 (p3 ^^^ p0)
  if bInvert then
    let a0Pa2M4 := gfMultBy02 (gfMultBy02 (p0 ^^^ p2))
    let a1Pa3M4 := gfMultBy02 (gfMultBy02 (p1 ^^^ p3))
    let temp := gfMultBy02 (a0Pa2M4 ^^^ a1Pa3M4)
    [r0 ^^^ (temp ^^^ a0Pa2M4), r1 ^^^ (temp ^^^ a1Pa3M4), r2 ^^^ (temp ^^^ a0Pa2M4),
      r3 ^^^ (temp ^^^ a1Pa3M4)]
  else [r0, r1, r2, r3]

/-- `MixColumns`. -/
def mixColumns (pState : List UInt8) (bInvert : Bool) : List UInt8 :=
  (List.range 4).foldl
    (fun pState i => Block.splice pState (4 * i) (mixColumn (pState.drop (4 * i)) bInvert)) pState

/-- The number of rounds `Nr`. -/
abbrev nr : ℕ := 10

/-- `&g_roundKeyTable[4*Nb*i]`. -/
def roundKey (gRoundKeyTable : List UInt8) (i : ℕ) : List UInt8 := gRoundKeyTable.drop (16 * i)

/-- The body of the loop of `BlockEncrypt`. -/
def encryptRound (gRoundKeyTable pState : List UInt8) (i : ℕ) : List UInt8 :=
  let pState := shiftRows (subBytes pState 16 false) false
  let pState := if i ≠ nr then mixColumns pState false else pState
  addRoundKey pState (roundKey gRoundKeyTable i)

/-- `BlockEncrypt`, for `i` in `[1, Nr]`. -/
def blockEncrypt (gRoundKeyTable pState : List UInt8) : List UInt8 :=
  (List.range' 1 nr).foldl (encryptRound gRoundKeyTable)
    (addRoundKey pState (roundKey gRoundKeyTable 0))

/-- The body of the loop of `BlockDecrypt`. -/
def decryptRound (gRoundKeyTable pState : List UInt8) (i : ℕ) : List UInt8 :=
  let pState := subBytes (shiftRows pState true) 16 true
  let pState := addRoundKey pState (roundKey gRoundKeyTable (i - 1))
  if i ≠ 1 then mixColumns pState true else pState

/-- `BlockDecrypt`, for `i` in `[Nr, 1]`. -/
def blockDecrypt (gRoundKeyTable pState : List UInt8) : List UInt8 :=
  (List.range' 1 nr).reverse.foldl (decryptRound gRoundKeyTable)
    (addRoundKey pState (roundKey gRoundKeyTable nr))

/-- `g_roundKeyTable` and `Rcon[0]` in the loop of `AES_Init`; the other bytes of `Rcon` are 0. -/
structure Expansion where
  gRoundKeyTable : List UInt8
  rcon : UInt8

/-- The body of the loop of `AES_Init`, with `pRoundKey` at word `i`; `Nk > 6` does not hold. -/
def expandWord (s : Expansion) (i : ℕ) : Expansion :=
  let word j := (s.gRoundKeyTable.drop (4 * j)).take 4
  let pRoundKey := word (i - 1)
  if i % 4 = 0 then
    let pRoundKey := xorBytes (subBytes (rotationWord pRoundKey) 4 false) [s.rcon, 0, 0, 0] 4
    { gRoundKeyTable := Block.splice s.gRoundKeyTable (4 * i) (xorBytes pRoundKey (word (i - 4)) 4)
      rcon := gfMultBy02 s.rcon }
  else
    { s with
      gRoundKeyTable :=
        Block.splice s.gRoundKeyTable (4 * i) (xorBytes pRoundKey (word (i - 4)) 4) }

/-- `AES_Init`, which overwrites the table of the last key. -/
def aesInit (gRoundKeyTable pKey : List UInt8) : List UInt8 :=
  ((List.range' 4 40).foldl expandWord ⟨Block.splice gRoundKeyTable 0 (pKey.take 16), 1⟩).gRoundKeyTable

end NuAgent.Crypto
