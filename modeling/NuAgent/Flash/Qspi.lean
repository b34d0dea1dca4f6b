import NuAgent.Lib.CInt
import NuAgent.Lib.Overlay

/-!
# The driver of the serial flash

Reference: `BSP/BspDemo.c`, the functions `QSpiFlashRead`, `QSpiFlashWriteOnePage`,
`QSpiFlashEraseSector`, `QSpiWriteOneSector` and `QSpiWriteAny`.

The flash is a device with three commands, and the driver is written against any such device. `Nor`
is the device of the data sheet: a sector erase sets an aligned sector to `0xFF`, a page program can
only clear bits and wraps inside its page. It also keeps a log of its page programs.
-/

namespace NuAgent.Flash

open CInt Memory

/-! ## Devices -/

/-- `FLASH_PAGE_SIZE`. -/
def flashPageSize : ℕ := 256
/-- `FLASH_SECTOR_SIZE`. -/
def flashSectorSize : ℕ := 4096
/-- `MAX_FLASH_RD_SIZE`. -/
def maxFlashRdSize : ℕ := 65536

/-- The commands of a serial flash, on 24-bit addresses: `FLASH_CMD_SEQ_READ` with a byte count,
`FLASH_CMD_PAGE_WRITE` with the bytes and `FLASH_CMD_SECTOR_ERASE`. -/
structure Device (σ : Type) where
  seqRead : σ → ℕ → ℕ → List UInt8
  pageWrite : σ → ℕ → List UInt8 → σ
  sectorErase : σ → ℕ → σ

/-- The three address bytes that follow a command. -/
def addrBytes (adr : ℕ) : ℕ := adr % 2 ^ 24

/-! ## The driver -/

section
variable {σ : Type} (dev : Device σ)

/-- The loop of `QSpiFlashRead`: at most `MAX_FLASH_RD_SIZE` bytes with one command. -/
def flashReadLoop (s : σ) (readAddr len dnldByteCnt : ℕ) : List UInt8 :=
  if len > dnldByteCnt then
    let rdCnt := if len - dnldByteCnt > maxFlashRdSize then maxFlashRdSize else len - dnldByteCnt
    dev.seqRead s (addrBytes readAddr) rdCnt ++
      flashReadLoop s (u32 (readAddr + rdCnt)) len (dnldByteCnt + rdCnt)
  else []
termination_by len - dnldByteCnt
decreasing_by
  unfold maxFlashRdSize
  split_ifs <;> omega

/-- `QSpiFlashRead`: the bytes stored in `pBuf`. -/
def qSpiFlashRead (s : σ) (readStartPos len : ℕ) : List UInt8 :=
  flashReadLoop dev s readStartPos len 0

/-- `QSpiFlashWriteOnePage`. -/
def qSpiFlashWriteOnePage (s : σ) (adr : ℕ) (pBuf : List UInt8) : σ :=
  dev.pageWrite s (addrBytes adr) pBuf

/-- `QSpiFlashEraseSector`. -/
def qSpiFlashEraseSector (s : σ) (sectorAddr : ℕ) : σ := dev.sectorErase s (addrBytes sectorAddr)

/-- The loop `while (j--)` that programs a page and reads it back; the flash and the last value of
the 16-bit counter `j`. -/
def programVerify : ℕ → σ → ℕ → List UInt8 → σ × ℕ
  | 0, s, _, _ => (s, u16 (-1))
  | j + 1, s, writeAddr, data =>
      let s := qSpiFlashWriteOnePage dev s writeAddr data
      if qSpiFlashRead dev s writeAddr data.length = data then (s, j)
      else programVerify j s writeAddr data

/-- The same loop in `QSpiWriteOneSector`, where the counter `j` has 32 bits. -/
def programVerifyPage : ℕ → σ → ℕ → List UInt8 → σ × ℕ
  | 0, s, _, _ => (s, u32 (-1))
  | j + 1, s, writeAddr, data =>
      let s := qSpiFlashWriteOnePage dev s writeAddr data
      if qSpiFlashRead dev s writeAddr data.length = data then (s, j)
      else programVerifyPage j s writeAddr data

/-- The loop of `QSpiWriteOneSector` over the pages; the flash and the returned value. -/
def writeSectorLoop : ℕ → σ → ℕ → List UInt8 → σ × ℤ
  | 0, s, _, _ => (s, 0)
  | pages + 1, s, writeAddr, pBuf =>
      let (s, j) := programVerifyPage dev 10 s writeAddr (pBuf.take flashPageSize)
      if j = 0 then (s, -1)
      else writeSectorLoop pages s (u32 (writeAddr + flashPageSize)) (pBuf.drop flashPageSize)

/-- `QSpiWriteOneSector`. -/
def qSpiWriteOneSector (s : σ) (sectorAddr : ℕ) (pBuf : List UInt8) : σ × ℤ :=
  writeSectorLoop dev (flashSectorSize / flashPageSize) (qSpiFlashEraseSector dev s sectorAddr)
    sectorAddr pBuf

/-- The `do`-`while` loop of `QSpiWriteAny`: the flash and the returned value, `none` when `fuel`
turns were not enough. -/
def writeAnyLoop : ℕ → σ → ℕ → List UInt8 → ℕ → ℕ → Option (σ × ℤ)
  | 0, _, _, _, _, _ => none
  | fuel + 1, s, writeAddr, pData, dataLen, pageremain =>
      let (s, j) := programVerify dev 10 s writeAddr (pData.take pageremain)
      if j = 0 then some (s, -1)
      else if dataLen = pageremain then some (s, 0)
      else
        let pData := pData.drop pageremain
        let writeAddr := u32 (writeAddr + pageremain)
        let dataLen := u16 (dataLen - pageremain)
        let pageremain := if dataLen > flashPageSize then flashPageSize else dataLen
        writeAnyLoop fuel s writeAddr pData dataLen pageremain

/-- `QSpiWriteAny`. A turn of its loop writes at least one byte unless there is nothing to write. -/
def qSpiWriteAny (s : σ) (writeAddr : ℕ) (pData : List UInt8) (dataLen : ℕ) : Option (σ × ℤ) :=
  let pageremain := u16 (flashPageSize - writeAddr % flashPageSize)
  let pageremain := if dataLen ≤ pageremain then dataLen else pageremain
  writeAnyLoop dev (dataLen + 1) s writeAddr pData dataLen pageremain

end

/-! ## The NOR flash -/

/-- The cells of a NOR flash and the address and length of each page program it has executed. -/
structure Nor where
  cells : ℕ → UInt8
  log : List (ℕ × ℕ)

/-- The address that follows `a` in a page program. -/
def pageSucc (a : ℕ) : ℕ := a / flashPageSize * flashPageSize + (a + 1) % flashPageSize

/-- A page program clears bits, byte after byte. -/
def programCells (cells : ℕ → UInt8) : ℕ → List UInt8 → ℕ → UInt8
  | _, [] => cells
  | a, b :: rest => programCells (Function.update cells a (cells a &&& b)) (pageSucc a) rest

/-- A sector erase. -/
def eraseCells (cells : ℕ → UInt8) (a : ℕ) : ℕ → UInt8 :=
  overlay cells (a / flashSectorSize * flashSectorSize) (List.replicate flashSectorSize 0xFF)

/-- The NOR flash as a device. -/
def nor : Device Nor where
  seqRead s a n := window s.cells a n
  pageWrite s a data :=
    { cells := programCells s.cells a data
      log := s.log ++ [(a, data.length)] }
  sectorErase s a := { s with cells := eraseCells s.cells a }

theorem nor_seqRead (s : Nor) (a n : ℕ) : nor.seqRead s a n = window s.cells a n := rfl

/-! ## The driver on the NOR flash -/

/-- An erased byte takes every value. -/
theorem erased_and (b : UInt8) : 0xFF &&& b = b := by
  have hones : (0xFF : UInt8) = -1 := by decide
  rw [hones, UInt8.neg_one_and]

/-- A page program that stays in its page and finds erased cells stores its data. -/
theorem programCells_erased (data : List UInt8) {cells : ℕ → UInt8} {a : ℕ}
    (hpage : a % flashPageSize + data.length ≤ flashPageSize)
    (hff : ∀ i < data.length, cells (a + i) = 0xFF) :
    programCells cells a data = overlay cells a data := by
  unfold flashPageSize at hpage
  induction data generalizing cells a with
  | nil => rw [programCells, overlay_nil]
  | cons b rest ih =>
    rw [List.length_cons] at hpage
    have ha : cells a = 0xFF := hff 0 (by simp)
    have hone : Function.update cells a (cells a &&& b) = overlay cells a [b] := by
      funext x
      by_cases hx : x = a
      · subst hx
        simp [overlay, ha, erased_and]
      · rw [Function.update_of_ne hx]
        rcases Nat.lt_or_gt_of_ne hx with hlt | hgt
        · rw [overlay_of_lt hlt]
        · rw [overlay_of_ge (by rw [List.length_singleton]; omega)]
    rw [programCells, hone]
    cases rest with
    | nil => rw [programCells]
    | cons b' rest =>
      -- another byte follows, so the address does not wrap here
      have hsucc : pageSucc a = a + 1 := by
        rw [List.length_cons] at hpage
        unfold pageSucc flashPageSize
        omega
      rw [hsucc, ih (by omega) ?_]
      · exact overlay_append (b' :: rest)
      · intro i hi
        have h := hff (1 + i) (by rw [List.length_cons]; omega)
        rw [overlay_of_ge (by simp), Nat.add_assoc]
        exact h

/-- Reading a range of the flash, in however many commands. -/
theorem flashReadLoop_nor (s : Nor) (readAddr len dnldByteCnt : ℕ)
    (h : readAddr + (len - dnldByteCnt) ≤ 2 ^ 24) :
    flashReadLoop nor s readAddr len dnldByteCnt = window s.cells readAddr (len - dnldByteCnt) := by
  induction hm : len - dnldByteCnt using Nat.strongRecOn generalizing readAddr dnldByteCnt with
  | _ m ih =>
  subst hm
  rw [flashReadLoop]
  by_cases hmore : len > dnldByteCnt
  · rw [if_pos hmore]
    dsimp only
    set rdCnt := if len - dnldByteCnt > maxFlashRdSize then maxFlashRdSize else len - dnldByteCnt
      with hrd
    have hle : 0 < rdCnt ∧ rdCnt ≤ len - dnldByteCnt := by
      rw [hrd]
      unfold maxFlashRdSize
      split_ifs <;> omega
    have hnext : u32 ((readAddr : ℤ) + rdCnt) = readAddr + rdCnt := by
      rw [u32_of_lt (by omega) (by omega)]
      omega
    have hadr : addrBytes readAddr = readAddr := Nat.mod_eq_of_lt (by omega)
    rw [hnext, hadr, ih (len - (dnldByteCnt + rdCnt)) (by omega) _ _ (by omega) rfl]
    change window s.cells readAddr rdCnt ++ _ = _
    rw [← window_add]
    congr 1
    omega
  · rw [if_neg hmore]
    have hzero : len - dnldByteCnt = 0 := by omega
    rw [hzero]
    rfl

/-- A read of at most `MAX_FLASH_RD_SIZE` bytes takes one command. -/
theorem qSpiFlashRead_single {σ : Type} (dev : Device σ) (s : σ) (addr : ℕ) {len : ℕ}
    (hpos : 0 < len) (hlen : len ≤ maxFlashRdSize) :
    qSpiFlashRead dev s addr len = dev.seqRead s (addrBytes addr) len := by
  have hone : (if len - 0 > maxFlashRdSize then maxFlashRdSize else len - 0) = len := by
    split_ifs <;> omega
  rw [qSpiFlashRead, flashReadLoop, if_pos hpos]
  dsimp only
  rw [hone, flashReadLoop, if_neg (by omega), List.append_nil]

/-- A page program that stays inside its page. -/
def InPage (p : ℕ × ℕ) : Prop := p.1 % flashPageSize + p.2 ≤ flashPageSize

/-- `s'` is `s` with `data` stored at `addr`, by page programs that stay inside their pages. -/
structure Stores (s : Nor) (addr : ℕ) (data : List UInt8) (s' : Nor) : Prop where
  cells : s'.cells = overlay s.cells addr data
  log : ∀ p ∈ s'.log, p ∈ s.log ∨ InPage p

/-- Stores of adjacent ranges compose. -/
theorem Stores.append {s s' s'' : Nor} {addr : ℕ} {data data' : List UInt8}
    (h : Stores s addr data s') (h' : Stores s' (addr + data.length) data' s'') :
    Stores s addr (data ++ data') s'' := by
  refine ⟨?_, ?_⟩
  · rw [h'.cells, h.cells, overlay_append]
  · intro p hp
    rcases h'.log p hp with hp | hp
    · exact h.log p hp
    · exact .inr hp

/-- Storing a part of the data and then the rest stores the data. -/
theorem Stores.take_drop {s s' s'' : Nor} {addr n : ℕ} {data : List UInt8} (hn : n ≤ data.length)
    (h : Stores s addr (data.take n) s') (h' : Stores s' (addr + n) (data.drop n) s'') :
    Stores s addr data s'' := by
  have htake : (data.take n).length = n := by
    rw [List.length_take]
    omega
  rw [← htake] at h'
  have happ := h.append h'
  rwa [htake, List.take_append_drop] at happ

/-- The flash holds `0xFF` in the `n` cells from `addr` on. -/
def Erased (s : Nor) (addr n : ℕ) : Prop := ∀ i < n, s.cells (addr + i) = 0xFF

/-- The first attempt to program erased cells is verified. -/
theorem programVerify_nor (j : ℕ) {s : Nor} (addr : ℕ) (data : List UInt8)
    (hpage : InPage (addr, data.length)) (hff : Erased s addr data.length)
    (hend : addr + data.length < 2 ^ 24) :
    ∃ s', programVerify nor (j + 1) s addr data = (s', j) ∧ Stores s addr data s' := by
  have hadr : addrBytes addr = addr := Nat.mod_eq_of_lt (by omega)
  have hcells := programCells_erased data hpage hff
  have hread :
      qSpiFlashRead nor (qSpiFlashWriteOnePage nor s addr data) addr data.length = data := by
    rw [qSpiFlashRead, flashReadLoop_nor _ _ _ _ (by omega), qSpiFlashWriteOnePage, hadr]
    change window (programCells s.cells addr data) addr (data.length - 0) = data
    rw [hcells]
    exact window_overlay
  refine ⟨qSpiFlashWriteOnePage nor s addr data, ?_, ?_, ?_⟩
  · rw [programVerify, if_pos hread]
  · rw [qSpiFlashWriteOnePage, hadr]
    exact hcells
  · intro p hp
    rw [qSpiFlashWriteOnePage, hadr] at hp
    rcases List.mem_append.mp hp with hp | hp
    · exact .inl hp
    · rw [List.mem_singleton.mp hp]
      exact .inr hpage

/-- The loop of `QSpiWriteAny` stores its data page by page. -/
theorem writeAnyLoop_nor (fuel : ℕ) {s : Nor} {addr pageremain : ℕ} (pData : List UInt8)
    (hfuel : pData.length < fuel)
    (hrem : pageremain = min pData.length (flashPageSize - addr % flashPageSize))
    (hff : Erased s addr pData.length) (hlen : pData.length < 2 ^ 16)
    (hend : addr + pData.length < 2 ^ 24) :
    ∃ s', writeAnyLoop nor fuel s addr pData pData.length pageremain = some (s', 0) ∧
      Stores s addr pData s' := by
  unfold flashPageSize at hrem
  induction fuel generalizing s addr pageremain pData with
  | zero => omega
  | succ fuel ih =>
    have htake : (pData.take pageremain).length = pageremain := by
      rw [List.length_take]
      omega
    obtain ⟨s₁, hprog, hst⟩ := programVerify_nor 9 (s := s) addr (pData.take pageremain)
      (by unfold InPage flashPageSize; dsimp only; omega) (fun i hi => hff i (by omega)) (by omega)
    rw [writeAnyLoop, hprog]
    dsimp only
    rw [if_neg (by decide)]
    by_cases hall : pData.length = pageremain
    · rw [if_pos hall]
      rw [List.take_of_length_le (Nat.le_of_eq hall)] at hst
      exact ⟨s₁, rfl, hst⟩
    · -- the page is full, and the rest starts at the next one
      rw [if_neg hall]
      have hadr : u32 ((addr : ℤ) + pageremain) = addr + pageremain := by
        rw [u32_of_lt (by omega) (by omega)]
        omega
      have hdrop : (pData.drop pageremain).length = pData.length - pageremain := List.length_drop
      have hcount : u16 ((pData.length : ℤ) - pageremain) = (pData.drop pageremain).length := by
        rw [u16_of_lt (by omega) (by omega), hdrop]
        omega
      rw [hadr, hcount]
      have hff' : Erased s₁ (addr + pageremain) (pData.drop pageremain).length := by
        intro i hi
        rw [hst.cells, overlay_of_ge (by omega), Nat.add_assoc]
        exact hff _ (by omega)
      obtain ⟨s₂, hloop, hst₂⟩ :=
        ih (pData.drop pageremain) (by omega) rfl hff' (by omega) (by omega)
      refine ⟨s₂, ?_, ?_⟩
      · rw [← hloop]
        congr 1
        unfold flashPageSize
        split_ifs <;> omega
      · exact hst.take_drop (by omega) hst₂

/-- `QSpiWriteAny` into erased cells stores its data and reports success. -/
theorem qSpiWriteAny_nor {s : Nor} {addr n : ℕ} {pData : List UInt8} (hn : pData.length = n)
    (hff : Erased s addr n) (hlen : n < 2 ^ 16) (hend : addr + n < 2 ^ 24) :
    ∃ s', qSpiWriteAny nor s addr pData n = some (s', 0) ∧ Stores s addr pData s' := by
  subst hn
  refine writeAnyLoop_nor _ pData (Nat.lt_succ_self _) ?_ hff hlen hend
  unfold flashPageSize
  rw [u16_of_lt (by omega) (by omega)]
  split_ifs <;> omega

end NuAgent.Flash
