import Mathlib.Tactic.Common
import NuAgent.Flash.Qspi
import NuAgent.Lib.Retry

/-!
# What the flash writes report

`QSpiWriteAny` and `QSpiWriteOneSector` program a page, read it back, and try again up to ten times
with `while (j--)`; then they test `j == 0`. A page that is verified by its last attempt leaves zero
in `j`, and a page that fails every attempt leaves the wrapped counter. So the test takes the first
for a failure and the second for a success. The verification outcomes are the device's: it is any
device.
-/

namespace NuAgent.Flash

open CInt Retry

/-! ## Pages -/

/-- The page fragments of a write: the rest of the first page, then whole pages, then what is
left. -/
def fragments (writeAddr : ℕ) (data : List UInt8) : List (ℕ × List UInt8) :=
  let room := flashPageSize - writeAddr % flashPageSize
  if data.length ≤ room then [(writeAddr, data)]
  else (writeAddr, data.take room) :: fragments (u32 (writeAddr + room)) (data.drop room)
termination_by data.length
decreasing_by
  have hroom : 0 < room := Nat.sub_pos_of_lt (Nat.mod_lt _ (by decide))
  rw [List.length_drop]
  omega

/-- The pages of a sector buffer. -/
def sectorPages : ℕ → ℕ → List UInt8 → List (ℕ × List UInt8)
  | 0, _, _ => []
  | pages + 1, writeAddr, pBuf =>
      (writeAddr, pBuf.take flashPageSize) ::
        sectorPages pages (u32 (writeAddr + flashPageSize)) (pBuf.drop flashPageSize)

/-- The fragments carry the data in order. -/
theorem fragments_data (writeAddr : ℕ) (data : List UInt8) :
    (fragments writeAddr data).flatMap Prod.snd = data := by
  fun_induction fragments writeAddr data with
  | case1 writeAddr data room hfit => simp
  | case2 writeAddr data room hfit ih => rw [List.flatMap_cons, ih, List.take_append_drop]

theorem sectorPages_data (pages writeAddr : ℕ) {pBuf : List UInt8}
    (hlen : pBuf.length = pages * flashPageSize) :
    (sectorPages pages writeAddr pBuf).flatMap Prod.snd = pBuf := by
  induction pages generalizing writeAddr pBuf with
  | zero =>
    rw [Nat.zero_mul] at hlen
    exact (List.eq_nil_of_length_eq_zero hlen).symm
  | succ pages ih =>
    rw [Nat.succ_mul] at hlen
    rw [sectorPages, List.flatMap_cons, ih, List.take_append_drop]
    rw [List.length_drop]
    omega

/-! ## Attempts -/

section
variable {σ : Type} (dev : Device σ)

/-- One attempt at a page: program it and read it back. -/
def pageAttempt (page : ℕ × List UInt8) (s : σ) : σ × Bool :=
  let s := qSpiFlashWriteOnePage dev s page.1 page.2
  (s, qSpiFlashRead dev s page.1 page.2.length == page.2)

/-- The outcomes of the pages, each tried up to ten times whatever became of the earlier ones. -/
def outcomes (pages : List (ℕ × List UInt8)) (s : σ) : List (Option ℕ) :=
  (runAll (pageAttempt dev) 10 pages s).2

/-- The outcome that the two functions take for a failure. -/
def lastAttempt (o : Option ℕ) : Bool := o == some 0

/-- `j` after the loop: the attempts left, or the wrapped counter. -/
theorem programVerify_eq (n : ℕ) (s : σ) (addr : ℕ) (data : List UInt8) :
    programVerify dev n s addr data =
      ((retry (pageAttempt dev) (addr, data) n s).1,
        (retry (pageAttempt dev) (addr, data) n s).2.getD (u16 (-1))) :=
  countdown_eq (f := fun j s => programVerify dev j s addr data) (fun _ => rfl) fun j s => by
    simp [programVerify, pageAttempt]

theorem programVerifyPage_eq (n : ℕ) (s : σ) (addr : ℕ) (data : List UInt8) :
    programVerifyPage dev n s addr data =
      ((retry (pageAttempt dev) (addr, data) n s).1,
        (retry (pageAttempt dev) (addr, data) n s).2.getD (u32 (-1))) :=
  countdown_eq (f := fun j s => programVerifyPage dev j s addr data) (fun _ => rfl) fun j s => by
    simp [programVerifyPage, pageAttempt]

/-- The test `j == 0`. -/
theorem getD_eq_zero_iff {o : Option ℕ} {w : ℕ} (hw : w ≠ 0) :
    o.getD w = 0 ↔ lastAttempt o = true := by
  cases o <;> simp [lastAttempt, hw]

/-- The pages are written up to the first one that takes its last attempt. -/
theorem writeSectorLoop_eq (pages : ℕ) (s : σ) (addr : ℕ) (pBuf : List UInt8) :
    writeSectorLoop dev pages s addr pBuf =
      ((runUntil (pageAttempt dev) lastAttempt 10 (sectorPages pages addr pBuf) s).1,
        if (runUntil (pageAttempt dev) lastAttempt 10 (sectorPages pages addr pBuf) s).2 then -1
        else 0) := by
  induction pages generalizing s addr pBuf with
  | zero => rfl
  | succ pages ih =>
    rw [writeSectorLoop, programVerifyPage_eq, sectorPages, runUntil]
    dsimp only
    rw [ih]
    by_cases hlast : lastAttempt
        (retry (pageAttempt dev) (addr, pBuf.take flashPageSize) 10 s).2 = true
    · rw [if_pos ((getD_eq_zero_iff (by decide)).mpr hlast), if_pos hlast]
      rfl
    · rw [if_neg fun hz => hlast ((getD_eq_zero_iff (by decide)).mp hz), if_neg hlast]

/-- The address behind the first fragment is the start of a page, also where it wraps. -/
theorem nextPage_mod (addr : ℕ) :
    u32 ((addr : ℤ) + (flashPageSize - addr % flashPageSize : ℕ)) % flashPageSize = 0 := by
  unfold flashPageSize u32 unsigned
  omega

/-- `QSpiWriteAny` is a run over the fragments, up to the first one that takes its last attempt. -/
theorem writeAnyLoop_eq (fuel : ℕ) (s : σ) (addr : ℕ) (pData : List UInt8)
    (hfuel : pData.length < fuel) (hlen : pData.length < 2 ^ 16) :
    writeAnyLoop dev fuel s addr pData pData.length
        (min pData.length (flashPageSize - addr % flashPageSize)) =
      some ((runUntil (pageAttempt dev) lastAttempt 10 (fragments addr pData) s).1,
        if (runUntil (pageAttempt dev) lastAttempt 10 (fragments addr pData) s).2 then -1
        else 0) := by
  induction fuel generalizing s addr pData with
  | zero => omega
  | succ fuel ih =>
    have hnext := nextPage_mod addr
    have hpos : 0 < flashPageSize - addr % flashPageSize :=
      Nat.sub_pos_of_lt (Nat.mod_lt _ (by decide))
    rw [writeAnyLoop, programVerify_eq, fragments]
    dsimp only
    set room := flashPageSize - addr % flashPageSize
    by_cases hall : pData.length ≤ room
    · -- the fragment is the last one
      rw [if_pos hall, Nat.min_eq_left hall, List.take_length, runUntil]
      by_cases hlast : lastAttempt (retry (pageAttempt dev) (addr, pData) 10 s).2 = true
      · rw [if_pos ((getD_eq_zero_iff (by decide)).mpr hlast), if_pos hlast]
        rfl
      · rw [if_neg fun hz => hlast ((getD_eq_zero_iff (by decide)).mp hz), if_pos rfl,
          if_neg hlast]
        rfl
    · rw [if_neg hall, Nat.min_eq_right (by omega), runUntil]
      by_cases hlast : lastAttempt
          (retry (pageAttempt dev) (addr, pData.take room) 10 s).2 = true
      · rw [if_pos ((getD_eq_zero_iff (by decide)).mpr hlast), if_pos hlast]
        rfl
      · have hdrop : (pData.drop room).length = pData.length - room := List.length_drop
        have hcount : u16 ((pData.length : ℤ) - room) = (pData.drop room).length := by
          rw [u16_of_lt (by omega) (by omega), hdrop]
          omega
        have hrem : (if (pData.drop room).length > flashPageSize then flashPageSize
              else (pData.drop room).length) =
            min (pData.drop room).length
              (flashPageSize - u32 ((addr : ℤ) + room) % flashPageSize) := by
          rw [hnext, Nat.sub_zero]
          split_ifs <;> omega
        have hne : ¬ pData.length = room := by omega
        rw [if_neg fun hz => hlast ((getD_eq_zero_iff (by decide)).mp hz), if_neg hne,
          if_neg hlast, hcount, hrem]
        exact ih _ _ _ (by omega) (by omega)

theorem qSpiWriteAny_eq (s : σ) (addr : ℕ) (pData : List UInt8) (hlen : pData.length < 2 ^ 16) :
    qSpiWriteAny dev s addr pData pData.length =
      some ((runUntil (pageAttempt dev) lastAttempt 10 (fragments addr pData) s).1,
        if (runUntil (pageAttempt dev) lastAttempt 10 (fragments addr pData) s).2 then -1
        else 0) := by
  have hrem : (if pData.length ≤ u16 ((flashPageSize : ℤ) - (addr : ℤ) % flashPageSize) then
        pData.length else u16 ((flashPageSize : ℤ) - (addr : ℤ) % flashPageSize)) =
      min pData.length (flashPageSize - addr % flashPageSize) := by
    unfold flashPageSize
    rw [u16_of_lt (by omega) (by omega)]
    split_ifs <;> omega
  rw [← writeAnyLoop_eq dev _ s addr pData (Nat.lt_succ_self _) hlen, ← hrem]
  rfl

end

/-! ## Recorded commands -/

/-- The commands that change a flash. -/
inductive Command
  | pageWrite (addr : ℕ) (data : List UInt8)
  | sectorErase (addr : ℕ)
deriving DecidableEq, Repr

/-- The device with a record of the commands it was given. -/
def Device.logged {σ : Type} (dev : Device σ) : Device (σ × List Command) where
  seqRead s a n := dev.seqRead s.1 a n
  pageWrite s a data := (dev.pageWrite s.1 a data, s.2 ++ [.pageWrite a data])
  sectorErase s a := (dev.sectorErase s.1 a, s.2 ++ [.sectorErase a])

/-- The command that programs a page. -/
def pageCommand (page : ℕ × List UInt8) : Command := .pageWrite (addrBytes page.1) page.2

section
variable {σ : Type} (dev : Device σ)

theorem qSpiFlashRead_logged (s : σ × List Command) (addr len : ℕ) :
    qSpiFlashRead dev.logged s addr len = qSpiFlashRead dev s.1 addr len := by
  have hloop : ∀ k a, flashReadLoop dev.logged s a len k = flashReadLoop dev s.1 a len k := by
    intro k a
    fun_induction flashReadLoop dev.logged s a len k with
    | case1 a k hmore rdCnt ih =>
      rw [ih]
      conv_rhs => rw [flashReadLoop, if_pos hmore]
      rfl
    | case2 a k hmore => rw [flashReadLoop, if_neg hmore]
  exact hloop 0 addr

theorem pageAttempt_logged :
    pageAttempt dev.logged = logging pageCommand (pageAttempt dev) := by
  funext page s
  simp only [pageAttempt, qSpiFlashRead_logged]
  rfl

/-- A run over the pages sends the commands up to the first page that takes its last attempt. -/
theorem runUntil_logged (pages : List (ℕ × List UInt8)) (s : σ) (log : List Command) :
    runUntil (pageAttempt dev.logged) lastAttempt 10 pages (s, log) =
      (((runUntil (pageAttempt dev) lastAttempt 10 pages s).1,
          log ++ sent pageCommand 10 (pages.take ((outcomes dev pages s).idxOf (some 0) + 1))
            (outcomes dev pages s)),
        (outcomes dev pages s).any lastAttempt) := by
  rw [pageAttempt_logged, runUntil_eq, runAll_logging, runAll_logging, runAll_take, sent_take,
    runUntil_eq]
  rfl

/-- `QSpiWriteOneSector` erases and then programs. -/
theorem qSpiWriteOneSector_logged (s : σ) (log : List Command) (sectorAddr : ℕ)
    (pBuf : List UInt8) :
    qSpiWriteOneSector dev.logged (s, log) sectorAddr pBuf =
      (((qSpiWriteOneSector dev s sectorAddr pBuf).1,
          log ++ [.sectorErase (addrBytes sectorAddr)] ++
            sent pageCommand 10
              ((sectorPages 16 sectorAddr pBuf).take
                ((outcomes dev (sectorPages 16 sectorAddr pBuf)
                  (qSpiFlashEraseSector dev s sectorAddr)).idxOf (some 0) + 1))
              (outcomes dev (sectorPages 16 sectorAddr pBuf)
                (qSpiFlashEraseSector dev s sectorAddr))),
        if (outcomes dev (sectorPages 16 sectorAddr pBuf)
          (qSpiFlashEraseSector dev s sectorAddr)).any lastAttempt then -1 else 0) := by
  have hlogged := writeSectorLoop_eq dev.logged 16
    (qSpiFlashEraseSector dev s sectorAddr, log ++ [.sectorErase (addrBytes sectorAddr)]) sectorAddr
    pBuf
  have hplain := writeSectorLoop_eq dev 16 (qSpiFlashEraseSector dev s sectorAddr) sectorAddr pBuf
  rw [runUntil_logged] at hlogged
  have hcall : (qSpiWriteOneSector dev s sectorAddr pBuf).1 = _ := congrArg Prod.fst hplain
  rw [hcall]
  exact hlogged

/-! ## The reports -/

/-- The report `ret` on pages with the outcomes `os` is true: it is `0` iff every page was verified,
and else it is `-1` and the commands `log` are among those of the pages up to the one that failed.
The commands `before` come before the pages. -/
structure Truthful (pages : List (ℕ × List UInt8)) (os : List (Option ℕ))
    (before log : List Command) (ret : ℤ) : Prop where
  zero_iff : ret = 0 ↔ none ∉ os
  stops : none ∈ os → ret = -1 ∧
    log <+: before ++ sent pageCommand 10 (pages.take (os.idxOf none + 1)) os

/-- Every page is verified with attempts left; or the first one that is not is verified by its last
attempt, and a later one would fail, so that giving up is right by accident. -/
def LastAttemptHarmless (os : List (Option ℕ)) : Prop :=
  (none ∉ os ∧ some 0 ∉ os) ∨ (none ∈ os ∧ os.idxOf (some 0) < os.idxOf none)

instance (os : List (Option ℕ)) : Decidable (LastAttemptHarmless os) :=
  inferInstanceAs (Decidable (_ ∨ _))

theorem any_lastAttempt (os : List (Option ℕ)) : os.any lastAttempt = true ↔ some 0 ∈ os := by
  simp [lastAttempt]

/-- What the two functions report is true iff the last attempt does no harm. -/
theorem truthful_iff (pages : List (ℕ × List UInt8)) (s : σ) (before : List Command) :
    Truthful pages (outcomes dev pages s) before
        (before ++ sent pageCommand 10 (pages.take ((outcomes dev pages s).idxOf (some 0) + 1))
          (outcomes dev pages s))
        (if (outcomes dev pages s).any lastAttempt then -1 else 0) ↔
      LastAttemptHarmless (outcomes dev pages s) := by
  have hlen : (outcomes dev pages s).length = pages.length := length_runAll
  have hpos : ∀ o ∈ outcomes dev pages s, 0 < used 10 o := fun o ho => used_pos (by decide) ho
  set os := outcomes dev pages s
  have hret : (if os.any lastAttempt then (-1 : ℤ) else 0) = 0 ↔ some 0 ∉ os := by
    rw [← any_lastAttempt]
    split_ifs <;> simp [*]
  have hret' : (if os.any lastAttempt then (-1 : ℤ) else 0) = -1 ↔ some 0 ∈ os := by
    rw [← any_lastAttempt]
    split_ifs <;> simp [*]
  have hne : none ∈ os → os.idxOf none ≠ os.idxOf (some 0) := by
    intro h heq
    exact Option.some_ne_none 0 ((List.idxOf_inj h).mp heq).symm
  by_cases hnone : none ∈ os
  · constructor
    · intro h
      obtain ⟨hminus, hpre⟩ := h.stops hnone
      have hmem := hret'.mp hminus
      have hlt := List.idxOf_lt_length_of_mem hmem
      rw [List.prefix_append_right_inj, sent_prefix_iff hlen hpos (by omega)] at hpre
      have := hne hnone
      exact .inr ⟨hnone, by omega⟩
    · rintro (⟨hnot, -⟩ | ⟨-, hlt⟩)
      · exact absurd hnone hnot
      · have hle := List.idxOf_lt_length_of_mem hnone
        have hmem : some 0 ∈ os := List.idxOf_lt_length_iff.mp (by omega)
        refine ⟨?_, fun _ => ⟨hret'.mpr hmem, ?_⟩⟩
        · rw [hret]
          exact iff_of_false (not_not.mpr hmem) (not_not.mpr hnone)
        · rw [List.prefix_append_right_inj, sent_prefix_iff hlen hpos (by omega)]
          omega
  · constructor
    · intro h
      exact .inl ⟨hnone, hret.mp (h.zero_iff.mpr hnone)⟩
    · rintro (⟨-, hzero⟩ | ⟨hmem, -⟩)
      · exact ⟨iff_of_true (hret.mpr hzero) hnone, fun h => absurd h hnone⟩
      · exact absurd hmem hnone

/-- `QSpiWriteAny` for any data that a 16-bit length counts, and `QSpiWriteOneSector` for any sector
buffer, report the truth about any device iff the last attempt does no harm. -/
theorem reports_iff (s : σ) :
    (∀ writeAddr, ∀ pData : List UInt8, pData.length < 2 ^ 16 → ∃ s' log ret,
      qSpiWriteAny dev.logged (s, []) writeAddr pData pData.length = some ((s', log), ret) ∧
      (Truthful (fragments writeAddr pData) (outcomes dev (fragments writeAddr pData) s) [] log ret ↔
        LastAttemptHarmless (outcomes dev (fragments writeAddr pData) s))) ∧
    ∀ sectorAddr, ∀ pBuf : List UInt8, pBuf.length = flashSectorSize → ∃ s' log ret,
      qSpiWriteOneSector dev.logged (s, []) sectorAddr pBuf = ((s', log), ret) ∧
      (Truthful (sectorPages 16 sectorAddr pBuf)
          (outcomes dev (sectorPages 16 sectorAddr pBuf) (qSpiFlashEraseSector dev s sectorAddr))
          [.sectorErase (addrBytes sectorAddr)] log ret ↔
        LastAttemptHarmless (outcomes dev (sectorPages 16 sectorAddr pBuf)
          (qSpiFlashEraseSector dev s sectorAddr))) := by
  refine ⟨fun writeAddr pData hlen => ?_, fun sectorAddr pBuf _ => ?_⟩
  · rw [qSpiWriteAny_eq _ _ _ _ hlen, runUntil_logged]
    exact ⟨_, _, _, rfl, truthful_iff dev _ s []⟩
  · rw [qSpiWriteOneSector_logged]
    exact ⟨_, _, _, rfl, truthful_iff dev _ _ _⟩

end

/-- A chip that takes no command and reads as zeros. -/
def deadChip : Device Unit where
  seqRead _ _ n := List.replicate n 0
  pageWrite s _ _ := s
  sectorErase s _ := s

/-- No attempt to program a one is verified. -/
theorem deadChip_outcomes (addr : ℕ) : outcomes deadChip [(addr, [1])] () = [none] := by
  have hfail : ∀ s, pageAttempt deadChip (addr, [1]) s = ((), false) := by
    intro s
    simp only [pageAttempt]
    rw [qSpiFlashRead_single deadChip _ _ (by decide) (by decide)]
    rfl
  have hretry : ∀ n s, retry (pageAttempt deadChip) (addr, [1]) n s = ((), none) := by
    intro n s
    induction n generalizing s with
    | zero => rfl
    | succ n ih =>
      rw [retry, hfail]
      exact ih ()
  simp [outcomes, runAll, hretry]

/-- On the dead chip the report about one byte is not true. -/
theorem reports_iff_dead : ∃ s' log ret,
    qSpiWriteAny deadChip.logged ((), []) 0 [1] 1 = some ((s', log), ret) ∧
      ¬ Truthful [(0, [1])] [none] [] log ret := by
  have hone : fragments 0 [1] = [(0, [1])] := by
    rw [fragments]
    rfl
  obtain ⟨s', log, ret, hcall, hiff⟩ := (reports_iff deadChip ()).1 0 [1] (by decide)
  rw [hone, deadChip_outcomes] at hiff
  exact ⟨s', log, ret, hcall, fun htrue => absurd (hiff.mp htrue) (by decide)⟩

/-- `QSpiWriteAny` reports that one byte was written to the dead chip. -/
theorem dead_chip_written : ¬ ∀ (dev : Device Unit) (writeAddr : ℕ) (pData : List UInt8),
    pData.length < 2 ^ 16 → ∃ s' log ret,
      qSpiWriteAny dev.logged ((), []) writeAddr pData pData.length = some ((s', log), ret) ∧
      Truthful (fragments writeAddr pData) (outcomes dev (fragments writeAddr pData) ()) [] log
        ret := by
  intro hall
  have hone : fragments 0 [1] = [(0, [1])] := by
    rw [fragments]
    rfl
  obtain ⟨s', log, ret, hcall, htrue⟩ := hall deadChip 0 [1] (by decide)
  rw [qSpiWriteAny_eq _ _ _ _ (by decide), hone, runUntil_logged, deadChip_outcomes] at hcall
  rw [hone, deadChip_outcomes] at htrue
  cases hcall
  exact absurd (htrue.zero_iff.mp rfl) (by decide)

end NuAgent.Flash
