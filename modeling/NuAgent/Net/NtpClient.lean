import NuAgent.Dhcp.Table
import NuAgent.Net.SysArch

/-!
# The clock set by the NTP client

Reference: `App/NuAgent/Lib/ntp_client.c`.

The date is kept in the tick counter of the system, as ticks since 30 November 2014: setting the
clock scales the seconds to ticks, and reading it scales the ticks back.
-/

namespace NuAgent.Net

open CInt
open Ticks
open NuAgent.Dhcp (htonl htonl_htonl)

/-! ## The source -/

/-- `JAN_1970`. -/
abbrev jan1970 : UInt32 := 0x83aa7e80

/-- `NTPTIME`, in network byte order. -/
structure NtpTime where
  coarse : UInt32
  fine : UInt32

/-- The field of `NTPPACKED` that the client reads. -/
structure NtpPacked where
  trantime : NtpTime

/-- `struct timeval`; both fields are `long`. -/
structure Timeval where
  tvSec : ℤ
  tvUsec : ℤ

/-- `USEC`. -/
def usec (x : UInt32) : UInt32 :=
  x >>> (12 : UInt32) - (759 : UInt32) * ((x >>> (10 : UInt32) + 32768) >>> (16 : UInt32))

/-- `GetSynTimeFromNtpPacked`. -/
def getSynTimeFromNtpPacked (pSynNtpPacked : NtpPacked) : Timeval :=
  let trantime : NtpTime :=
    ⟨htonl pSynNtpPacked.trantime.coarse, htonl pSynNtpPacked.trantime.fine⟩
  { tvSec := i32 (trantime.coarse - jan1970).toNat
    tvUsec := i32 (usec trantime.fine).toNat }

/-- `GetLocalTime`, from what `OSTimeGet` gives. -/
def getLocalTime (osTime : UInt32) : Timeval :=
  let ticks := osTime
  { tvSec := i32 (ticks / osTicksPerSec).toNat + 1417305600 + 28800
    tvUsec := i32 (ticks % osTicksPerSec / osTicksPerSec * 1000).toNat }

/-- `ModifyLocalTime`, up to what `OSTimeSet` gets. -/
def modifyLocalTime (tv : Timeval) : UInt32 :=
  let time := UInt32.ofNat (u32 (tv.tvSec - 1417305600))
  time * osTicksPerSec

/-! ## Setting and reading -/

/-- The seconds of a date, as the 32 bits of its `tv_sec` without a sign. -/
def seconds (tv : Timeval) : ℕ := u32 tv.tvSec

/-- A 32-bit word read as a `long` keeps its bits. -/
theorem u32_i32 (x : UInt32) : u32 (i32 x.toNat) = x.toNat := by
  have hx := x.toNat_lt
  unfold i32 u32 unsigned
  split <;> omega

theorem seconds_getSynTime (p : NtpPacked) :
    seconds (getSynTimeFromNtpPacked p) = (htonl p.trantime.coarse - jan1970).toNat :=
  u32_i32 _

/-- Every date can be received. -/
theorem seconds_surjective (x : UInt32) :
    ∃ p, seconds (getSynTimeFromNtpPacked p) = x.toNat := by
  refine ⟨⟨htonl (x + jan1970), 0⟩, ?_⟩
  rw [seconds_getSynTime, htonl_htonl, UInt32.add_sub_cancel]

/-- The clock tells the ticks in whole seconds. -/
theorem seconds_getLocalTime (osTime : UInt32) :
    seconds (getLocalTime osTime) = osTime.toNat / 100 + 1417305600 + 28800 := by
  have ho := osTime.toNat_lt
  have hd : (osTime / osTicksPerSec).toNat = osTime.toNat / 100 := by
    rw [UInt32.toNat_div]
    rfl
  simp only [seconds, getLocalTime, hd]
  rw [i32_of_lt (by omega), u32_of_lt (by omega) (by omega)]
  omega

/-- The fraction of a second is divided away before it is scaled. -/
theorem getLocalTime_tvUsec (osTime : UInt32) : (getLocalTime osTime).tvUsec = 0 := by
  have hz : (osTime % osTicksPerSec / osTicksPerSec * 1000).toNat = 0 := by
    have hd : osTime.toNat % 100 / 100 = 0 := by omega
    rw [UInt32.toNat_mul, UInt32.toNat_div, UInt32.toNat_mod, toNat_osTicksPerSec,
      hd, Nat.zero_mul]
  simp only [getLocalTime, hz]
  rfl

/-- The counter is set to the wrapped number of ticks since its epoch. -/
theorem toNat_modifyLocalTime {tv : Timeval} (h : 1417305600 ≤ seconds tv) :
    (modifyLocalTime tv).toNat = (seconds tv - 1417305600) * 100 % 2 ^ 32 := by
  have hs : u32 (tv.tvSec - 1417305600) = seconds tv - 1417305600 := by
    unfold seconds u32 unsigned at *
    omega
  have hlt : seconds tv < 2 ^ 32 := by
    unfold seconds u32 unsigned
    omega
  rw [modifyLocalTime, UInt32.toNat_mul, hs, toNat_osTicksPerSec, UInt32.toNat_ofNat_of_lt' (by
    rw [UInt32.size]
    omega)]

/-- The counter holds the date if its ticks do not wrap. -/
theorem modifyLocalTime_div_iff {tv : Timeval} (h : 1417305600 ≤ seconds tv) :
    (modifyLocalTime tv).toNat / 100 = seconds tv - 1417305600 ↔ seconds tv ≤ 1460255272 := by
  have hiff := scaled_eq_iff (n := (seconds tv - 1417305600) * 100) (m := 2 ^ 32) (d := 100)
    (by omega) (by omega)
  rw [toNat_modifyLocalTime h]
  omega

/-- The clock that was set to a date tells it, eight hours on, and after `t` ticks the seconds of
these more. -/
def KeepsTime (tv : Timeval) : Prop :=
  ∀ t, (modifyLocalTime tv).toNat + t < 2 ^ 32 →
    seconds (getLocalTime (after (modifyLocalTime tv) t)) = seconds tv + 28800 + t / 100

/-- The clock keeps the time of a reply, of those the range of `tv_sec` leaves, exactly if its ticks
since the epoch fit in the counter, that is up to 10 April 2016. -/
theorem keepsTime_iff (p : NtpPacked) (h : 1417305600 ≤ seconds (getSynTimeFromNtpPacked p))
    (hlast : seconds (getSynTimeFromNtpPacked p) ≤ 2 ^ 32 - 1 - 28800) :
    KeepsTime (getSynTimeFromNtpPacked p) ↔
      seconds (getSynTimeFromNtpPacked p) ≤ 1460255272 := by
  have hset := modifyLocalTime_div_iff h
  have hticks := toNat_modifyLocalTime h
  constructor
  · intro hkeeps
    have h0 := hkeeps 0 (UInt32.toNat_lt _)
    rw [seconds_getLocalTime, toNat_after] at h0
    have hlt := (modifyLocalTime (getSynTimeFromNtpPacked p)).toNat_lt
    omega
  · intro hle t ht
    rw [seconds_getLocalTime, toNat_after, Nat.mod_eq_of_lt ht]
    -- the ticks are whole seconds, so that the further ones are counted from a full second
    omega

/-- A reply with the first date of the clock. -/
theorem keepsTime_epoch :
    KeepsTime (getSynTimeFromNtpPacked ⟨⟨htonl (jan1970 + 1417305600), 0⟩⟩) :=
  (keepsTime_iff _ (by decide) (by decide)).2 (by decide)

/-- The first second that the counter does not hold is told as the epoch. -/
theorem wraps_to_epoch :
    ¬ ∀ p : NtpPacked, 1417305600 ≤ seconds (getSynTimeFromNtpPacked p) →
      seconds (getSynTimeFromNtpPacked p) ≤ 2 ^ 32 - 1 - 28800 →
        KeepsTime (getSynTimeFromNtpPacked p) := by
  intro hall
  have h := hall ⟨⟨htonl (jan1970 + 1460255273), 0⟩⟩ (by decide) (by decide) 0 (by decide)
  revert h
  decide

end NuAgent.Net
