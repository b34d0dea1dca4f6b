import NuAgent.Dhcp.Lease

/-!
# The addresses of the pool

Reference: `DHCPS_Start`.

The pool is computed from the server's own address by two steps of one rule: add, reduce modulo the
complement of the netmask, and take 1 for 0. The rule sends both the broadcast host part and the one
after it to 1, so a pool that runs over the end of the subnet has an address twice.
-/

namespace NuAgent.Dhcp

/-! ## Parts of an address -/

/-- The host part of an address in network order. -/
def hostPart (netmask addr : UInt32) : ℕ := (htonl addr &&& ~~~htonl netmask).toNat

/-- The subnet of an address in network order. -/
def subnetPart (netmask addr : UInt32) : UInt32 := htonl addr &&& htonl netmask

/-- The host part of the broadcast address: all ones. -/
def broadcastHost (netmask : UInt32) : ℕ := (~~~htonl netmask).toNat

/-- A netmask is ones followed by zeros. -/
def Contiguous (netmask : UInt32) : Prop := ∃ k ≤ 32, broadcastHost netmask + 1 = 2 ^ k

/-- The number of host parts other than zero and the broadcast one. -/
def usableHosts (netmask : UInt32) : ℕ := broadcastHost netmask - 1

/-- The pool of a server: different addresses of its subnet that hosts can have, and not its own. -/
structure UsablePool (netif : Netif) (t : Table) : Prop where
  distinct : ∀ i j, (t i).ipAddr = (t j).ipAddr → i = j
  subnet : ∀ i, subnetPart netif.netmask (t i).ipAddr = subnetPart netif.netmask netif.ipAddr
  ne_zero : ∀ i, hostPart netif.netmask (t i).ipAddr ≠ 0
  ne_broadcast : ∀ i, hostPart netif.netmask (t i).ipAddr ≠ broadcastHost netif.netmask
  ne_server : ∀ i, (t i).ipAddr ≠ netif.ipAddr

/-- The divisor is not zero, and no sum leaves 32 bits. -/
structure SafeSteps (netif : Netif) (startIpAddr : UInt32) : Prop where
  divisor : ~~~htonl netif.netmask ≠ 0
  start : hostPart netif.netmask netif.ipAddr + 1 < 2 ^ 32
  entry : ∀ i : ClientRef, hostPart netif.netmask startIpAddr + i < 2 ^ 32

/-! ## The rule -/

/-- `nextHost` on numbers, for the broadcast host part `b`. -/
def hostAfter (b h k : ℕ) : ℕ := if (h + k) % 2 ^ 32 % b ≠ 0 then (h + k) % 2 ^ 32 % b else 1

section
variable {x y mask : UInt32}

theorem and_or_mask : (x &&& mask ||| y) &&& ~~~mask = y &&& ~~~mask := by
  apply UInt32.eq_of_toBitVec_eq
  ext i hi
  simp only [UInt32.toBitVec_and, UInt32.toBitVec_or, UInt32.toBitVec_not, BitVec.getElem_and,
    BitVec.getElem_or, BitVec.getElem_not]
  grind

/-- A host part that fits is not cut by the mask. -/
theorem and_eq_self {k : ℕ} (hmask : (~~~mask).toNat + 1 = 2 ^ k) (hy : y.toNat < 2 ^ k) :
    y &&& ~~~mask = y := by
  apply UInt32.toNat_inj.mp
  have hb : (~~~mask).toNat = 2 ^ k - 1 := by omega
  rw [UInt32.toNat_and, hb, Nat.and_two_pow_sub_one_eq_mod, Nat.mod_eq_of_lt hy]

theorem or_and_mask (hy : y &&& ~~~mask = y) : (x &&& mask ||| y) &&& mask = x &&& mask := by
  rw [← hy]
  apply UInt32.eq_of_toBitVec_eq
  ext i hi
  simp only [UInt32.toBitVec_and, UInt32.toBitVec_or, UInt32.toBitVec_not, BitVec.getElem_and,
    BitVec.getElem_or, BitVec.getElem_not]
  grind

theorem nextHost_toNat (val mask k : UInt32) :
    (nextHost val mask k).toNat = hostAfter (~~~mask).toNat (val &&& ~~~mask).toNat k.toNat := by
  have hmod : ((((val &&& ~~~mask) + k) % ~~~mask).toNat) =
      ((val &&& ~~~mask).toNat + k.toNat) % 2 ^ 32 % (~~~mask).toNat := by
    rw [UInt32.toNat_mod, UInt32.toNat_add]
  have hzero : ((val &&& ~~~mask) + k) % ~~~mask ≠ 0 ↔
      ((val &&& ~~~mask).toNat + k.toNat) % 2 ^ 32 % (~~~mask).toNat ≠ 0 := by
    rw [← hmod, Ne, Ne, ← UInt32.toNat_inj]
    rfl
  unfold nextHost hostAfter
  simp only [hzero, ← hmod]
  split <;> rfl

end

/-- The host part that the rule gives is usable, whatever it starts from. -/
theorem hostAfter_usable {b : ℕ} (hb : 2 ≤ b) (h k : ℕ) :
    hostAfter b h k ≠ 0 ∧ hostAfter b h k < b := by
  have hlt := Nat.mod_lt ((h + k) % 2 ^ 32) (by omega : 0 < b)
  unfold hostAfter
  split <;> omega

/-- Below the end of the subnet the rule adds. -/
theorem hostAfter_of_lt {b h k : ℕ} (hb : b < 2 ^ 32) (hpos : 0 < h) (hlt : h + k < b) :
    hostAfter b h k = h + k := by
  rw [hostAfter, Nat.mod_eq_of_lt (by omega : h + k < 2 ^ 32), Nat.mod_eq_of_lt hlt,
    if_pos (by omega)]

/-- At the end of the subnet the rule starts again. -/
theorem hostAfter_end {b h k : ℕ} (hb : b < 2 ^ 32) (heq : h + k = b) : hostAfter b h k = 1 := by
  rw [hostAfter, heq, Nat.mod_eq_of_lt hb, Nat.mod_self, if_neg (by simp)]

/-- One step behind the end the rule gives the same host part once more. -/
theorem hostAfter_behind {b h k : ℕ} (hb : b < 2 ^ 32) (hb2 : 2 ≤ b) (heq : h + k = b + 1) :
    hostAfter b h k = 1 := by
  rw [hostAfter, heq]
  rcases Nat.lt_or_ge (b + 1) (2 ^ 32) with hlt | hge
  · rw [Nat.mod_eq_of_lt hlt, Nat.add_mod_left, Nat.mod_eq_of_lt (by omega : 1 < b),
      if_pos (by decide)]
  · have hwrap : (b + 1) % 2 ^ 32 = 0 := by
      have : b + 1 = 2 ^ 32 := by omega
      rw [this, Nat.mod_self]
    rw [hwrap, Nat.zero_mod, if_neg (by simp)]

/-! ## The pool that is stored -/

section
variable {netif : Netif} {t : Table}

/-- An address of the pool has the subnet of `val` and the host part the rule gives. -/
theorem poolAddr_parts {netmask : UInt32} (hmask : Contiguous netmask)
    (hb : 2 ≤ broadcastHost netmask) (val k : UInt32) :
    hostPart netmask (poolAddr val (htonl netmask) k) =
        hostAfter (broadcastHost netmask) (hostPart netmask (htonl val)) k.toNat ∧
      subnetPart netmask (poolAddr val (htonl netmask) k) = subnetPart netmask (htonl val) := by
  obtain ⟨n, -, hn⟩ := hmask
  have hhost := nextHost_toNat val (htonl netmask) k
  have hself : nextHost val (htonl netmask) k &&& ~~~htonl netmask =
      nextHost val (htonl netmask) k := by
    apply and_eq_self hn
    rw [hhost]
    have hlt := (hostAfter_usable hb (val &&& ~~~htonl netmask).toNat k.toNat).2
    unfold broadcastHost at hn hlt
    omega
  unfold hostPart subnetPart poolAddr
  rw [htonl_htonl, htonl_htonl]
  exact ⟨by rw [and_or_mask, hself, hhost]; rfl, or_and_mask hself⟩

/-- The host parts of a pool: a first one from the server's, and each entry's from the first. -/
structure HostsOf (netif : Netif) (startIpAddr : UInt32) (t : Table) : Prop where
  start : hostPart netif.netmask startIpAddr =
    hostAfter (broadcastHost netif.netmask) (hostPart netif.netmask netif.ipAddr) 1
  entry : ∀ i, hostPart netif.netmask (t i).ipAddr =
    hostAfter (broadcastHost netif.netmask) (hostPart netif.netmask startIpAddr) i
  subnet : ∀ i, subnetPart netif.netmask (t i).ipAddr = subnetPart netif.netmask netif.ipAddr

theorem initClients_hosts (hmask : Contiguous netif.netmask)
    (hb : 2 ≤ broadcastHost netif.netmask) :
    HostsOf netif (poolAddr (htonl netif.ipAddr) (htonl netif.netmask) 1)
      (initClients (poolAddr (htonl netif.ipAddr) (htonl netif.netmask) 1)
        (htonl netif.netmask)) := by
  obtain ⟨hstart, hsub⟩ := poolAddr_parts hmask hb (htonl netif.ipAddr) 1
  rw [htonl_htonl] at hstart hsub
  have hentry := fun i : ClientRef => poolAddr_parts hmask hb
    (htonl (poolAddr (htonl netif.ipAddr) (htonl netif.netmask) 1)) (UInt32.ofNat i)
  simp only [htonl_htonl] at hentry
  have hidx : ∀ i : ClientRef, (UInt32.ofNat i).toNat = i := by decide
  refine ⟨hstart, fun i => ?_, fun i => (hentry i).2.trans hsub⟩
  have h := (hentry i).1
  rw [hidx i] at h
  exact h

/-- Addresses of one subnet with one host part are the same. -/
theorem addr_eq {netmask a a' : UInt32} (hhost : hostPart netmask a = hostPart netmask a')
    (hsub : subnetPart netmask a = subnetPart netmask a') : a = a' := by
  have hsplit : ∀ x m : UInt32, x &&& m ||| x &&& ~~~m = x := by
    intro x m
    apply UInt32.eq_of_toBitVec_eq
    ext i hi
    simp only [UInt32.toBitVec_and, UInt32.toBitVec_or, UInt32.toBitVec_not, BitVec.getElem_and,
      BitVec.getElem_or, BitVec.getElem_not]
    grind
  have hbits : htonl a = htonl a' := by
    rw [← hsplit (htonl a) (htonl netmask), ← hsplit (htonl a') (htonl netmask),
      UInt32.toNat_inj.mp hhost]
    exact congrArg (· ||| _) hsub
  rw [← htonl_htonl a, hbits, htonl_htonl]

/-- Where the first host part leaves room for the others, the pool is usable. -/
theorem HostsOf.usable {startIpAddr : UInt32} (h : HostsOf netif startIpAddr t)
    (hb : 9 ≤ usableHosts netif.netmask) (hpos : hostPart netif.netmask netif.ipAddr ≠ 0)
    (hlt : hostPart netif.netmask netif.ipAddr < broadcastHost netif.netmask)
    (hroom : hostPart netif.netmask netif.ipAddr + 8 ≤ broadcastHost netif.netmask ∨
      hostPart netif.netmask netif.ipAddr + 1 = broadcastHost netif.netmask) :
    UsablePool netif t ∧ SafeSteps netif startIpAddr := by
  have hsize : broadcastHost netif.netmask < 2 ^ 32 := UInt32.toNat_lt _
  unfold usableHosts at hb
  -- the pool starts behind the server, or at 1 when the server has the last host part
  have hstart : hostPart netif.netmask startIpAddr = hostPart netif.netmask netif.ipAddr + 1 ∧
        hostPart netif.netmask netif.ipAddr + 8 ≤ broadcastHost netif.netmask ∨
      hostPart netif.netmask startIpAddr = 1 ∧
        hostPart netif.netmask netif.ipAddr + 1 = broadcastHost netif.netmask := by
    rw [h.start]
    rcases hroom with hroom | hroom
    · exact .inl ⟨hostAfter_of_lt hsize (by omega) (by omega), hroom⟩
    · exact .inr ⟨hostAfter_end hsize hroom, hroom⟩
  have hentry : ∀ i : ClientRef, hostPart netif.netmask (t i).ipAddr =
      if hostPart netif.netmask startIpAddr + i < broadcastHost netif.netmask then
        hostPart netif.netmask startIpAddr + i
      else 1 := by
    intro i
    have hi : (i : ℕ) < 8 := i.isLt
    rw [h.entry]
    split
    · next hin => exact hostAfter_of_lt hsize (by omega) hin
    · exact hostAfter_end hsize (by omega)
  have hother : ∀ i : ClientRef, hostPart netif.netmask (t i).ipAddr ≠
      hostPart netif.netmask netif.ipAddr := by
    intro i
    have hi : (i : ℕ) < 8 := i.isLt
    rw [hentry i]
    split <;> omega
  refine ⟨⟨fun i j hij => ?_, h.subnet, fun i => ?_, fun i => ?_, fun i heq => ?_⟩,
    ⟨fun hzero => ?_, by omega, fun i => ?_⟩⟩
  · have hi : (i : ℕ) < 8 := i.isLt
    have hj : (j : ℕ) < 8 := j.isLt
    have hhost := congrArg (hostPart netif.netmask) hij
    rw [hentry i, hentry j] at hhost
    apply Fin.ext
    split at hhost <;> split at hhost <;> omega
  · rw [hentry i]
    split <;> omega
  · rw [hentry i]
    split <;> omega
  · exact hother i (by rw [heq])
  · have hnone : broadcastHost netif.netmask = 0 := congrArg UInt32.toNat hzero
    omega
  · have hi : (i : ℕ) < 8 := i.isLt
    omega

/-- Elsewhere two entries next to each other get the host part 1. -/
theorem HostsOf.collide {startIpAddr : UInt32} (h : HostsOf netif startIpAddr t)
    (hb : 9 ≤ usableHosts netif.netmask)
    (hlt : hostPart netif.netmask netif.ipAddr < broadcastHost netif.netmask)
    (hroom : ¬ (hostPart netif.netmask netif.ipAddr + 8 ≤ broadcastHost netif.netmask ∨
      hostPart netif.netmask netif.ipAddr + 1 = broadcastHost netif.netmask)) :
    ∃ i j, i ≠ j ∧ (t i).ipAddr = (t j).ipAddr := by
  have hsize : broadcastHost netif.netmask < 2 ^ 32 := UInt32.toNat_lt _
  unfold usableHosts at hb
  have hstart : hostPart netif.netmask startIpAddr =
      hostPart netif.netmask netif.ipAddr + 1 := by
    rw [h.start, hostAfter_of_lt hsize (by omega) (by omega)]
  obtain ⟨k, hk⟩ : ∃ k, hostPart netif.netmask startIpAddr + k = broadcastHost netif.netmask :=
    ⟨broadcastHost netif.netmask - hostPart netif.netmask startIpAddr, by omega⟩
  have hk7 : k + 1 < historyClientNum := show k + 1 < 8 by omega
  have hk8 : k < historyClientNum := Nat.lt_of_succ_lt hk7
  have hend : hostPart netif.netmask (t ⟨k, hk8⟩).ipAddr = 1 := by
    rw [h.entry, hostAfter_end hsize hk]
  have hbehind : hostPart netif.netmask (t ⟨k + 1, hk7⟩).ipAddr = 1 := by
    rw [h.entry]
    exact hostAfter_behind hsize (by omega) (by rw [← hk, Nat.add_assoc])
  refine ⟨⟨k, hk8⟩, ⟨k + 1, hk7⟩, ?_, ?_⟩
  · intro heq
    exact absurd (congrArg Fin.val heq) (Nat.ne_of_lt (Nat.lt_succ_self k))
  · exact addr_eq (hend.trans hbehind.symm) ((h.subnet _).trans (h.subnet _).symm)

end

/-- The interface `192.168.1.249/24`, six host parts below the broadcast address. -/
def highNetif : Netif := { up := true, ipAddr := 0xf901a8c0, netmask := 0x00ffffff }

/-- At `192.168.1.249/24` two entries have the address `192.168.1.1`. -/
theorem pool_collides :
    let s := (dhcpsStart bootServer highNetif true).2
    (dhcpsStart bootServer highNetif true).1 = .success ∧
      9 ≤ usableHosts highNetif.netmask ∧ (s.clients 5).ipAddr = 0x0101a8c0 ∧
      (s.clients 6).ipAddr = 0x0101a8c0 ∧ ¬ UsablePool highNetif s.clients := by
  intro s
  refine ⟨rfl, by decide, by decide, by decide, fun h => ?_⟩
  exact absurd (h.distinct 5 6 (by decide)) (by decide)

/-- **Where `DHCPS_Start` builds a usable pool.** In a subnet with at least nine usable host parts,
the eight addresses are usable and different, and no step divides by zero or overflows, exactly when
the server's host part is at least eight below the broadcast one, or is the last one. -/
theorem pool_usable_iff (s₀ s : Server) (netif : Netif) (udpNew : Bool)
    (hstart : dhcpsStart s₀ netif udpNew = (.success, s)) (hmask : Contiguous netif.netmask)
    (hsize : 9 ≤ usableHosts netif.netmask) (hzero : hostPart netif.netmask netif.ipAddr ≠ 0)
    (hbroadcast : hostPart netif.netmask netif.ipAddr ≠ broadcastHost netif.netmask) :
    (UsablePool netif s.clients ∧ SafeSteps netif s.startIpAddr) ↔
      hostPart netif.netmask netif.ipAddr + 8 ≤ broadcastHost netif.netmask ∨
        hostPart netif.netmask netif.ipAddr + 1 = broadcastHost netif.netmask := by
  have hle : hostPart netif.netmask netif.ipAddr ≤ broadcastHost netif.netmask := by
    unfold hostPart broadcastHost
    rw [UInt32.toNat_and]
    exact Nat.and_le_right
  have hb : 2 ≤ broadcastHost netif.netmask := by
    unfold usableHosts at hsize
    omega
  have hhosts : HostsOf netif s.startIpAddr s.clients := by
    obtain ⟨-, -, haddr, hclients⟩ := dhcpsStart_success hstart
    rw [hclients, haddr]
    exact initClients_hosts hmask hb
  constructor
  · rintro ⟨hpool, -⟩
    by_contra hroom
    obtain ⟨i, j, hne, heq⟩ := hhosts.collide hsize (by omega) hroom
    exact hne (hpool.distinct i j heq)
  · exact fun hroom => hhosts.usable hsize hzero (by omega) hroom

/-- `pool_usable_iff` at `192.168.1.1/24`. -/
theorem pool_usable_boot :
    UsablePool bootNetif (dhcpsStart bootServer bootNetif true).2.clients :=
  ((pool_usable_iff bootServer _ bootNetif true rfl ⟨8, by decide, by decide⟩ (by decide)
    (by decide) (by decide)).mpr (.inl (by decide))).1

end NuAgent.Dhcp
