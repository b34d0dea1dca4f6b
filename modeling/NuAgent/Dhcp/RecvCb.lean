import NuAgent.Dhcp.Depend
import NuAgent.Dhcp.Options
import NuAgent.Lib.Overlay

/-!
# Receiving a datagram into the static message

`DHCPS_RecvCb` copies a datagram over the beginning of the static `DhcpMsg`, looks at the copied
length only to see that it is not zero, and reads the whole of `DhcpMsg`. What a short datagram
leaves of it is what an earlier message or reply left there.

Reference: `DHCPS_RecvCb`.
-/

namespace NuAgent.Dhcp

open Memory

/-- `pbuf_copy_partial` of a datagram to `DhcpMsg`, as far as it goes. -/
def pbufCopyPartial (mem : ℕ → UInt8) (d : List UInt8) : ℕ → UInt8 :=
  overlay mem 0 (d.take msgSize)

/-- `DHCPS_RecvCb`. The memory starts with the static `DhcpMsg`; the part of it behind `DhcpMsg` is
what a parse that runs over the end reads. -/
def dhcpsRecvCb (s : Server) (mem : ℕ → UInt8) (d : List UInt8) (pbufAlloc : Bool) :
    Server × Option DhcpMsg :=
  let pDhcpMsg := pbufCopyPartial mem d
  let msgLen := min d.length msgSize
  if msgLen = 0 ∨ pDhcpMsg 0 ≠ 1 ∨ htonl (wordAt pDhcpMsg 236) ≠ dhcpMagic ∨ pDhcpMsg 1 ≠ 1 then
    (s, none)
  else
    let r := parseDhcpOptions pDhcpMsg
    if r.ret &&& 0x01 = 0 then (s, none)
    else
      dhcpsRecvMsg s
        { macAddr := Vector.ofFn fun i : Fin 6 => pDhcpMsg (28 + i)
          msgType := r.msgType
          reqIpAddr := r.reqIpAddr
          serverId := r.serverId
          xid := htonl (wordAt pDhcpMsg 4) } pbufAlloc

/-! ## The filter -/

section
variable {g : ℕ → UInt8}

/-- The offsets of the bytes that are checked, and their values. -/
def headerBytes : List (ℕ × UInt8) :=
  [(0, 1), (1, 1), (236, 0x63), (237, 0x82), (238, 0x53), (239, 0x63)]

/-- The filter lets a message through. -/
def Accepted (g : ℕ → UInt8) : Prop := ∀ e ∈ headerBytes, g e.1 = e.2

instance (g : ℕ → UInt8) : Decidable (Accepted g) :=
  inferInstanceAs (Decidable (∀ e ∈ headerBytes, g e.1 = e.2))

/-- The magic number in memory, byte by byte. -/
def magicByte : ℕ → UInt8
  | 0 => 0x63
  | 1 => 0x82
  | 2 => 0x53
  | _ => 0x63

theorem magic_iff : htonl (wordAt g 236) = dhcpMagic ↔
    g 236 = 0x63 ∧ g 237 = 0x82 ∧ g 238 = 0x53 ∧ g 239 = 0x63 := by
  have hmagic : wordAt magicByte 0 = htonl dhcpMagic := by decide
  have hswap : htonl (wordAt g 236) = dhcpMagic ↔ wordAt g 236 = wordAt magicByte 0 := by
    rw [hmagic]
    exact ⟨fun h => by rw [← h, htonl_htonl], fun h => by rw [h, htonl_htonl]⟩
  rw [hswap, wordAt_eq_iff]
  constructor
  · exact fun h => ⟨h 0 (by decide), h 1 (by decide), h 2 (by decide), h 3 (by decide)⟩
  · rintro ⟨h0, h1, h2, h3⟩ j hj
    interval_cases j
    exacts [h0, h1, h2, h3]

theorem accepted_iff : Accepted g ↔
    ¬ (g 0 ≠ 1 ∨ htonl (wordAt g 236) ≠ dhcpMagic ∨ g 1 ≠ 1) := by
  rw [not_or, not_or, not_not, not_not, not_not, magic_iff]
  simp only [Accepted, headerBytes, List.forall_mem_cons, List.not_mem_nil, false_imp_iff,
    implies_true, and_true]
  exact ⟨fun ⟨h0, h1, hm⟩ => ⟨h0, hm, h1⟩, fun ⟨h0, hm, h1⟩ => ⟨h0, h1, hm⟩⟩

end

/-! ## What a datagram does -/

/-- The message in `DhcpMsg`, with its options at the given offsets. -/
def msgAt (g : ℕ → UInt8) (o : Offsets) : Msg where
  macAddr := Vector.ofFn fun i : Fin 6 => g (28 + i)
  msgType := (o.values g).msgType
  reqIpAddr := (o.values g).reqIpAddr
  serverId := (o.values g).serverId
  xid := htonl (wordAt g 4)

section
variable {s : Server} {mem : ℕ → UInt8} {d : List UInt8} {pbufAlloc : Bool}

theorem recvCb_nil : dhcpsRecvCb s mem [] pbufAlloc = (s, none) := by
  rw [dhcpsRecvCb]
  exact if_pos (.inl rfl)

theorem recvCb_rejected (h : ¬ Accepted (pbufCopyPartial mem d)) :
    dhcpsRecvCb s mem d pbufAlloc = (s, none) := by
  rw [accepted_iff, not_not] at h
  rw [dhcpsRecvCb]
  exact if_pos (.inr h)

/-- A message that is let through is handled by its options. -/
theorem recvCb_accepted (hd : d ≠ []) (h : Accepted (pbufCopyPartial mem d)) :
    dhcpsRecvCb s mem d pbufAlloc =
      if (walk (pbufCopyPartial mem d) optionsOffset {}).msgType = none then (s, none)
      else
        dhcpsRecvMsg s
          (msgAt (pbufCopyPartial mem d) (walk (pbufCopyPartial mem d) optionsOffset {}))
          pbufAlloc := by
  have hlen : min d.length msgSize ≠ 0 :=
    Nat.ne_of_gt (Nat.lt_min.mpr ⟨List.length_pos_iff.mpr hd, by decide⟩)
  rw [dhcpsRecvCb]
  dsimp only
  rw [if_neg (not_or.mpr ⟨hlen, accepted_iff.mp h⟩), parseDhcpOptions_eq]
  simp only [Offsets.ret_eq_zero_iff, msgAt]

/-- A datagram is answered when it is let through and asks for an answer. -/
theorem recvCb_isSome (hd : d ≠ []) : (dhcpsRecvCb s mem d true).2.isSome ↔
    Accepted (pbufCopyPartial mem d) ∧
      ∃ t, (walk (pbufCopyPartial mem d) optionsOffset {}).msgType = some t ∧
        pbufCopyPartial mem d t ≠ msgRelease ∧ pbufCopyPartial mem d t ≠ msgDecline := by
  by_cases hacc : Accepted (pbufCopyPartial mem d)
  · rw [recvCb_accepted hd hacc]
    cases htype : (walk (pbufCopyPartial mem d) optionsOffset {}).msgType with
    | none => simp
    | some t =>
      rw [if_neg (Option.some_ne_none t), dhcpsRecvMsg_isSome, msgAt, Offsets.values, htype]
      constructor
      · exact fun h => ⟨hacc, t, rfl, h⟩
      · rintro ⟨-, t', ht', h⟩
        obtain rfl := Option.some.inj ht'
        exact h
  · rw [recvCb_rejected hacc]
    exact ⟨fun h => absurd h Bool.false_ne_true, fun h => absurd h.1 hacc⟩

end

end NuAgent.Dhcp
