import NuAgent.Dhcp.RecvCb

/-!
# Stale bytes in the static message

Two runs on the same datagram differ only in what `DhcpMsg` held before it. `Determined` says of a
datagram that every byte the answer depends on is its own: it is filtered out by a byte of its own,
or it holds the whole header and enough of its options for the parser never to look for a code or a
length behind its end, its message type and, where they are used, the requested address and the
server identifier.
-/

namespace NuAgent.Dhcp

open Memory

/-! ## Datagrams that determine their answer -/

/-- The byte at offset `i` of a datagram. -/
def byteAt (d : List UInt8) (i : ℕ) : UInt8 := d.getD i 0

/-- The byte at offset `i` of `DhcpMsg` is not a stale one: it is the datagram's, or not part of
`DhcpMsg`. -/
def Known (d : List UInt8) (i : ℕ) : Prop := i < d.length ∨ msgSize ≤ i

/-- Every code and every length the parser looks at from `p` on is in the datagram. The length of an
option at the very end of `DhcpMsg` does not matter. -/
def settled (d : List UInt8) (p : ℕ) : Bool :=
  if p < msgSize then
    if d.length ≤ p then false
    else if byteAt d p = 255 then true
    else if byteAt d p = 0 then settled d (p + 1)
    else
      decide (p + 1 < d.length ∨ msgSize ≤ p + 2) && settled d (p + 2 + (byteAt d (p + 1)).toNat)
  else true
termination_by msgSize - p

/-- Where the values of the options are. -/
def offsets (d : List UInt8) : Offsets := walk (byteAt d) optionsOffset {}

/-- The message type at `t` may be one of the given ones; behind `DhcpMsg` anything may stand. -/
def MayBe (d : List UInt8) (t : ℕ) (types : List UInt8) : Prop := msgSize ≤ t ∨ byteAt d t ∈ types

/-- The word at an offset, if there is one, has no stale byte. -/
def WordKnown (d : List UInt8) (p : Option ℕ) : Prop := ∀ r ∈ p, ∀ j < 4, Known d (r + j)

/-- A byte of the datagram is one that the filter does not let through. -/
def Rejected (d : List UInt8) : Prop :=
  ∃ e ∈ headerBytes, e.1 < d.length ∧ byteAt d e.1 ≠ e.2

/-- Everything the answer depends on is in the datagram. -/
def Determined (d : List UInt8) : Prop :=
  d = [] ∨ Rejected d ∨
    optionsOffset ≤ d.length ∧ settled d optionsOffset = true ∧
      ∀ t ∈ (offsets d).msgType, Known d t ∧
        (MayBe d t [msgDiscover, msgRequest] → WordKnown d (offsets d).reqIpAddr) ∧
        (MayBe d t [msgRequest] → WordKnown d (offsets d).serverId)

section
variable {d : List UInt8} {mem mem' : ℕ → UInt8} {i p : ℕ} {o : Offsets}

instance (d : List UInt8) (i : ℕ) : Decidable (Known d i) := inferInstanceAs (Decidable (_ ∨ _))

instance (d : List UInt8) (t : ℕ) (types : List UInt8) : Decidable (MayBe d t types) :=
  inferInstanceAs (Decidable (_ ∨ _))

instance (d : List UInt8) (p : Option ℕ) : Decidable (WordKnown d p) :=
  inferInstanceAs (Decidable (∀ r ∈ p, ∀ j < 4, Known d (r + j)))

instance (d : List UInt8) : Decidable (Rejected d) :=
  inferInstanceAs (Decidable (∃ e ∈ headerBytes, _))

instance (d : List UInt8) : Decidable (Determined d) := inferInstanceAs (Decidable (_ ∨ _ ∨ _))

/-! ## The memory after the copy -/

/-- The memories agree behind `DhcpMsg`. -/
def SameBehind (mem mem' : ℕ → UInt8) : Prop := ∀ i, msgSize ≤ i → mem i = mem' i

theorem ne_nil_of_header (hlen : optionsOffset ≤ d.length) : d ≠ [] :=
  List.ne_nil_of_length_pos (Nat.lt_of_lt_of_le (by decide) hlen)

theorem copied_of_lt (hi : i < d.length) (hm : i < msgSize) :
    pbufCopyPartial mem d i = byteAt d i := by
  have hlt : i < (d.take msgSize).length := by
    rw [List.length_take]
    exact Nat.lt_min.mpr ⟨hm, hi⟩
  rw [pbufCopyPartial, overlay_zero hlt 0, byteAt, List.getD_eq_getElem?_getD,
    List.getD_eq_getElem?_getD, List.getElem?_take_of_lt hm]

theorem copied_of_ge (hi : d.length ≤ i ∨ msgSize ≤ i) : pbufCopyPartial mem d i = mem i := by
  apply overlay_of_ge
  rw [List.length_take]
  omega

theorem copied_congr (h : mem i = mem' i) : pbufCopyPartial mem d i = pbufCopyPartial mem' d i := by
  by_cases hi : i < d.length ∧ i < msgSize
  · rw [copied_of_lt hi.1 hi.2, copied_of_lt hi.1 hi.2]
  · have hge : d.length ≤ i ∨ msgSize ≤ i := by omega
    rw [copied_of_ge hge, copied_of_ge hge, h]

/-- A byte that is not stale is the same in both runs. -/
theorem Known.copied_eq (h : Known d i) (hs : SameBehind mem mem') :
    pbufCopyPartial mem d i = pbufCopyPartial mem' d i := by
  by_cases hm : i < msgSize
  · have hi : i < d.length := h.resolve_right (Nat.not_le.mpr hm)
    rw [copied_of_lt hi hm, copied_of_lt hi hm]
  · have hm : msgSize ≤ i := Nat.not_lt.mp hm
    rw [copied_of_ge (.inr hm), copied_of_ge (.inr hm), hs i hm]

theorem WordKnown.elim_eq {q : Option ℕ} (h : WordKnown d q) (hs : SameBehind mem mem') :
    q.elim 0 (wordAt (pbufCopyPartial mem d)) = q.elim 0 (wordAt (pbufCopyPartial mem' d)) := by
  cases q with
  | none => rfl
  | some r => exact wordAt_eq_iff.mpr fun j hj => (h r rfl j hj).copied_eq hs

/-! ## The parser on a settled datagram -/

/-- On a settled datagram the parser finds the same, whatever stands behind it. -/
theorem walk_of_settled (h : settled d p = true) :
    walk (pbufCopyPartial mem d) p o = walk (byteAt d) p o := by
  induction p using settled.induct d generalizing o with
  | case1 p hp hlen => simp [settled, hp, hlen] at h
  | case2 p hp hlen hend =>
    have hcode : pbufCopyPartial mem d p = byteAt d p := copied_of_lt (by omega) hp
    rw [walk_end (hcode.trans hend), walk_end hend]
  | case3 p hp hlen hend hpad ih =>
    have hcode : pbufCopyPartial mem d p = byteAt d p := copied_of_lt (by omega) hp
    rw [settled, if_pos hp, if_neg hlen, if_neg hend, if_pos hpad] at h
    rw [walk_pad (hcode.trans hpad) hp, walk_pad hpad hp, ih h]
  | case4 p hp hlen hend hpad ih =>
    have hcode : pbufCopyPartial mem d p = byteAt d p := copied_of_lt (by omega) hp
    rw [settled, if_pos hp, if_neg hlen, if_neg hend, if_neg hpad, Bool.and_eq_true,
      decide_eq_true_iff] at h
    obtain ⟨hbyte, hrest⟩ := h
    rw [walk_option (by rw [hcode]; exact hend) (by rw [hcode]; exact hpad) hp,
      walk_option hend hpad hp, hcode]
    by_cases hlast : p + 1 < d.length ∧ p + 1 < msgSize
    · rw [copied_of_lt hlast.1 hlast.2, ih hrest]
    · have hover : msgSize ≤ p + 2 := by omega
      rw [walk_behind (by omega), walk_behind (by omega)]
  | case5 p hp => rw [walk_behind (Nat.not_lt.mp hp), walk_behind (Nat.not_lt.mp hp)]

/-- Where a datagram is not settled, something can stand behind it for which the parser comes to a
stale byte. -/
theorem walks_of_not_settled (h : settled d p = false) (o : Offsets) :
    ∃ mem q o', Walks (pbufCopyPartial mem d) p o q o' ∧ d.length ≤ q ∧ q < msgSize := by
  induction p using settled.induct d generalizing o with
  | case1 p hp hlen => exact ⟨fun _ => 0, p, o, .refl, hlen, hp⟩
  | case2 p hp hlen hend => simp [settled, hp, hlen, hend] at h
  | case3 p hp hlen hend hpad ih =>
    rw [settled, if_pos hp, if_neg hlen, if_neg hend, if_pos hpad] at h
    obtain ⟨mem, q, o', hw, hq⟩ := ih h o
    refine ⟨mem, q, o', .pad hp ?_ hw, hq⟩
    rw [copied_of_lt (by omega) hp, hpad]
  | case4 p hp hlen hend hpad ih =>
    have hcode : ∀ mem, pbufCopyPartial mem d p = byteAt d p := fun mem =>
      copied_of_lt (by omega) hp
    rw [settled, if_pos hp, if_neg hlen, if_neg hend, if_neg hpad] at h
    by_cases hlast : p + 1 < d.length ∨ msgSize ≤ p + 2
    · rw [decide_eq_true hlast, Bool.true_and] at h
      by_cases hover : msgSize ≤ p + 2
      · rw [settled, if_neg (by omega)] at h
        exact absurd h Bool.false_ne_true.symm
      · have hlen1 : ∀ mem, pbufCopyPartial mem d (p + 1) = byteAt d (p + 1) := fun mem =>
          copied_of_lt (by omega) (by omega)
        obtain ⟨mem, q, o', hw, hq⟩ := ih h (o.record (byteAt d p) (p + 2))
        refine ⟨mem, q, o', .option hp ?_ ?_ ?_, hq⟩
        · rw [hcode]; exact hend
        · rw [hcode]; exact hpad
        · rw [hcode, hlen1]; exact hw
    · -- the length is stale: let it be zero
      refine ⟨fun _ => 0, p + 2, o.record (byteAt d p) (p + 2), .option hp ?_ ?_ ?_, by omega,
        by omega⟩
      · rw [hcode]; exact hend
      · rw [hcode]; exact hpad
      · rw [hcode, copied_of_ge (.inl (by omega))]
        exact .refl
  | case5 p hp => simp [settled, hp] at h

/-! ## The filter -/

theorem headerBytes_lt : ∀ e ∈ headerBytes, e.1 < optionsOffset := by decide

/-- A datagram with a byte that is filtered out is filtered out. -/
theorem Rejected.not_accepted (h : Rejected d) : ¬ Accepted (pbufCopyPartial mem d) := by
  obtain ⟨e, he, hlt, hne⟩ := h
  intro hacc
  have hm : e.1 < msgSize := Nat.lt_trans (headerBytes_lt e he) (by decide)
  exact hne (by rw [← copied_of_lt hlt hm, hacc e he])

/-- A datagram with no such byte is let through when the stale bytes are right. -/
theorem accepted_of_not_rejected (h : ¬ Rejected d)
    (hmem : ∀ e ∈ headerBytes, d.length ≤ e.1 → mem e.1 = e.2) :
    Accepted (pbufCopyPartial mem d) := by
  intro e he
  have hm : e.1 < msgSize := Nat.lt_trans (headerBytes_lt e he) (by decide)
  by_cases hlt : e.1 < d.length
  · rw [copied_of_lt hlt hm]
    by_contra hne
    exact h ⟨e, he, hlt, hne⟩
  · rw [copied_of_ge (.inl (Nat.not_lt.mp hlt)), hmem e he (Nat.not_lt.mp hlt)]

/-- A datagram with the whole header needs no stale bytes to be let through. -/
theorem accepted_of_length (h : ¬ Rejected d) (hlen : optionsOffset ≤ d.length) :
    Accepted (pbufCopyPartial mem d) :=
  accepted_of_not_rejected h fun e he hge =>
    absurd (headerBytes_lt e he) (Nat.not_lt.mpr (Nat.le_trans hlen hge))

/-! ## A determined datagram has one effect -/

/-- The byte at `t` tells what the message type may be. -/
theorem mayBe_of_mem {t : ℕ} {types : List UInt8} (hk : Known d t)
    (h : pbufCopyPartial mem d t ∈ types) : MayBe d t types := by
  by_cases hm : msgSize ≤ t
  · exact .inl hm
  · rw [copied_of_lt (hk.resolve_right hm) (Nat.not_le.mp hm)] at h
    exact .inr h

/-- A settled datagram with a message type is handled by the bytes at its offsets. -/
theorem recvCb_typed {s : Server} {pbufAlloc : Bool} {t : ℕ} (hrej : ¬ Rejected d)
    (hlen : optionsOffset ≤ d.length) (hset : settled d optionsOffset = true)
    (ht : (offsets d).msgType = some t) :
    dhcpsRecvCb s mem d pbufAlloc =
      dhcpsRecvMsg s (msgAt (pbufCopyPartial mem d) (offsets d)) pbufAlloc := by
  have hd : d ≠ [] := ne_nil_of_header hlen
  have hwalk : walk (pbufCopyPartial mem d) optionsOffset {} = offsets d := walk_of_settled hset
  rw [recvCb_accepted hd (accepted_of_length hrej hlen), hwalk, ht,
    if_neg (Option.some_ne_none t)]

theorem recvCb_of_determined {s : Server} {pbufAlloc : Bool} (h : Determined d)
    (hs : SameBehind mem mem') :
    dhcpsRecvCb s mem d pbufAlloc = dhcpsRecvCb s mem' d pbufAlloc := by
  rcases h with rfl | hrej | ⟨hlen, hset, htype⟩
  · rw [recvCb_nil, recvCb_nil]
  · rw [recvCb_rejected hrej.not_accepted, recvCb_rejected hrej.not_accepted]
  by_cases hrej : Rejected d
  · rw [recvCb_rejected hrej.not_accepted, recvCb_rejected hrej.not_accepted]
  have hhead : ∀ i < optionsOffset, pbufCopyPartial mem d i = pbufCopyPartial mem' d i :=
    fun i hi => Known.copied_eq (.inl (Nat.lt_of_lt_of_le hi hlen)) hs
  cases ht : (offsets d).msgType with
  | none =>
    have hd : d ≠ [] := ne_nil_of_header hlen
    have hwalk : ∀ mem, walk (pbufCopyPartial mem d) optionsOffset {} = offsets d :=
      fun mem => walk_of_settled hset
    rw [recvCb_accepted hd (accepted_of_length hrej hlen), hwalk, if_pos ht,
      recvCb_accepted hd (accepted_of_length hrej hlen), hwalk, if_pos ht]
  | some t =>
    obtain ⟨hk, hip, hid⟩ := htype t ht
    have hval : (msgAt (pbufCopyPartial mem d) (offsets d)).msgType = pbufCopyPartial mem d t := by
      rw [msgAt, Offsets.values, ht]
      rfl
    rw [recvCb_typed hrej hlen hset ht, recvCb_typed hrej hlen hset ht]
    refine dhcpsRecvMsg_congr s pbufAlloc ?_ ?_ ?_ (fun hty => ?_) fun hty => ?_
    · refine congrArg Vector.ofFn (funext fun i => hhead (28 + i) ?_)
      have hi := i.isLt
      show 28 + i.val < 240
      omega
    · rw [hval, hk.copied_eq hs, msgAt, Offsets.values, ht]
      rfl
    · refine congrArg htonl (wordAt_eq_iff.mpr fun j hj => hhead (4 + j) ?_)
      show 4 + j < 240
      omega
    · rw [hval] at hty
      exact (hip (mayBe_of_mem hk (by simpa using hty))).elim_eq hs
    · rw [hval] at hty
      exact (hid (mayBe_of_mem hk (by simpa using hty))).elim_eq hs

/-! ## A datagram with one effect is determined -/

/-- The datagram has the same effect on every server, whatever the buffer held before it. -/
def OneEffect (d : List UInt8) : Prop :=
  ∀ (s : Server) (mem mem' : ℕ → UInt8) (pbufAlloc : Bool), SameBehind mem mem' →
    dhcpsRecvCb s mem d pbufAlloc = dhcpsRecvCb s mem' d pbufAlloc

/-- Two memories that differ at a stale byte only. -/
theorem sameBehind_update {v w : UInt8} {m : ℕ} (hm : m < msgSize) (f : ℕ → UInt8) :
    SameBehind (Function.update f m v) (Function.update f m w) := by
  intro i hi
  have hne : i ≠ m := by omega
  rw [Function.update_of_ne hne, Function.update_of_ne hne]

/-- A buffer that completes every datagram without options to a `DISCOVER`. -/
def discover (i : ℕ) : UInt8 :=
  match i with
  | 0 => 1
  | 1 => 1
  | 236 => 0x63
  | 237 => 0x82
  | 238 => 0x53
  | 239 => 0x63
  | 240 => 53
  | 241 => 1
  | 242 => msgDiscover
  | _ => 255

theorem discover_walk (hlen : d.length ≤ optionsOffset) :
    walk (pbufCopyPartial discover d) optionsOffset {} = { msgType := some 242 } := by
  have hbyte : ∀ i, optionsOffset ≤ i → pbufCopyPartial discover d i = discover i :=
    fun i hi => copied_of_ge (.inl (Nat.le_trans hlen hi))
  have hcode : pbufCopyPartial discover d optionsOffset = 53 := hbyte _ (Nat.le_refl _)
  have hone : pbufCopyPartial discover d (optionsOffset + 1) = 1 := hbyte _ (by decide)
  have hend : pbufCopyPartial discover d 243 = 255 := hbyte _ (by decide)
  rw [walk_option (by rw [hcode]; decide) (by rw [hcode]; decide) (by decide), hcode, hone]
  exact walk_end hend

/-- A datagram with one effect that is not filtered out holds the header. -/
theorem OneEffect.length_le (h : OneEffect d) (hd : d ≠ []) (hrej : ¬ Rejected d) :
    optionsOffset ≤ d.length := by
  by_contra hshort
  have hshort : d.length < 240 := Nat.not_le.mp hshort
  have hdiscover : ∀ e ∈ headerBytes, discover e.1 = e.2 := by decide
  have hanswer : (dhcpsRecvCb bootServer discover d true).2.isSome := by
    rw [recvCb_isSome hd, discover_walk (Nat.le_of_lt hshort)]
    refine ⟨accepted_of_not_rejected hrej fun e he _ => hdiscover e he, 242, rfl, ?_⟩
    rw [copied_of_ge (.inl (by omega))]
    decide
  have hsilent : ¬ Accepted (pbufCopyPartial (Function.update discover 239 0) d) := by
    intro hacc
    have hbyte := hacc (239, 0x63) (by decide)
    rw [copied_of_ge (.inl (by omega)), Function.update_self] at hbyte
    exact absurd hbyte (by decide)
  have hsame : SameBehind discover (Function.update discover 239 0) := by
    intro i (hi : 548 ≤ i)
    rw [Function.update_of_ne (by omega)]
  rw [h bootServer _ _ true hsame, recvCb_rejected hsilent] at hanswer
  exact absurd hanswer Bool.false_ne_true

/-- What may stand behind a datagram for which the parser comes to `q`: a message type option there,
with the end behind it. -/
def askAt (mem : ℕ → UInt8) (q : ℕ) (type : UInt8) (i : ℕ) : UInt8 :=
  if i < q then mem i else if i = q then 53 else if i = q + 1 then 1
  else if i = q + 2 then type else 255

theorem askAt_walk {q : ℕ} {o' : Offsets} (hw : Walks (pbufCopyPartial mem d) p o q o')
    (hlen : d.length ≤ q) (hq : q < msgSize) (type : UInt8) :
    walk (pbufCopyPartial (askAt mem q type) d) p o = o'.record 53 (q + 2) := by
  have hbyte : ∀ i, q ≤ i → pbufCopyPartial (askAt mem q type) d i = askAt mem q type i :=
    fun i hi => copied_of_ge (.inl (Nat.le_trans hlen hi))
  have hcode : pbufCopyPartial (askAt mem q type) d q = 53 := by
    rw [hbyte q (Nat.le_refl q)]
    simp [askAt]
  have hone : pbufCopyPartial (askAt mem q type) d (q + 1) = 1 := by
    rw [hbyte (q + 1) (by omega)]
    simp [askAt]
  have hend : pbufCopyPartial (askAt mem q type) d (q + 3) = 255 := by
    rw [hbyte (q + 3) (by omega)]
    simp [askAt]
  have hsame : ∀ i < q, pbufCopyPartial mem d i = pbufCopyPartial (askAt mem q type) d i := by
    intro i hi
    apply copied_congr
    rw [askAt, if_pos hi]
  rw [(hw.congr hsame).walk_eq, walk_option (by rw [hcode]; decide) (by rw [hcode]; decide) hq,
    hcode, hone]
  exact walk_end hend

theorem endAt_walk {q : ℕ} {o' : Offsets} (hw : Walks (pbufCopyPartial mem d) p o q o')
    (hlen : d.length ≤ q) (type : UInt8) :
    walk (pbufCopyPartial (Function.update (askAt mem q type) q 255) d) p o = o' := by
  have hsame : ∀ i < q, pbufCopyPartial mem d i =
      pbufCopyPartial (Function.update (askAt mem q type) q 255) d i := by
    intro i hi
    apply copied_congr
    rw [Function.update_of_ne (Nat.ne_of_lt hi), askAt, if_pos hi]
  rw [(hw.congr hsame).walk_eq, walk_end]
  rw [copied_of_ge (.inl hlen), Function.update_self]

/-- A message type asked for at the stale byte decides whether there is an answer. -/
theorem askAt_isSome {q : ℕ} {o' : Offsets} (hrej : ¬ Rejected d) (hlen : optionsOffset ≤ d.length)
    (hw : Walks (pbufCopyPartial mem d) optionsOffset {} q o') (hdq : d.length ≤ q)
    (hq : q < msgSize) (s : Server) (type : UInt8) :
    (dhcpsRecvCb s (askAt mem q type) d true).2.isSome ↔
      type ≠ msgRelease ∧ type ≠ msgDecline := by
  have hval : pbufCopyPartial (askAt mem q type) d (q + 2) = type := by
    rw [copied_of_ge (.inl (by omega))]
    simp [askAt]
  rw [recvCb_isSome (ne_nil_of_header hlen), askAt_walk hw hdq hq type]
  constructor
  · rintro ⟨-, t, ht, hne⟩
    obtain rfl : q + 2 = t := Option.some.inj ht
    rwa [hval] at hne
  · exact fun hne => ⟨accepted_of_length hrej hlen, q + 2, rfl, by rwa [hval]⟩

/-- When the options end at the stale byte, what stands behind it does not matter. -/
theorem endAt_isSome {q : ℕ} {o' : Offsets} (hrej : ¬ Rejected d) (hlen : optionsOffset ≤ d.length)
    (hw : Walks (pbufCopyPartial mem d) optionsOffset {} q o') (hdq : d.length ≤ q) (s : Server)
    {type type' : UInt8}
    (h : (dhcpsRecvCb s (Function.update (askAt mem q type) q 255) d true).2.isSome) :
    (dhcpsRecvCb s (Function.update (askAt mem q type') q 255) d true).2.isSome := by
  rw [recvCb_isSome (ne_nil_of_header hlen), endAt_walk hw hdq] at h ⊢
  obtain ⟨-, t, ht, hne⟩ := h
  have htq : t ≤ q := (hw.msgType_le ht).resolve_left (Option.some_ne_none t).symm
  have hbyte : pbufCopyPartial (Function.update (askAt mem q type) q 255) d t =
      pbufCopyPartial (Function.update (askAt mem q type') q 255) d t := by
    apply copied_congr
    rcases Nat.lt_or_eq_of_le htq with hlt | rfl
    · rw [Function.update_of_ne (Nat.ne_of_lt hlt), Function.update_of_ne (Nat.ne_of_lt hlt),
        askAt, askAt, if_pos hlt, if_pos hlt]
    · rw [Function.update_self, Function.update_self]
  exact ⟨accepted_of_length hrej hlen, t, ht, by rwa [← hbyte]⟩

/-- A datagram with one effect that is not filtered out is settled. -/
theorem OneEffect.settled (h : OneEffect d) (hrej : ¬ Rejected d)
    (hlen : optionsOffset ≤ d.length) : settled d optionsOffset = true := by
  by_contra hns
  obtain ⟨mem, q, o', hw, hdq, hq⟩ := walks_of_not_settled (Bool.eq_false_iff.mpr hns) {}
  -- Ending at the stale byte and asking for a type there have the same effect.
  have hsame : ∀ type, dhcpsRecvCb bootServer (askAt mem q type) d true =
      dhcpsRecvCb bootServer (Function.update (askAt mem q type) q 255) d true := by
    intro type
    refine h bootServer _ _ true fun i hi => ?_
    rw [Function.update_of_ne (Nat.ne_of_gt (Nat.lt_of_lt_of_le hq hi))]
  have hask := askAt_isSome hrej hlen hw hdq hq bootServer
  have hanswer := (hask msgDiscover).mpr (by decide)
  rw [hsame] at hanswer
  have hrelease : (dhcpsRecvCb bootServer (askAt mem q msgRelease) d true).2.isSome := by
    rw [hsame]
    exact endAt_isSome hrej hlen hw hdq bootServer hanswer
  rw [hask] at hrelease
  exact absurd rfl hrelease.1

/-- The hypotheses on a datagram that is not filtered out and settled, with its message type. -/
structure Typed (d : List UInt8) (t : ℕ) : Prop where
  rejected : ¬ Rejected d
  length_le : optionsOffset ≤ d.length
  settled : settled d optionsOffset = true
  msgType : (offsets d).msgType = some t

variable {t : ℕ}

theorem Typed.recvCb_eq {s : Server} {pbufAlloc : Bool} (hd : Typed d t) :
    dhcpsRecvCb s mem d pbufAlloc =
      dhcpsRecvMsg s (msgAt (pbufCopyPartial mem d) (offsets d)) pbufAlloc :=
  recvCb_typed hd.rejected hd.length_le hd.settled hd.msgType

theorem Typed.msgType_eq (hd : Typed d t) :
    (msgAt (pbufCopyPartial mem d) (offsets d)).msgType = pbufCopyPartial mem d t := by
  rw [msgAt, Offsets.values, hd.msgType]
  rfl

/-- The message type of a datagram with one effect is not a stale byte. -/
theorem OneEffect.known (h : OneEffect d) (hd : Typed d t) : Known d t := by
  by_contra hk
  obtain ⟨hge, hlt⟩ : d.length ≤ t ∧ t < msgSize := by
    rw [Known] at hk
    omega
  have hask : ∀ type,
      (dhcpsRecvCb bootServer (Function.update (fun _ => 0) t type) d true).2.isSome ↔
        type ≠ msgRelease ∧ type ≠ msgDecline := by
    intro type
    rw [hd.recvCb_eq, dhcpsRecvMsg_isSome, hd.msgType_eq, copied_of_ge (.inl hge),
      Function.update_self]
  have hone := (hask 1).mpr (by decide)
  rw [h bootServer _ _ true (sameBehind_update hlt _), hask 7] at hone
  exact absurd rfl hone.1

/-- The message of a datagram when a stale byte is `v` and everything else behind it is `w`. -/
def staleMsg (d : List UInt8) (w : UInt8) (m : ℕ) (v : UInt8) : Msg :=
  msgAt (pbufCopyPartial (Function.update (fun _ => w) m v) d) (offsets d)

/-- The messages that differ in a stale byte are answered the same. -/
theorem OneEffect.staleMsg_eq (h : OneEffect d) (hd : Typed d t) {m : ℕ} (hm : m < msgSize)
    (w : UInt8) (s : Server) :
    dhcpsRecvMsg s (staleMsg d w m 0) true = dhcpsRecvMsg s (staleMsg d w m 1) true := by
  have heq := h s _ _ true (sameBehind_update (v := 0) (w := 1) hm fun _ => w)
  rwa [hd.recvCb_eq, hd.recvCb_eq] at heq

theorem Typed.staleMsg_mem {types : List UInt8} {m : ℕ} {v w : UInt8} (hd : Typed d t)
    (hk : Known d t) (hmay : MayBe d t types) (hw : w ∈ types) (hm : m < msgSize) :
    (staleMsg d w m v).msgType ∈ types := by
  rw [staleMsg, hd.msgType_eq]
  by_cases ht : msgSize ≤ t
  · rw [copied_of_ge (.inr ht), Function.update_of_ne (Nat.ne_of_gt (Nat.lt_of_lt_of_le hm ht))]
    exact hw
  · rw [copied_of_lt (hk.resolve_right ht) (Nat.not_le.mp ht)]
    exact hmay.resolve_left ht

theorem Typed.staleMsg_eq {m : ℕ} {v w : UInt8} (hd : Typed d t) (hk : Known d t)
    (hm : m < msgSize) (v' : UInt8) : (staleMsg d w m v).msgType = (staleMsg d w m v').msgType := by
  rw [staleMsg, staleMsg, hd.msgType_eq, hd.msgType_eq]
  exact hk.copied_eq (sameBehind_update hm _)

/-- A word with a stale byte is another word when that byte is. -/
theorem wordAt_ne {r j : ℕ} {f : ℕ → UInt8} (hj : j < 4) (hm : ¬ Known d (r + j)) {v w : UInt8}
    (hvw : v ≠ w) : wordAt (pbufCopyPartial (Function.update f (r + j) v) d) r ≠
      wordAt (pbufCopyPartial (Function.update f (r + j) w) d) r := by
  intro heq
  have hge : d.length ≤ r + j := Nat.not_lt.mp fun h => hm (.inl h)
  have hbyte := wordAt_eq_iff.mp heq j hj
  rw [copied_of_ge (.inl hge), copied_of_ge (.inl hge), Function.update_self,
    Function.update_self] at hbyte
  exact hvw hbyte

/-- A word with a stale byte is not zero when that byte is not. -/
theorem wordAt_ne_zero {r j : ℕ} {f : ℕ → UInt8} (hj : j < 4) (hm : ¬ Known d (r + j)) {v : UInt8}
    (hv : v ≠ 0) : wordAt (pbufCopyPartial (Function.update f (r + j) v) d) r ≠ 0 := by
  intro heq
  have hge : d.length ≤ r + j := Nat.not_lt.mp fun h => hm (.inl h)
  have hzero : wordAt (fun _ => 0) r = 0 := rfl
  have hbyte := wordAt_eq_iff.mp (heq.trans hzero.symm) j hj
  rw [copied_of_ge (.inl hge), Function.update_self] at hbyte
  exact hv hbyte

/-- The server identifier of a request with one effect has no stale byte. -/
theorem OneEffect.serverId_known (h : OneEffect d) (hd : Typed d t) (hk : Known d t)
    (hmay : MayBe d t [msgRequest]) : WordKnown d (offsets d).serverId := by
  intro r hr j hj
  by_contra hm
  have hlt : r + j < msgSize := Nat.not_le.mp fun h => hm (.inr h)
  have hid : ∀ v, (staleMsg d msgRequest (r + j) v).serverId =
      wordAt (pbufCopyPartial (Function.update (fun _ => msgRequest) (r + j) v) d) r := by
    intro v
    rw [staleMsg, msgAt, Offsets.values, Option.mem_def.mp hr]
    rfl
  have htype : ∀ v, (staleMsg d msgRequest (r + j) v).msgType = msgRequest := fun v =>
    List.mem_singleton.mp (hd.staleMsg_mem hk hmay (List.mem_singleton_self _) hlt)
  obtain ⟨s, hs⟩ := serverId_matters (htype 0) (htype 1)
    (by rw [hid, hid]; exact wordAt_ne hj hm (by decide))
    (by rw [hid]; exact wordAt_ne_zero hj hm (by decide))
  exact hs (h.staleMsg_eq hd hlt msgRequest s)

/-- The requested address of a datagram with one effect has no stale byte where it is used. -/
theorem OneEffect.reqIpAddr_known (h : OneEffect d) (hd : Typed d t) (hk : Known d t)
    (hmay : MayBe d t [msgDiscover, msgRequest]) : WordKnown d (offsets d).reqIpAddr := by
  intro r hr j hj
  by_contra hm
  have hlt : r + j < msgSize := Nat.not_le.mp fun h => hm (.inr h)
  have hip : ∀ v, (staleMsg d msgDiscover (r + j) v).reqIpAddr =
      wordAt (pbufCopyPartial (Function.update (fun _ => msgDiscover) (r + j) v) d) r := by
    intro v
    rw [staleMsg, msgAt, Offsets.values, Option.mem_def.mp hr]
    rfl
  have huse : (staleMsg d msgDiscover (r + j) 0).msgType = msgDiscover ∨
      (staleMsg d msgDiscover (r + j) 0).msgType = msgRequest ∧
        (staleMsg d msgDiscover (r + j) 0).serverId =
          (staleMsg d msgDiscover (r + j) 1).serverId := by
    have hmem := hd.staleMsg_mem (v := 0) hk hmay List.mem_cons_self hlt
    rcases List.mem_pair.mp hmem with hdisc | hreq
    · exact .inl hdisc
    · -- In a request the identifier is used too, so it is the same in both messages.
      refine .inr ⟨hreq, WordKnown.elim_eq (h.serverId_known hd hk ?_) (sameBehind_update hlt _)⟩
      rw [staleMsg, hd.msgType_eq] at hreq
      exact mayBe_of_mem hk (List.mem_singleton.mpr hreq)
  obtain ⟨s, hs⟩ := reqIpAddr_matters (hd.staleMsg_eq hk hlt 1) huse
    (by rw [hip, hip]; exact wordAt_ne hj hm (by decide))
  exact hs (h.staleMsg_eq hd hlt msgDiscover s)

end

/-- A datagram as long as `DhcpMsg` leaves nothing of what it held before. -/
theorem oneEffect_of_full {d : List UInt8} (hd : msgSize ≤ d.length) : OneEffect d := by
  intro s mem mem' pbufAlloc hs
  have hmem : pbufCopyPartial mem d = pbufCopyPartial mem' d := by
    funext i
    have hk : Known d i := by
      rw [Known]
      omega
    exact hk.copied_eq hs
  rw [dhcpsRecvCb, dhcpsRecvCb, hmem]

/-- A datagram has the same effect on every server after any two histories of the buffer exactly
when it is determined. -/
theorem oneEffect_iff_determined (d : List UInt8) : OneEffect d ↔ Determined d := by
  constructor
  · intro h
    by_cases hd : d = []
    · exact .inl hd
    by_cases hrej : Rejected d
    · exact .inr (.inl hrej)
    have hlen := h.length_le hd hrej
    have hset := h.settled hrej hlen
    refine .inr (.inr ⟨hlen, hset, fun t ht => ?_⟩)
    have htyped : Typed d t := ⟨hrej, hlen, hset, ht⟩
    have hk := h.known htyped
    exact ⟨hk, h.reqIpAddr_known htyped hk, h.serverId_known htyped hk⟩
  · exact fun h s mem mem' pbufAlloc hs => recvCb_of_determined h hs

/-- A datagram of two bytes is answered when an earlier `DISCOVER` stands behind it, and is not when
the buffer was zero. -/
theorem recvCb_completed :
    SameBehind discover (fun i => if i < msgSize then 0 else 255) ∧
      dhcpsRecvCb bootServer discover [1, 1] true ≠
        dhcpsRecvCb bootServer (fun i => if i < msgSize then 0 else 255) [1, 1] true := by
  have hbehind : ∀ i, 243 ≤ i → discover i = 255 := by
    intro i hi
    unfold discover
    split <;> first | omega | rfl
  refine ⟨fun i hi => ?_, fun heq => ?_⟩
  · show discover i = if i < msgSize then 0 else 255
    rw [if_neg (Nat.not_lt.mpr hi), hbehind i (Nat.le_trans (by decide) hi)]
  · have hanswer : (dhcpsRecvCb bootServer discover [1, 1] true).2.isSome := by
      rw [recvCb_isSome (by decide), discover_walk (by decide)]
      exact ⟨by decide, 242, rfl, by decide⟩
    rw [heq, recvCb_rejected (by decide)] at hanswer
    exact absurd hanswer Bool.false_ne_true

end NuAgent.Dhcp
