import NuAgent.Dhcp.Offer

/-!
# The lifetime of entries

Every entry that is not idle has a running counter, so that none of the eight addresses is lost: the
tick handler passes over `SELECT` and over counters that are zero, and neither is ever there between
two events. An offer that its client leaves alone is therefore over at its tenth tick.
-/

namespace NuAgent.Dhcp

/-! ## Counters -/

/-- The entry is not in `SELECT`, and its counter runs when it is offered or leased. -/
structure Client.Timed (c : Client) : Prop where
  not_select : c.state ≠ .select
  timeout : c.state = .request → 1 ≤ c.timeout ∧ c.timeout ≤ defaultTimeout
  lease : c.state = .bind → 1 ≤ c.lease ∧ c.lease ≤ defaultLeaseTime

/-- Every entry of a table has a running counter. -/
def Table.Timed (t : Table) : Prop := ∀ i, (t i).Timed

theorem Client.Idle.timed {c : Client} (h : c.Idle) : c.Timed := by
  refine ⟨?_, ?_, ?_⟩ <;> rw [h] <;> simp

theorem Table.Timed.update {t : Table} (h : t.Timed) {i : ClientRef} {c : Client} (hc : c.Timed) :
    Table.Timed (Function.update t i c) := by
  intro j
  rcases eq_or_ne j i with rfl | hne
  · rw [Function.update_self]
    exact hc
  · rw [Function.update_of_ne hne]
    exact h j

theorem LookupEffect.timed {t t' : Table} {mac : MacAddr} {r : Option ClientRef}
    (h : LookupEffect t mac r t') (ht : t.Timed) : t'.Timed := by
  cases h with
  | keep => exact ht
  | drop => exact ht.update (Client.drop_idle _).timed
  | renew => exact ht
  | @restart i => exact ht.update (c := { t i with state := .idle }) (Client.Idle.timed rfl)
  | @assign j hj => exact ht.update (c := { t j with macAddr := mac }) (Client.Idle.timed hj)
  | @move i j _ hj c hc =>
    exact (ht.update hc.timed).update (c := { t j with macAddr := mac }) (Client.Idle.timed hj)

theorem cleanClientHistory_timed {mac : MacAddr} {t : Table} (ht : t.Timed) :
    (cleanClientHistory mac t).Timed := by
  intro i
  unfold cleanClientHistory
  split_ifs with hidle
  · exact Client.Idle.timed (c := { t i with macAddr := zeroMac }) hidle.1
  · exact ht i

/-- A message starts the counter of the entry it activates. -/
theorem RecvEffect.timed {s : Server} {m : Msg} {pbufAlloc : Bool} {r : Server × Option DhcpMsg}
    (h : RecvEffect s m pbufAlloc r) (hs : s.clients.Timed) : r.1.clients.Timed := by
  cases h with
  | refused h => exact h.timed hs
  | @offered i t h =>
    refine (h.timed hs).update ⟨by simp, fun _ => ⟨?_, Nat.le_refl defaultTimeout⟩, by simp⟩
    show 1 ≤ defaultTimeout
    decide
  | @acked i t h =>
    refine cleanClientHistory_timed ((h.timed hs).update
      ⟨by simp, by simp, fun _ => ⟨?_, Nat.le_refl defaultLeaseTime⟩⟩)
    show 1 ≤ defaultLeaseTime
    decide

/-- A tick lets an entry go when its counter is over. -/
theorem tickClient_timed {c : Client} (h : c.Timed) (status : UInt8) :
    (tickClient status c).Timed := by
  cases hs : c.state with
  | idle =>
    rw [tickClient, hs]
    exact h
  | select => exact absurd hs h.not_select
  | request =>
    obtain ⟨hpos, hle⟩ := h.timeout hs
    by_cases hlast : c.timeout = 1
    · rw [tickClient, hs]
      dsimp only
      rw [if_pos (by omega), if_pos (by omega)]
      exact Client.Idle.timed rfl
    · rw [tickClient_request status hs (by omega)]
      refine ⟨h.not_select, fun _ => ⟨?_, ?_⟩, fun hbind => ?_⟩
      · show 1 ≤ c.timeout - 1
        omega
      · show c.timeout - 1 ≤ defaultTimeout
        omega
      · exact absurd (hs.symm.trans hbind) (by decide)
  | bind =>
    obtain ⟨hpos, hle⟩ := h.lease hs
    rw [tickClient, hs]
    dsimp only
    rw [if_pos (by omega : c.lease ≠ 0)]
    split_ifs with hlast
    · exact Client.Idle.timed rfl
    · exact Client.Idle.timed rfl
    · have hrest : c.lease - 1 ≠ 0 := fun h0 => hlast ⟨by omega, h0⟩
      refine ⟨by simp, by simp, fun _ => ⟨?_, ?_⟩⟩
      · show 1 ≤ c.lease - 1
        omega
      · show c.lease - 1 ≤ defaultLeaseTime
        omega

/-- One event keeps the counters running. -/
theorem Server.step_timed {s : Server} (hs : s.clients.Timed) (e : Event) :
    (s.step e).clients.Timed := by
  cases e with
  | recv m pbufAlloc => exact (dhcpsRecvMsg_effect s m pbufAlloc).timed hs
  | tick status =>
    simp only [Server.step, dhcpTickHandle]
    split
    · exact hs
    · exact fun i => tickClient_timed (hs i) (status i)
  | delete mac =>
    simp only [Server.step]
    rcases dhcpsClientDelete_cases s mac with h | ⟨i, -, -, h⟩
    · rw [h]
      exact hs
    · rw [h]
      exact hs.update (c := { s.clients i with state := .idle }) (Client.Idle.timed rfl)

theorem Server.run_timed {s : Server} (hs : s.clients.Timed) (evs : List Event) :
    (s.run evs).clients.Timed := by
  induction evs generalizing s with
  | nil => exact hs
  | cons e evs ih => exact ih (Server.step_timed hs e)

/-! ## The tenth tick -/

/-- Entry `k` is offered to `mac` at address `ip`, and its counter is at `n` on a running server. -/
structure Pending (s : Server) (mac : MacAddr) (ip : UInt32) (k : ClientRef) (n : ℕ) : Prop where
  enable : s.enable = true
  state : (s.clients k).state = .request
  macAddr : (s.clients k).macAddr = mac
  ipAddr : (s.clients k).ipAddr = ip
  timeout : (s.clients k).timeout = n

theorem Server.step_enable (s : Server) (e : Event) : (s.step e).enable = s.enable := by
  rw [s.step_record e]

section
variable {s : Server} {mac : MacAddr} {ip : UInt32} {k : ClientRef} {n : ℕ} {e : Event}

/-- Only the entry of the offer matters. -/
theorem Pending.of_entry_eq (h : Pending s mac ip k n) (he : (s.step e).clients k = s.clients k) :
    Pending (s.step e) mac ip k n := by
  refine ⟨(s.step_enable e).trans h.enable, ?_, ?_, ?_, ?_⟩ <;> rw [he]
  exacts [h.state, h.macAddr, h.ipAddr, h.timeout]

/-- An event that leaves the offer alone takes exactly its tick from it. -/
theorem Pending.step (h : Pending s mac ip k (n + 1 + e.ticks)) (he : e.LeavesOffer mac) :
    Pending (s.step e) mac ip k (n + 1) := by
  cases e with
  | recv m pbufAlloc =>
    rw [← h.macAddr] at he
    exact h.of_entry_eq (recv_leavesOffer (Client.Holds.not_idle (.inl h.state)) he)
  | tick status =>
    have htime : (s.clients k).timeout = n + 2 := h.timeout
    have hk : (s.step (.tick status)).clients k =
        { s.clients k with timeout := (s.clients k).timeout - 1 } := by
      simp only [Server.step, dhcpTickHandle, h.enable, Bool.not_true, Bool.false_eq_true, if_false]
      exact tickClient_request _ h.state (by omega)
    refine ⟨(s.step_enable _).trans h.enable, ?_, ?_, ?_, ?_⟩ <;> simp only [hk]
    exacts [h.state, h.macAddr, h.ipAddr, by omega]
  | delete m => exact h.of_entry_eq (delete_request h.state)

/-- A run that leaves the offer alone takes exactly its ticks from it. -/
theorem Pending.run (evs : List Event) {s : Server} (h : Pending s mac ip k (n + 1 + ticksOf evs))
    (he : ∀ e ∈ evs, e.LeavesOffer mac) : Pending (s.run evs) mac ip k (n + 1) := by
  induction evs generalizing s with
  | nil => exact h
  | cons e evs ih =>
    have hcons : n + 1 + ticksOf (e :: evs) = n + ticksOf evs + 1 + e.ticks := by
      simp only [ticksOf, List.map_cons, List.sum_cons]
      omega
    have hstep : Pending (s.step e) mac ip k (n + ticksOf evs + 1) :=
      Pending.step (hcons ▸ h) (he e List.mem_cons_self)
    refine ih ?_ fun e' he' => he e' (List.mem_cons_of_mem e he')
    rw [Nat.add_right_comm]
    exact hstep

/-- The last tick lets the entry go and forgets its client. -/
theorem Pending.expire (h : Pending s mac ip k 1) (status : ClientRef → UInt8) :
    ((s.step (.tick status)).clients k).Idle ∧
      ((s.step (.tick status)).clients k).macAddr = zeroMac := by
  have hk : (s.step (.tick status)).clients k =
      { s.clients k with timeout := 0, macAddr := zeroMac, state := .idle } := by
    simp only [Server.step, dhcpTickHandle, h.enable, Bool.not_true, Bool.false_eq_true, if_false]
    rw [tickClient, h.state]
    dsimp only
    rw [h.timeout, if_pos (by decide), if_pos (by decide)]
  rw [hk]
  exact ⟨rfl, rfl⟩

end

/-- **Entry lifetimes.** In every state a started server reaches, no entry is in `SELECT`, an entry in
`REQUEST` has between one and ten ticks left and an entry in `BIND` has a lease that runs. When a
message is answered with an `OFFER`, the offered entry stays as it is through fewer than ten ticks,
and at the tenth tick it is idle with a cleared hardware address, whatever happens in the meantime
other than a message by which its client asks again, takes the offer or refuses it. -/
theorem entry_lifetimes (s₀ s : Server) (netif : Netif) (udpNew : Bool)
    (hstart : dhcpsStart s₀ netif udpNew = (.success, s)) (evs : List Event) :
    (∀ i, ((s.run evs).clients i).state ≠ .select ∧
      (((s.run evs).clients i).state = .request →
        1 ≤ ((s.run evs).clients i).timeout ∧ ((s.run evs).clients i).timeout ≤ defaultTimeout) ∧
      (((s.run evs).clients i).state = .bind →
        1 ≤ ((s.run evs).clients i).lease ∧ ((s.run evs).clients i).lease ≤ defaultLeaseTime)) ∧
    ∀ (d : Msg) (pbufAlloc : Bool) (offer : DhcpMsg),
      (dhcpsRecvMsg (s.run evs) d pbufAlloc).2 = some offer → offer.msgType = some msgOffer →
      ∃ k, ∀ after : List Event, (∀ e ∈ after, e.LeavesOffer d.macAddr) →
        let s' := (dhcpsRecvMsg (s.run evs) d pbufAlloc).1.run after
        (ticksOf after < defaultTimeout → (s'.clients k).state = .request ∧
          (s'.clients k).macAddr = d.macAddr ∧ (s'.clients k).ipAddr = offer.yiaddr) ∧
        (ticksOf after + 1 = defaultTimeout → ∀ status,
          ((s'.step (.tick status)).clients k).Idle ∧
            ((s'.step (.tick status)).clients k).macAddr = zeroMac) := by
  have hidle := dhcpsStart_idle hstart
  constructor
  · intro i
    have h := Server.run_timed (s := s) (fun i => (hidle i).timed) evs i
    exact ⟨h.not_select, h.timeout, h.lease⟩
  · intro d pbufAlloc offer hoffer htype
    obtain ⟨hex, -⟩ := s.run_inv evs (exclusive_of_idle hidle)
    have heff := dhcpsRecvMsg_effect (s.run evs) d pbufAlloc
    obtain ⟨k, hstate, hmac, hip, htime⟩ := heff.entry_of_offer hex hoffer htype
    have henable : (dhcpsRecvMsg (s.run evs) d pbufAlloc).1.enable = true := by
      rw [heff.record, Server.run_enable, (dhcpsStart_success hstart).1]
    refine ⟨k, fun after hafter => ⟨fun hticks => ?_, fun hticks status => ?_⟩⟩
    · -- the counter has not run out
      obtain ⟨n, hn⟩ : ∃ n, n + 1 + ticksOf after = defaultTimeout :=
        ⟨defaultTimeout - ticksOf after - 1, by omega⟩
      have h := Pending.run after ⟨henable, hstate, hmac, hip, htime.trans hn.symm⟩ hafter
      exact ⟨h.state, h.macAddr, h.ipAddr⟩
    · have hone : defaultTimeout = 0 + 1 + ticksOf after := by omega
      exact (Pending.run after ⟨henable, hstate, hmac, hip, htime.trans hone⟩ hafter).expire status

/-- `entry_lifetimes` at `192.168.1.1/24`: an offer, and a tick that it survives. -/
theorem entry_lifetimes_boot :
    let s := (dhcpsStart bootServer bootNetif true).2
    let mac : MacAddr := #v[2, 0, 0, 0, 0, 1]
    ∃ k, ((((dhcpsRecvMsg s ⟨mac, msgDiscover, 0, 0, 7⟩ true).1.run
      [.tick fun _ => 1]).clients k)).state = .request := by
  intro s mac
  obtain ⟨-, hoffer⟩ := entry_lifetimes bootServer s bootNetif true rfl []
  obtain ⟨k, hk⟩ := hoffer ⟨mac, msgDiscover, 0, 0, 7⟩ true _ rfl rfl
  have hleaves : ∀ e ∈ [Event.tick fun _ => 1], e.LeavesOffer mac := by
    intro e he
    rw [List.mem_singleton.mp he]
    trivial
  exact ⟨k, ((hk _ hleaves).1 (by decide)).1⟩

end NuAgent.Dhcp
