import Mathlib.Data.List.GetD
import Mathlib.Data.List.Nodup
import NuAgent.Lib.Trace
import NuAgent.Net.TcpServer

/-!
# The descriptors of the TCP server's clients

Reference: `App/NuAgent/System/network_adapter.c`, the function `Socket_TCPServerRecvData`.

`accept` makes the server the owner of a descriptor, which it keeps in a slot of `lan_client`. The
loop calls `close` nowhere: a client that disconnects is removed from its slot and a client that
finds the table full is stored behind it, and both descriptors stay open for good. As long as neither
happens, the table is the list of the accepted descriptors in their order, followed by empty slots
(`Sockets.Sound`).
-/

namespace NuAgent.Net

open Trace

/-! ## Descriptors over a run -/

/-- The server's table, with the descriptors `accept` has returned and those that were closed. -/
structure Sockets where
  table : Table
  accepted : List ℤ
  closed : List ℤ
deriving DecidableEq, Repr

/-- The server before the first turn. -/
def initSockets (tcpServerFd : ℤ) : Sockets := ⟨initTable tcpServerFd, [], []⟩

/-- The table and the descriptor set after the loop over the slots. -/
def served (tcpServerFd : ℤ) (s : Table) (t : Turn) : Table × FdSet :=
  (List.range tcpServerClientMaxNum).foldl (serveSlot t)
    (s, select t s.maxSock (requested tcpServerFd s))

/-- The descriptor of the client that is accepted in a turn. -/
def acceptedFd (tcpServerFd : ℤ) (s : Table) (t : Turn) : Option ℤ :=
  if t.ret ≤ 0 then none
  else if fdIsset tcpServerFd (served tcpServerFd s t).2 ∧ 0 ≤ t.newFd then some t.newFd else none

/-- One turn of the loop, from a state in which no store has left the table; no branch of the loop
calls `close`. -/
def Sockets.turn (tcpServerFd : ℤ) (o : Option Sockets) (t : Turn) : Option Sockets :=
  o.bind fun s => (step tcpServerFd s.table t).map fun table =>
    { table := table
      accepted := s.accepted ++ (acceptedFd tcpServerFd s.table t).toList
      closed := s.closed }

/-- The stack hands out a descriptor again only after it was closed. -/
def Fresh (tcpServerFd : ℤ) (o : Option Sockets) (t : Turn) : Prop :=
  ∀ s, o = some s → ∀ fd, acceptedFd tcpServerFd s.table t = some fd → fd ∈ s.accepted →
    fd ∈ s.closed

/-- Every descriptor that `accept` returned is in exactly one slot or was closed. -/
def Sockets.NoLeak (s : Sockets) : Prop :=
  ∀ fd ∈ s.accepted, s.table.lanClient.count fd = 1 ∨ fd ∈ s.closed

instance (s : Sockets) : Decidable s.NoLeak :=
  inferInstanceAs (Decidable (∀ fd ∈ s.accepted, _ ∨ _))

/-- The client in slot `i` is reported by `select` and its `recv` finds the connection closed. -/
def Leaves (tcpServerFd : ℤ) (s : Table) (t : Turn) (i : ℕ) : Prop :=
  0 ≤ s.lanClient.getD i (-1) ∧
    fdIsset (s.lanClient.getD i (-1)) (select t s.maxSock (requested tcpServerFd s)) ∧ t.recv i ≤ 0

/-- A turn in which no client disconnects, and none connects while every slot is in use. -/
def Keeps (tcpServerFd : ℤ) (s : Table) (t : Turn) : Prop :=
  0 < t.ret → (∀ i < tcpServerClientMaxNum, ¬ Leaves tcpServerFd s t i) ∧
    (fdIsset tcpServerFd (select t s.maxSock (requested tcpServerFd s)) → 0 ≤ t.newFd →
      -1 ∈ s.lanClient)

instance (tcpServerFd : ℤ) (s : Table) (t : Turn) (i : ℕ) : Decidable (Leaves tcpServerFd s t i) :=
  inferInstanceAs (Decidable (_ ∧ _ ∧ _))

instance (tcpServerFd : ℤ) (s : Table) (t : Turn) : Decidable (Keeps tcpServerFd s t) :=
  inferInstanceAs (Decidable (_ → _ ∧ _))

/-! ## The loop over the slots -/

section
variable {tcpServerFd : ℤ} {t : Turn} {s : Table} {p : FdSet} {i : ℕ}

/-- A slot is left as it is unless its descriptor is reported and its `recv` fails. -/
theorem serveSlot_of_not
    (h : ¬ (fdIsset (s.lanClient.getD i (-1)) p ∧ recvSlot t i (s.lanClient.getD i (-1)) ≤ 0)) :
    serveSlot t (s, p) i = (s, p) := by
  simp only [serveSlot]
  split_ifs with hset hrecv
  · exact absurd ⟨hset, hrecv⟩ h
  · rfl
  · rfl

/-- A slot that is served takes its descriptor out of the table and out of the set. -/
theorem serveSlot_of (hset : fdIsset (s.lanClient.getD i (-1)) p)
    (hrecv : recvSlot t i (s.lanClient.getD i (-1)) ≤ 0) :
    serveSlot t (s, p) i =
      ({ s with
          clientConnectCount := s.clientConnectCount - 1
          lanClient := s.lanClient.set i (-1) }, fdClr (s.lanClient.getD i (-1)) p) := by
  simp only [serveSlot]
  rw [if_pos hset, if_pos hrecv]

/-- A descriptor that is not in the table does not get there in the loop over the slots. -/
theorem foldl_serveSlot_notMem {fd : ℤ} (hfd : 0 ≤ fd) (is : List ℕ) {st : Table × FdSet}
    (h : fd ∉ st.1.lanClient) : fd ∉ (is.foldl (serveSlot t) st).1.lanClient := by
  induction is generalizing st with
  | nil => exact h
  | cons i is ih =>
    apply ih
    obtain ⟨s, p⟩ := st
    by_cases hs : fdIsset (s.lanClient.getD i (-1)) p ∧ recvSlot t i (s.lanClient.getD i (-1)) ≤ 0
    · rw [serveSlot_of hs.1 hs.2]
      intro hmem
      rcases List.mem_or_eq_of_mem_set hmem with hmem | rfl
      · exact h hmem
      · exact absurd hfd (by decide)
    · rw [serveSlot_of_not hs]
      exact h

/-- What the loop over the slots can do when no client leaves: empty slots may be served, which
lowers the count and takes the bit of descriptor 7 out of the set. -/
structure Undisturbed (l : List ℤ) (p : FdSet) (st : Table × FdSet) : Prop where
  lanClient : st.1.lanClient = l
  count : st.1.clientConnectCount ≤ 0
  subset : ∀ b, st.2 b → p b
  full : -1 ∉ l → st.2 = p

/-- The loop over slots from which no client leaves. -/
theorem foldl_serveSlot_undisturbed {l : List ℤ} (hl : ∀ fd ∈ l, 0 ≤ fd ∨ fd = -1) (is : List ℕ)
    (his : ∀ i ∈ is, i < l.length ∧
      ¬ (0 ≤ l.getD i (-1) ∧ fdIsset (l.getD i (-1)) p ∧ t.recv i ≤ 0))
    {st : Table × FdSet} (h : Undisturbed l p st) :
    Undisturbed l p (is.foldl (serveSlot t) st) := by
  induction is generalizing st with
  | nil => exact h
  | cons i is ih =>
    apply ih fun j hj => his j (List.mem_cons_of_mem i hj)
    obtain ⟨hlt, hstay⟩ := his i List.mem_cons_self
    obtain ⟨s, p'⟩ := st
    obtain ⟨hclient, hcount, hsub, hfull⟩ := h
    dsimp only at hclient hcount hsub hfull
    by_cases hs : fdIsset (s.lanClient.getD i (-1)) p' ∧ recvSlot t i (s.lanClient.getD i (-1)) ≤ 0
    · have hget : l.getD i (-1) = l[i] := List.getD_eq_getElem _ _ hlt
      have hmem : l[i] ∈ l := List.getElem_mem hlt
      -- a served slot is empty, since a client would leave
      have hempty : l[i] = -1 := by
        rcases hl l[i] hmem with hfd | hfd
        · rw [hclient, hget, recvSlot, if_neg (Int.not_lt.mpr hfd)] at hs
          rw [hget] at hstay
          exact absurd ⟨hfd, hsub _ hs.1, hs.2⟩ hstay
        · exact hfd
      rw [serveSlot_of hs.1 hs.2]
      refine ⟨?_, ?_, fun b hb => hsub b (Bool.and_eq_true_iff.mp hb).1, fun hno => ?_⟩
      · dsimp only
        rw [hclient, ← hempty, List.set_getElem_self]
      · dsimp only
        omega
      · exact absurd (hempty ▸ hmem) hno
    · rw [serveSlot_of_not hs]
      exact ⟨hclient, hcount, hsub, hfull⟩

/-- A client that leaves, and has only clients before it, takes a descriptor out of the table: its
own, or that of a client before it. -/
theorem foldl_serveSlot_leaves (pre post : List ℕ)
    (hpre : ∀ j ∈ pre, j < s.lanClient.length ∧ 0 ≤ s.lanClient.getD j (-1))
    (hi : i < s.lanClient.length) (hfd : 0 ≤ s.lanClient.getD i (-1))
    (hset : fdIsset (s.lanClient.getD i (-1)) p) (hrecv : t.recv i ≤ 0)
    (honce : ∀ fd ∈ s.lanClient, 0 ≤ fd → s.lanClient.count fd = 1) :
    ∃ fd ∈ s.lanClient, 0 ≤ fd ∧
      fd ∉ ((pre ++ i :: post).foldl (serveSlot t) (s, p)).1.lanClient := by
  -- a slot that is served loses its descriptor for good
  have hlost : ∀ (j : ℕ) (rest : List ℕ), j < s.lanClient.length → 0 ≤ s.lanClient.getD j (-1) →
      fdIsset (s.lanClient.getD j (-1)) p → recvSlot t j (s.lanClient.getD j (-1)) ≤ 0 →
      ∃ fd ∈ s.lanClient, 0 ≤ fd ∧
        fd ∉ ((j :: rest).foldl (serveSlot t) (s, p)).1.lanClient := by
    intro j rest hj hfd hset hrecv
    have hget : s.lanClient.getD j (-1) = s.lanClient[j] := List.getD_eq_getElem _ _ hj
    rw [hget] at hfd
    refine ⟨s.lanClient[j], List.getElem_mem hj, hfd, ?_⟩
    rw [List.foldl_cons, serveSlot_of hset hrecv]
    apply foldl_serveSlot_notMem hfd
    rw [← List.count_eq_zero, List.count_set hj, honce _ (List.getElem_mem hj) hfd]
    have hne : (-1 == s.lanClient[j]) = false := by
      rw [beq_eq_false_iff_ne]
      omega
    simp [hne]
  have hslot : ∀ {j : ℕ}, 0 ≤ s.lanClient.getD j (-1) →
      recvSlot t j (s.lanClient.getD j (-1)) = t.recv j := fun h => if_neg (Int.not_lt.mpr h)
  induction pre with
  | nil => exact hlost i post hi hfd hset (by rw [hslot hfd]; exact hrecv)
  | cons j pre ih =>
    obtain ⟨hj, hjfd⟩ := hpre j List.mem_cons_self
    by_cases hserve : fdIsset (s.lanClient.getD j (-1)) p ∧
        recvSlot t j (s.lanClient.getD j (-1)) ≤ 0
    · exact hlost j _ hj hjfd hserve.1 hserve.2
    · rw [List.cons_append, List.foldl_cons, serveSlot_of_not hserve]
      exact ih fun k hk => hpre k (List.mem_cons_of_mem j hk)

end

/-! ## A turn -/

/-- The table is the list of the accepted descriptors, followed by empty slots. -/
structure Sockets.Sound (s : Sockets) : Prop where
  lanClient : s.table.lanClient =
    s.accepted ++ List.replicate (tcpServerClientMaxNum - s.accepted.length) (-1)
  length_le : s.accepted.length ≤ tcpServerClientMaxNum
  nodup : s.accepted.Nodup
  nonneg : ∀ fd ∈ s.accepted, 0 ≤ fd
  count : s.table.clientConnectCount ≤ 0
  closed : s.closed = []

section
variable {tcpServerFd : ℤ} {t : Turn} {s : Sockets}

theorem initSockets_sound (tcpServerFd : ℤ) : (initSockets tcpServerFd).Sound where
  lanClient := rfl
  length_le := Nat.zero_le _
  nodup := List.nodup_nil
  nonneg _ h := absurd h List.not_mem_nil
  count := Int.le_refl 0
  closed := rfl

/-- A descriptor in the table is an accepted one, and in one slot. -/
theorem Sockets.Sound.client (h : s.Sound) {fd : ℤ} (hfd : 0 ≤ fd) :
    s.table.lanClient.count fd = s.accepted.count fd := by
  have hne : (-1 == fd) = false := by
    rw [beq_eq_false_iff_ne]
    omega
  rw [h.lanClient, List.count_append, List.count_replicate, hne]
  rfl

theorem Sockets.Sound.count_eq_one (h : s.Sound) {fd : ℤ} (hmem : fd ∈ s.accepted) :
    s.table.lanClient.count fd = 1 := by
  rw [h.client (h.nonneg fd hmem)]
  exact List.count_eq_one_of_mem h.nodup hmem

theorem Sockets.Sound.noLeak (h : s.Sound) : s.NoLeak :=
  fun _ hmem => .inl (h.count_eq_one hmem)

theorem Sockets.Sound.mem_accepted (h : s.Sound) {fd : ℤ} (hmem : fd ∈ s.table.lanClient)
    (hfd : 0 ≤ fd) : fd ∈ s.accepted := by
  rw [← List.count_pos_iff, ← h.client hfd]
  exact List.count_pos_iff.mpr hmem

theorem Sockets.Sound.length (h : s.Sound) :
    s.table.lanClient.length = tcpServerClientMaxNum := by
  have hle := h.length_le
  rw [h.lanClient, List.length_append, List.length_replicate]
  omega

theorem Sockets.Sound.slot (h : s.Sound) {fd : ℤ} (hmem : fd ∈ s.table.lanClient) :
    0 ≤ fd ∨ fd = -1 := by
  rw [h.lanClient, List.mem_append] at hmem
  rcases hmem with hmem | hmem
  · exact .inl (h.nonneg fd hmem)
  · exact .inr (List.eq_of_mem_replicate hmem)

/-- The clients are in the first slots. -/
theorem Sockets.Sound.getD_nonneg_iff (h : s.Sound) (i : ℕ) :
    0 ≤ s.table.lanClient.getD i (-1) ↔ i < s.accepted.length := by
  rw [h.lanClient]
  constructor
  · intro hfd
    by_contra hge
    rw [List.getD_append_right _ _ _ _ (by omega), List.getD_eq_getElem?_getD,
      List.getElem?_getD_replicate_default_eq] at hfd
    exact absurd hfd (by decide)
  · intro hlt
    rw [List.getD_append _ _ _ _ hlt, List.getD_eq_getElem _ _ hlt]
    exact h.nonneg _ (List.getElem_mem hlt)

/-- The first empty slot is the one behind the clients. -/
theorem Sockets.Sound.findIdx (h : s.Sound) :
    s.table.lanClient.findIdx (· == -1) = s.accepted.length := by
  have hclients : s.accepted.findIdx (· == -1) = s.accepted.length := by
    rw [List.findIdx_eq_length]
    intro fd hmem
    have hfd := h.nonneg fd hmem
    rw [beq_eq_false_iff_ne]
    omega
  rw [h.lanClient, List.findIdx_append, hclients, if_neg (Nat.lt_irrefl _)]
  cases tcpServerClientMaxNum - s.accepted.length with
  | zero => simp
  | succ n => simp [List.replicate_succ, List.findIdx_cons]

theorem Sockets.Sound.mem_empty_iff (h : s.Sound) :
    -1 ∈ s.table.lanClient ↔ s.accepted.length < tcpServerClientMaxNum := by
  rw [h.lanClient, List.mem_append, List.mem_replicate]
  constructor
  · rintro (hmem | ⟨hne, -⟩)
    · exact absurd (h.nonneg _ hmem) (by decide)
    · omega
  · exact fun hlt => .inr ⟨by omega, rfl⟩

/-- One turn of the loop, with the loop over the slots named. -/
theorem step_eq (s : Table) : step tcpServerFd s t =
    if t.ret ≤ 0 then some s
    else if fdIsset tcpServerFd (served tcpServerFd s t).2 then
      acceptClient t (served tcpServerFd s t).1
    else some (served tcpServerFd s t).1 := rfl

/-- Without a client that leaves, the loop over the slots keeps the table. -/
theorem Sockets.Sound.undisturbed (h : s.Sound)
    (hstay : ∀ i < tcpServerClientMaxNum, ¬ Leaves tcpServerFd s.table t i) :
    Undisturbed s.table.lanClient (select t s.table.maxSock (requested tcpServerFd s.table))
      (served tcpServerFd s.table t) := by
  apply foldl_serveSlot_undisturbed fun fd hmem => h.slot hmem
  · intro i hi
    have hlt := List.mem_range.mp hi
    exact ⟨by rw [h.length]; exact hlt, hstay i hlt⟩
  · exact ⟨rfl, h.count, fun _ => id, fun _ => rfl⟩

/-- A new client takes the first empty slot. -/
theorem Sockets.Sound.accept (h : s.Sound) {table : Table} {fd : ℤ}
    (hlt : s.accepted.length < tcpServerClientMaxNum) (hfd : 0 ≤ fd) (hnot : fd ∉ s.accepted)
    (hclient : table.lanClient = s.table.lanClient.set s.accepted.length fd)
    (hcount : table.clientConnectCount ≤ 0) :
    Sockets.Sound ⟨table, s.accepted ++ [fd], s.closed⟩ where
  lanClient := by
    obtain ⟨k, hk⟩ : ∃ k, tcpServerClientMaxNum - s.accepted.length = k + 1 :=
      ⟨tcpServerClientMaxNum - s.accepted.length - 1, by omega⟩
    have hk' : tcpServerClientMaxNum - (s.accepted ++ [fd]).length = k := by
      rw [List.length_append, List.length_singleton]
      omega
    dsimp only
    rw [hk', hclient, h.lanClient, hk, List.replicate_succ,
      List.set_append_right _ _ (Nat.le_refl _), Nat.sub_self, List.set_cons_zero,
      List.append_assoc, List.singleton_append]
  length_le := by
    rw [List.length_append, List.length_singleton]
    exact hlt
  nodup := List.nodup_append.mpr ⟨h.nodup, List.nodup_singleton _, fun a ha b hb hab =>
    hnot (List.mem_singleton.mp hb ▸ hab ▸ ha)⟩
  nonneg fd' hmem := by
    rcases List.mem_append.mp hmem with hmem | hmem
    · exact h.nonneg fd' hmem
    · rw [List.mem_singleton.mp hmem]
      exact hfd
  count := hcount
  closed := h.closed

/-- Accepting a client stores no descriptor but its own. -/
theorem acceptClient_mem {s s' : Table} (h : acceptClient t s = some s') {fd : ℤ}
    (hmem : fd ∈ s'.lanClient) : fd ∈ s.lanClient ∨ 0 ≤ t.newFd ∧ fd = t.newFd := by
  unfold acceptClient at h
  split at h
  · obtain rfl := Option.some.inj h
    exact .inl hmem
  · next hnew =>
    split at h
    · dsimp only at h
      split at h
      · obtain rfl := Option.some.inj h
        exact (List.mem_or_eq_of_mem_set hmem).imp_right fun heq => ⟨Int.not_lt.mp hnew, heq⟩
      · cases h
    · obtain rfl := Option.some.inj h
      exact .inl hmem

/-- The loop over the slots, cut at one of them. -/
theorem range_split {n i : ℕ} (h : i < n) :
    List.range n = List.range i ++ i :: List.range' (i + 1) (n - i - 1) := by
  have hn : n = i + (n - i - 1 + 1) := by omega
  have happend := List.range'_append_1 (s := 0) (m := i) (n := n - i - 1 + 1)
  rw [Nat.zero_add, List.range'_succ, ← hn] at happend
  rw [List.range_eq_range', List.range_eq_range', happend]

/-- A descriptor that `accept` gives out is not one of the table. -/
theorem Sockets.Sound.fresh (h : s.Sound) (hfresh : Fresh tcpServerFd (some s) t) {fd : ℤ}
    (hsome : acceptedFd tcpServerFd s.table t = some fd) : fd ∉ s.accepted := by
  intro hmem
  have hclosed := hfresh s rfl fd hsome hmem
  rw [h.closed] at hclosed
  exact absurd hclosed List.not_mem_nil

/-- A turn in which nobody leaves and a new client finds an empty slot keeps the table sound. -/
theorem Sockets.Sound.keep (h : s.Sound) (hfresh : Fresh tcpServerFd (some s) t)
    (hkeep : Keeps tcpServerFd s.table t) :
    ∃ s', Sockets.turn tcpServerFd (some s) t = some s' ∧ s'.Sound := by
  have hturn : Sockets.turn tcpServerFd (some s) t =
      (step tcpServerFd s.table t).map fun table =>
        ⟨table, s.accepted ++ (acceptedFd tcpServerFd s.table t).toList, s.closed⟩ := rfl
  rw [hturn, step_eq]
  -- without a new client the descriptors are what they were
  have hquiet : ∀ table : Table, table.lanClient = s.table.lanClient →
      table.clientConnectCount ≤ 0 → Sockets.Sound ⟨table, s.accepted ++ [], s.closed⟩ := by
    intro table hclient hcount
    rw [List.append_nil]
    exact ⟨hclient.trans h.lanClient, h.length_le, h.nodup, h.nonneg, hcount, h.closed⟩
  by_cases hret : t.ret ≤ 0
  · rw [acceptedFd, if_pos hret, if_pos hret]
    exact ⟨_, rfl, hquiet _ rfl h.count⟩
  obtain ⟨hstay, hroom⟩ := hkeep (Int.not_le.mp hret)
  have hserved := h.undisturbed hstay
  have hacc : acceptedFd tcpServerFd s.table t =
      if fdIsset tcpServerFd (served tcpServerFd s.table t).2 ∧ 0 ≤ t.newFd then some t.newFd
      else none := if_neg hret
  rw [if_neg hret]
  by_cases hset : fdIsset tcpServerFd (served tcpServerFd s.table t).2 = true
  · rw [if_pos hset, acceptClient]
    by_cases hnew : t.newFd < 0
    · rw [if_pos hnew, hacc, if_neg fun h' => Int.not_le.mpr hnew h'.2]
      exact ⟨_, rfl, hquiet _ hserved.lanClient hserved.count⟩
    · have hsome : acceptedFd tcpServerFd s.table t = some t.newFd := by
        rw [hacc, if_pos ⟨hset, Int.not_lt.mp hnew⟩]
      have hlt : s.accepted.length < tcpServerClientMaxNum :=
        h.mem_empty_iff.mp (hroom (hserved.subset _ hset) (Int.not_lt.mp hnew))
      have hslot : emptySlot (served tcpServerFd s.table t).1 = s.accepted.length := by
        rw [emptySlot, hserved.lanClient, h.findIdx]
      have hcount := hserved.count
      rw [if_neg hnew, if_pos (by omega), hsome]
      simp only [hslot, if_pos hlt, hserved.lanClient]
      exact ⟨_, rfl, h.accept hlt (Int.not_lt.mp hnew) (h.fresh hfresh hsome) rfl hcount⟩
  · rw [if_neg hset, hacc, if_neg fun h' => hset h'.1]
    exact ⟨_, rfl, hquiet _ hserved.lanClient hserved.count⟩

/-- The table is full, and the counter never says so: a new client is stored behind it. -/
theorem Sockets.Sound.step_full (h : s.Sound)
    (hstay : ∀ i < tcpServerClientMaxNum, ¬ Leaves tcpServerFd s.table t i) (hret : 0 < t.ret)
    (hset : fdIsset tcpServerFd (select t s.table.maxSock (requested tcpServerFd s.table)) = true)
    (hnew : 0 ≤ t.newFd) (hfull : -1 ∉ s.table.lanClient) : step tcpServerFd s.table t = none := by
  have hserved := h.undisturbed hstay
  have hslot : emptySlot (served tcpServerFd s.table t).1 = s.accepted.length := by
    rw [emptySlot, hserved.lanClient, h.findIdx]
  have hlen : ¬ s.accepted.length < tcpServerClientMaxNum := fun hlt =>
    hfull (h.mem_empty_iff.mpr hlt)
  have hcount : (served tcpServerFd s.table t).1.clientConnectCount < tcpServerClientMaxNum :=
    Int.lt_of_le_of_lt hserved.count (by decide)
  rw [step_eq, if_neg (Int.not_le.mpr hret), hserved.full hfull, if_pos hset, acceptClient,
    if_neg (Int.not_lt.mpr hnew), if_pos hcount]
  simp only [hslot, if_neg hlen]

/-- A client leaves, and its descriptor is in no slot afterwards. -/
theorem Sockets.Sound.step_leaves (h : s.Sound) (hfresh : Fresh tcpServerFd (some s) t)
    (hret : 0 < t.ret) {i : ℕ} (hi : i < tcpServerClientMaxNum)
    (hleaves : Leaves tcpServerFd s.table t i) {table : Table}
    (htable : step tcpServerFd s.table t = some table) :
    ∃ fd ∈ s.accepted, fd ∉ table.lanClient := by
  obtain ⟨hfd, hset, hrecv⟩ := hleaves
  rw [step_eq, if_neg (Int.not_le.mpr hret)] at htable
  have hpre : ∀ j ∈ List.range i, j < s.table.lanClient.length ∧
      0 ≤ s.table.lanClient.getD j (-1) := by
    intro j hj
    have hji := List.mem_range.mp hj
    have hclient := (h.getD_nonneg_iff i).mp hfd
    exact ⟨by rw [h.length]; omega, (h.getD_nonneg_iff j).mpr (by omega)⟩
  obtain ⟨fd, hmem, hfd0, hgone⟩ := foldl_serveSlot_leaves (t := t) (List.range i)
    (List.range' (i + 1) (tcpServerClientMaxNum - i - 1)) hpre
    (by rw [h.length]; exact hi) hfd hset hrecv fun fd hmem hfd =>
      h.count_eq_one (h.mem_accepted hmem hfd)
  rw [← range_split hi] at hgone
  have hacc := h.mem_accepted hmem hfd0
  refine ⟨fd, hacc, fun hback => ?_⟩
  split at htable
  · next hset =>
    rcases acceptClient_mem htable hback with hback | ⟨hnew, rfl⟩
    · exact hgone hback
    · have hsome : acceptedFd tcpServerFd s.table t = some t.newFd := by
        rw [acceptedFd, if_neg (Int.not_le.mpr hret), if_pos ⟨hset, hnew⟩]
      exact h.fresh hfresh hsome hacc
  · obtain rfl := Option.some.inj htable
    exact hgone hback

/-- In any other turn a descriptor is lost, or stored behind the table. -/
theorem Sockets.Sound.lose (h : s.Sound) (hfresh : Fresh tcpServerFd (some s) t)
    (hkeep : ¬ Keeps tcpServerFd s.table t) {s' : Sockets}
    (hs' : Sockets.turn tcpServerFd (some s) t = some s') : ¬ s'.NoLeak := by
  obtain ⟨hret, hbad⟩ := Classical.not_imp.mp hkeep
  obtain ⟨table, htable, hs'⟩ := Option.map_eq_some_iff.mp hs'
  by_cases hstay : ∀ i < tcpServerClientMaxNum, ¬ Leaves tcpServerFd s.table t i
  · obtain ⟨hset, hroom⟩ := Classical.not_imp.mp fun hroom => hbad ⟨hstay, hroom⟩
    obtain ⟨hnew, hfull⟩ := Classical.not_imp.mp hroom
    rw [h.step_full hstay hret hset hnew hfull] at htable
    cases htable
  · obtain ⟨i, hi, hleaves⟩ : ∃ i, i < tcpServerClientMaxNum ∧
        Leaves tcpServerFd s.table t i := by
      by_contra hno
      exact hstay fun i hi hl => hno ⟨i, hi, hl⟩
    obtain ⟨fd, hacc, hnot⟩ := h.step_leaves hfresh hret hi hleaves htable
    intro hleak
    subst hs'
    rcases hleak fd (List.mem_append_left _ hacc) with hone | hclosed
    · rw [List.count_eq_zero.mpr hnot] at hone
      exact absurd hone (by decide)
    · rw [h.closed] at hclosed
      exact absurd hclosed List.not_mem_nil

end

/-- A client on descriptor `fd` that is ready, and whose `recv` returns `n`. -/
def receive (slot fd : ℕ) (n : ℤ) : Turn where
  ret := 1
  ready b := b == fd
  recv i := if i = slot then n else 0
  newFd := -1

/-- A client that disconnects leaves its descriptor open, and a sixth client is stored behind the
table. -/
theorem sockets_leaked :
    (∃ s, Trace.run (Sockets.turn 0) (some (initSockets 0)) [connect 1, receive 0 1 0] = some s ∧
      1 ∈ s.accepted ∧ s.table.lanClient.count 1 = 0 ∧ 1 ∉ s.closed) ∧
    Trace.run (Sockets.turn 0) (some (initSockets 0))
      [connect 1, connect 2, connect 3, connect 4, connect 5, connect 6] = none := by
  refine ⟨⟨⟨⟨[-1, -1, -1, -1, -1], -1, 2⟩, [1], []⟩, by decide⟩, ?_⟩
  have hfull : Trace.run (Sockets.turn 0) (some (initSockets 0))
      [connect 1, connect 2, connect 3, connect 4, connect 5] =
        some ⟨⟨[1, 2, 3, 4, 5], 0, 6⟩, [1, 2, 3, 4, 5], []⟩ := by decide
  refine (run_append (some (initSockets 0)) [connect 1, connect 2, connect 3, connect 4, connect 5]
    [connect 6]).trans ?_
  rw [hfull]
  decide

/-- **Which runs leak no descriptor.** In every state of a run each descriptor that `accept` returned
is in exactly one slot or was closed, and no client is stored outside the table, exactly when in no
turn of the run a client disconnects or connects while every slot is in use. -/
theorem sockets_kept_iff (tcpServerFd : ℤ) (ts : List Turn)
    (hfresh : Along (Sockets.turn tcpServerFd) (Fresh tcpServerFd)
      (some (initSockets tcpServerFd)) ts) :
    (∀ n ≤ ts.length, ∃ s,
      Trace.run (Sockets.turn tcpServerFd) (some (initSockets tcpServerFd)) (ts.take n) = some s ∧
        ∀ fd ∈ s.accepted, s.table.lanClient.count fd = 1 ∨ fd ∈ s.closed) ↔
    Along (Sockets.turn tcpServerFd) (fun o t => ∀ s, o = some s → Keeps tcpServerFd s.table t)
      (some (initSockets tcpServerFd)) ts := by
  have hgood : ∀ o : Option Sockets, (∃ s, o = some s ∧ s.Sound) → ∃ s, o = some s ∧ s.NoLeak := by
    rintro _ ⟨s, rfl, h⟩
    exact ⟨s, rfl, h.noLeak⟩
  refine always_iff_along hgood ?_ ?_ ⟨_, rfl, initSockets_sound tcpServerFd⟩ hfresh
  · rintro _ t hfresh ⟨s, rfl, h⟩ hkeep
    exact h.keep hfresh (hkeep s rfl)
  · rintro _ t hfresh ⟨s, rfl, h⟩ hkeep ⟨s', hs', hleak⟩
    refine h.lose hfresh (fun hk => hkeep fun s₁ hs₁ => ?_) hs' hleak
    obtain rfl := Option.some.inj hs₁
    exact hk

/-- `sockets_kept_iff` for a client that connects and sends a byte. -/
theorem sockets_kept_receive :
    ∃ s, Trace.run (Sockets.turn 0) (some (initSockets 0)) [connect 1, receive 0 1 1] = some s ∧
      ∀ fd ∈ s.accepted, s.table.lanClient.count fd = 1 ∨ fd ∈ s.closed := by
  have hturn : Sockets.turn 0 (some (initSockets 0)) (connect 1) =
      some ⟨⟨[1, -1, -1, -1, -1], 0, 2⟩, [1], []⟩ := by decide
  refine (sockets_kept_iff 0 [connect 1, receive 0 1 1] ⟨?_, ?_, trivial⟩).mpr
    ⟨?_, ?_, trivial⟩ 2 (by decide)
  · rintro s hs fd - hmem
    obtain rfl := Option.some.inj hs
    exact absurd hmem List.not_mem_nil
  · rw [hturn]
    rintro s hs fd hfd -
    obtain rfl := Option.some.inj hs
    have hnone : acceptedFd 0 ⟨[1, -1, -1, -1, -1], 0, 2⟩ (receive 0 1 1) = none := by decide
    rw [hnone] at hfd
    cases hfd
  · rintro s hs
    obtain rfl := Option.some.inj hs
    decide
  · rw [hturn]
    rintro s hs
    obtain rfl := Option.some.inj hs
    decide

end NuAgent.Net
