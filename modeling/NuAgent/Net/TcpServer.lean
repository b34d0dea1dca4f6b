import Mathlib.Data.Int.Notation
import Mathlib.Data.List.Basic
import Mathlib.Data.Nat.Notation
import Mathlib.Tactic.Common

/-!
# The TCP server's client table

Reference: `App/NuAgent/System/network_adapter.c`, the function `Socket_TCPServerRecvData`, and the
descriptor sets of `LwIP/src/include/lwip/sockets.h`.

One turn of the server's loop is a function of the table and of what the network does meanwhile. A
descriptor set is one byte, so that the descriptor `-1` of an empty slot shares its bit with
descriptor 7. A turn that stores behind the end of the table has no result.
-/

namespace NuAgent.Net

/-! ## Descriptor sets -/

/-- `fd_set`: the bits of `fd_bits[0]`. -/
abbrev FdSet := ℕ → Bool

/-- The bit `n & 7` that stands for the descriptor `n`. -/
def fdBit (n : ℤ) : ℕ := (n % 8).toNat

/-- `FD_ZERO`. -/
def fdZero : FdSet := fun _ => false
/-- `FD_SET`. -/
def fdSet (n : ℤ) (p : FdSet) : FdSet := fun b => p b || b == fdBit n
/-- `FD_CLR`. -/
def fdClr (n : ℤ) (p : FdSet) : FdSet := fun b => p b && b != fdBit n
/-- `FD_ISSET`. -/
def fdIsset (n : ℤ) (p : FdSet) : Bool := p (fdBit n)

/-! ## The loop -/

/-- `TCP_SERVER_CLIENT_MAX_NUM`. -/
def tcpServerClientMaxNum : ℕ := 5

/-- What the loop keeps from turn to turn: `lan_client`, as the `client_fd` of each slot,
`client_connect_count` and `max_sock`. -/
structure Table where
  lanClient : List ℤ
  clientConnectCount : ℤ
  maxSock : ℤ
deriving DecidableEq, Repr

/-- What the network does during one turn: the value `select` returns, the descriptors it finds
ready, the value `recv` returns for each slot, and the value `accept` returns. -/
structure Turn where
  ret : ℤ
  ready : ℕ → Bool
  recv : ℕ → ℤ
  newFd : ℤ

/-- The table before the first turn. -/
def initTable (tcpServerFd : ℤ) : Table where
  lanClient := List.replicate tcpServerClientMaxNum (-1)
  clientConnectCount := 0
  maxSock := tcpServerFd

/-- The descriptors the loop waits for. -/
def requested (tcpServerFd : ℤ) (s : Table) : FdSet :=
  s.lanClient.foldl (fun p fd => if fd ≥ 0 then fdSet fd p else p) (fdSet tcpServerFd fdZero)

/-- `select` leaves the ready ones of the requested descriptors below its bound in the set. -/
def select (t : Turn) (maxSock : ℤ) (p : FdSet) : FdSet :=
  fun b => p b && t.ready b && decide ((b : ℤ) < maxSock + 1)

/-- `recv` on the descriptor of slot `i`; there is no socket with a negative descriptor. -/
def recvSlot (t : Turn) (i : ℕ) (fd : ℤ) : ℤ := if fd < 0 then -1 else t.recv i

/-- One turn of the loop over the slots. -/
def serveSlot (t : Turn) (st : Table × FdSet) (i : ℕ) : Table × FdSet :=
  let (s, fdset) := st
  let fd := s.lanClient.getD i (-1)
  if fdIsset fd fdset then
    if recvSlot t i fd ≤ 0 then
      ({ s with
          clientConnectCount := s.clientConnectCount - 1
          lanClient := s.lanClient.set i (-1) }, fdClr fd fdset)
    else (s, fdset)
  else (s, fdset)

/-- The slot in which a new client is stored: the first empty one, or the one behind the table when
there is none. -/
def emptySlot (s : Table) : ℕ := s.lanClient.findIdx (· == -1)

/-- The branch that accepts a client; `none` when it stores outside the table. -/
def acceptClient (t : Turn) (s : Table) : Option Table :=
  if t.newFd < 0 then some s
  else if s.clientConnectCount < tcpServerClientMaxNum then
    let i := emptySlot s
    if i < tcpServerClientMaxNum then
      some { s with
        maxSock := if s.maxSock < t.newFd + 1 then t.newFd + 1 else s.maxSock
        lanClient := s.lanClient.set i t.newFd }
    else none
  else some s

/-- One turn of the loop of `Socket_TCPServerRecvData`. -/
def step (tcpServerFd : ℤ) (s : Table) (t : Turn) : Option Table :=
  if t.ret ≤ 0 then some s
  else
    let fdset := select t s.maxSock (requested tcpServerFd s)
    let (s, fdset) := (List.range tcpServerClientMaxNum).foldl (serveSlot t) (s, fdset)
    if fdIsset tcpServerFd fdset then acceptClient t s else some s

/-- A run of the loop. -/
def run (tcpServerFd : ℤ) : Table → List Turn → Option Table
  | s, [] => some s
  | s, t :: ts => (step tcpServerFd s t).bind fun s' => run tcpServerFd s' ts

/-! ## The counter -/

/-- The number of slots in use. -/
def used (s : Table) : ℕ := s.lanClient.countP (· ≥ 0)

/-- The counter is the number of slots in use and is in range. -/
def Balanced (s : Table) : Prop :=
  s.clientConnectCount = used s ∧ 0 ≤ s.clientConnectCount ∧
    s.clientConnectCount ≤ tcpServerClientMaxNum

instance (s : Table) : Decidable (Balanced s) := inferInstanceAs (Decidable (_ ∧ _ ∧ _))

/-- In every state at the top of the loop the counter is balanced, and no store left the table. -/
def RunBalanced (tcpServerFd : ℤ) (s : Table) (ts : List Turn) : Prop :=
  ∀ n ≤ ts.length, ∃ s', run tcpServerFd s (ts.take n) = some s' ∧ Balanced s'

/-- A turn that brings no client: `select` reports nothing or does not report the listening socket,
or `accept` fails. When the listening socket is descriptor 7, it must not be reported at all,
because every empty slot then looks ready. -/
def NoClient (tcpServerFd : ℤ) (t : Turn) : Prop :=
  t.ret ≤ 0 ∨ t.ready tcpServerFd.toNat = false ∨ (tcpServerFd ≠ 7 ∧ t.newFd < 0)

instance (fd : ℤ) (t : Turn) : Decidable (NoClient fd t) := inferInstanceAs (Decidable (_ ∨ _ ∨ _))

section
variable {tcpServerFd : ℤ} {t : Turn}

/-- The listening socket's bit is the only one requested while the table is empty. -/
theorem select_init (h0 : 0 ≤ tcpServerFd) (h7 : tcpServerFd ≤ 7) (b : ℕ) :
    select t tcpServerFd (requested tcpServerFd (initTable tcpServerFd)) b =
      (b == tcpServerFd.toNat && t.ready b) := by
  have hbit : fdBit tcpServerFd = tcpServerFd.toNat := by
    unfold fdBit
    omega
  have hreq : requested tcpServerFd (initTable tcpServerFd) b = (b == tcpServerFd.toNat) := by
    simp [requested, initTable, tcpServerClientMaxNum, fdSet, fdZero, hbit]
  unfold select
  rw [hreq]
  by_cases hb : b = tcpServerFd.toNat
  · have hlt : (b : ℤ) < tcpServerFd + 1 := by omega
    rw [decide_eq_true hlt, Bool.and_true]
  · simp [hb]

/-- An empty table with the count `c`. -/
def emptyTable (tcpServerFd c : ℤ) : Table := { initTable tcpServerFd with clientConnectCount := c }

/-- An empty slot is served when the bit of descriptor 7 is set. -/
theorem serveSlot_empty (c : ℤ) (p : FdSet) (i : ℕ) :
    serveSlot t (emptyTable tcpServerFd c, p) i =
      if p 7 then (emptyTable tcpServerFd (c - 1), fdClr (-1) p)
      else (emptyTable tcpServerFd c, p) := by
  have hfd : (emptyTable tcpServerFd c).lanClient.getD i (-1) = -1 := by
    change (List.replicate tcpServerClientMaxNum (-1)).getD i (-1) = (-1 : ℤ)
    rw [List.getD_eq_getElem?_getD, List.getElem?_replicate]
    split_ifs <;> rfl
  have hset : (emptyTable tcpServerFd c).lanClient.set i (-1) =
      (emptyTable tcpServerFd c).lanClient := List.set_replicate_self
  have hbit : fdIsset (-1) p = p 7 := rfl
  unfold serveSlot
  simp only [hfd, hset, hbit, recvSlot]
  rfl

/-- Nothing happens to an empty table while the bit of descriptor 7 is clear. -/
theorem foldl_serveSlot_clear {c : ℤ} {p : FdSet} (h7 : p 7 = false) (l : List ℕ) :
    l.foldl (serveSlot t) (emptyTable tcpServerFd c, p) = (emptyTable tcpServerFd c, p) := by
  induction l with
  | nil => rfl
  | cons i l ih =>
    rw [List.foldl_cons, serveSlot_empty, h7]
    exact ih

/-- The loop over the slots of an empty table. The first slot clears the bit for the other ones. -/
theorem serve_empty (p : FdSet) :
    (List.range tcpServerClientMaxNum).foldl (serveSlot t) (initTable tcpServerFd, p) =
      if p 7 then (emptyTable tcpServerFd (-1), fdClr (-1) p) else (initTable tcpServerFd, p) := by
  have hrange : List.range tcpServerClientMaxNum = 0 :: [1, 2, 3, 4] := rfl
  have hclr : fdClr (-1) p 7 = false := Bool.and_false _
  change List.foldl (serveSlot t) (emptyTable tcpServerFd 0, p) _ = _
  by_cases h7 : p 7 = true
  · rw [if_pos h7, hrange, List.foldl_cons, serveSlot_empty, if_pos h7]
    exact foldl_serveSlot_clear hclr _
  · rw [if_neg h7]
    exact foldl_serveSlot_clear (Bool.not_eq_true _ ▸ h7) _

/-- The first turn of a run. -/
theorem step_init (h0 : 0 ≤ tcpServerFd) (h7 : tcpServerFd ≤ 7) :
    step tcpServerFd (initTable tcpServerFd) t =
      if t.ret ≤ 0 ∨ t.ready tcpServerFd.toNat = false then some (initTable tcpServerFd)
      else if tcpServerFd = 7 then some (emptyTable tcpServerFd (-1))
      else acceptClient t (initTable tcpServerFd) := by
  have hbit : fdBit tcpServerFd = tcpServerFd.toNat := by
    unfold fdBit
    omega
  have hmax : (initTable tcpServerFd).maxSock = tcpServerFd := rfl
  have hseven := select_init (t := t) h0 h7 7
  have hlisten := select_init (t := t) h0 h7 (fdBit tcpServerFd)
  rw [hbit, beq_self_eq_true, Bool.true_and, ← hbit] at hlisten
  unfold step
  by_cases hret : t.ret ≤ 0
  · rw [if_pos hret, if_pos (.inl hret)]
  simp only [serve_empty, hmax, hret, if_false, false_or]
  generalize select t tcpServerFd (requested tcpServerFd (initTable tcpServerFd)) = p at *
  by_cases hfd : tcpServerFd = 7
  · -- an empty slot takes the report of the listening socket for its own
    subst hfd
    have hclr : fdIsset 7 (fdClr (-1) p) = false := Bool.and_false _
    have hp : p 7 = t.ready 7 := hlisten
    rw [hp]
    by_cases hready : t.ready 7 = true
    · simp [hready, hclr]
    · simp [hready, fdIsset, fdBit, hp]
  · have hne : (7 == tcpServerFd.toNat) = false := by
      rw [beq_eq_false_iff_ne]
      omega
    simp only [hseven, hne, Bool.false_and, Bool.false_eq_true, if_false, if_neg hfd, fdIsset,
      hlisten]
    rw [hbit]
    by_cases hready : t.ready tcpServerFd.toNat = true <;> simp [hready]

/-- A turn that brings no client leaves the empty table as it is; any other one unbalances it. -/
theorem step_init_balanced (h0 : 0 ≤ tcpServerFd) (h7 : tcpServerFd ≤ 7) :
    (NoClient tcpServerFd t → step tcpServerFd (initTable tcpServerFd) t =
      some (initTable tcpServerFd)) ∧
    (∀ s, step tcpServerFd (initTable tcpServerFd) t = some s → Balanced s →
      NoClient tcpServerFd t) := by
  rw [step_init h0 h7]
  unfold NoClient
  by_cases hquiet : t.ret ≤ 0 ∨ t.ready tcpServerFd.toNat = false
  · rw [if_pos hquiet]
    exact ⟨fun _ => rfl, fun _ _ _ => by rcases hquiet with h | h <;> simp [h]⟩
  rw [if_neg hquiet]
  by_cases hfd : tcpServerFd = 7
  · rw [if_pos hfd]
    refine ⟨fun h => ?_, fun s hs hbal => ?_⟩
    · rcases h with h | h | h
      · exact absurd (.inl h) hquiet
      · exact absurd (.inr h) hquiet
      · exact absurd hfd h.1
    · cases hs
      have hneg : (0 : ℤ) ≤ -1 := hbal.2.1
      omega
  · rw [if_neg hfd, acceptClient]
    by_cases hnew : t.newFd < 0
    · rw [if_pos hnew]
      exact ⟨fun _ => rfl, fun _ _ _ => .inr (.inr ⟨hfd, hnew⟩)⟩
    · rw [if_neg hnew]
      refine ⟨fun h => ?_, fun s hs hbal => ?_⟩
      · rcases h with h | h | h
        · exact absurd (.inl h) hquiet
        · exact absurd (.inr h) hquiet
        · exact absurd h.2 hnew
      · -- the new client takes the first slot, and nothing counts it
        have hslot : emptySlot (initTable tcpServerFd) = 0 := rfl
        have hcount : (initTable tcpServerFd).clientConnectCount < tcpServerClientMaxNum :=
          show (0 : ℤ) < (5 : ℕ) by decide
        rw [hslot, if_pos hcount, if_pos (by decide)] at hs
        cases hs
        have hused : (0 : ℤ) = ([t.newFd, -1, -1, -1, -1].countP (· ≥ 0) : ℕ) := hbal.1
        rw [List.countP_cons_of_pos (by simpa using hnew)] at hused
        omega

/-- A run from the empty table is balanced throughout exactly when no turn brings a client. -/
theorem runBalanced_init (h0 : 0 ≤ tcpServerFd) (h7 : tcpServerFd ≤ 7) (ts : List Turn) :
    RunBalanced tcpServerFd (initTable tcpServerFd) ts ↔ ∀ t ∈ ts, NoClient tcpServerFd t := by
  have hinit : Balanced (initTable tcpServerFd) := by
    refine ⟨rfl, Int.le_refl 0, ?_⟩
    change (0 : ℤ) ≤ (5 : ℕ)
    omega
  -- a balanced run never leaves the empty table, so every turn is like the first one
  induction ts with
  | nil =>
    refine ⟨fun _ t ht => absurd ht List.not_mem_nil, fun _ n _ => ⟨initTable tcpServerFd, ?_, hinit⟩⟩
    rw [List.take_nil]
    rfl
  | cons t ts ih =>
    obtain ⟨hstay, hbring⟩ := step_init_balanced (t := t) h0 h7
    rw [List.forall_mem_cons]
    constructor
    · intro h
      have ht : NoClient tcpServerFd t := by
        obtain ⟨s', hrun, hbal⟩ := h 1 (by simp)
        rw [List.take_succ_cons, List.take_zero, run] at hrun
        obtain ⟨s, hs, hrun⟩ := Option.bind_eq_some_iff.mp hrun
        cases hrun
        exact hbring _ hs hbal
      refine ⟨ht, ih.mp fun n hn => ?_⟩
      obtain ⟨s', hrun, hbal⟩ := h (n + 1) (by simpa using hn)
      rw [List.take_succ_cons, run, hstay ht, Option.bind_some] at hrun
      exact ⟨s', hrun, hbal⟩
    · rintro ⟨ht, h⟩ n hn
      cases n with
      | zero => exact ⟨_, rfl, hinit⟩
      | succ n =>
        obtain ⟨s', hrun, hbal⟩ := ih.mpr h n (by simpa using hn)
        refine ⟨s', ?_, hbal⟩
        rw [List.take_succ_cons, run, hstay ht, Option.bind_some]
        exact hrun

end

/-- A turn in which only the listening socket 0 is ready and a client is accepted as `fd`. -/
def connect (fd : ℤ) : Turn where
  ret := 1
  ready b := b == 0
  recv _ := 0
  newFd := fd

/-- The first client is not counted, and the sixth one is stored behind the end of the table. -/
theorem tcpServer_unbalanced :
    (∃ s, run 0 (initTable 0) [connect 1] = some s ∧ ¬ Balanced s) ∧
      (∃ s, run 0 (initTable 0) [connect 1, connect 2, connect 3, connect 4, connect 5] = some s ∧
        emptySlot s = 5) ∧
      run 0 (initTable 0)
        [connect 1, connect 2, connect 3, connect 4, connect 5, connect 6] = none := by
  refine ⟨⟨⟨[1, -1, -1, -1, -1], 0, 2⟩, by decide, by decide⟩,
    ⟨⟨[1, 2, 3, 4, 5], 0, 6⟩, by decide, by decide⟩, by decide⟩

/-- For the server on any of the eight descriptors of the stack, the counter is the number of slots
in use in every state of a run, is in range, and no client is stored outside the table, exactly when
no turn of the run brings a client. -/
theorem tcpServer_balanced_iff (tcpServerFd : ℤ) (h0 : 0 ≤ tcpServerFd) (h7 : tcpServerFd ≤ 7)
    (ts : List Turn) :
    (∀ n ≤ ts.length, ∃ s, run tcpServerFd (initTable tcpServerFd) (ts.take n) = some s ∧
      s.clientConnectCount = used s ∧ 0 ≤ s.clientConnectCount ∧
      s.clientConnectCount ≤ tcpServerClientMaxNum) ↔
    ∀ t ∈ ts, NoClient tcpServerFd t :=
  runBalanced_init h0 h7 ts

/-- A failed `accept` keeps the server on descriptor 0 balanced. -/
theorem tcpServer_balanced_failed_accept :
    ∃ s, run 0 (initTable 0) [connect (-1)] = some s ∧
      s.clientConnectCount = used s ∧ 0 ≤ s.clientConnectCount ∧
      s.clientConnectCount ≤ tcpServerClientMaxNum :=
  (tcpServer_balanced_iff 0 (by decide) (by decide) [connect (-1)]).mpr (by decide) 1 (by decide)

end NuAgent.Net
