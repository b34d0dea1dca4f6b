import Mathlib.Tactic.SplitIfs
import NuAgent.Dhcp.Server
import NuAgent.Lib.Trace

/-!
# Looking up a host

Reference: `GAgent_GetHostByName` and `Gagent_ServerFound` of `network_adapter.c`, and
`ipaddr_ntoa_r` of lwIP.

A lookup that lwIP cannot answer at once waits for a callback, which passes its result through the
global address `domain_ipaddr`, the global flag `domain_flag` and a counting semaphore. None of the
three is reset between lookups, and a lookup that is answered at once copies the global address too.
The machine interleaves the steps of the calls, which come one after the other, with the callbacks
of all lookups that are still open, and records which addresses the resolver gave for which call.
-/

namespace NuAgent.Net

open NuAgent.Dhcp (wordBytes)

/-! ## Dotted decimals -/

/-- A decimal digit. -/
def decimalDigit (n : ℕ) : Char := Char.ofNat (48 + n)

/-- The decimal digits of a byte, at most three turns of the loop of `ipaddr_ntoa_r`. -/
def byteText (b : UInt8) : List Char :=
  let n := b.toNat
  if n < 10 then [decimalDigit n]
  else if n < 100 then [decimalDigit (n / 10), decimalDigit (n % 10)]
  else [decimalDigit (n / 100), decimalDigit (n / 10 % 10), decimalDigit (n % 10)]

/-- `inet_ntoa`: each byte of the address in memory followed by a dot, the last of which is
overwritten. -/
def inetNtoa (addr : UInt32) : List Char :=
  ((wordBytes addr).flatMap fun b => byteText b ++ ['.']).dropLast

theorem byteText_inj_aux : ∀ i : Fin 256,
    ('.' ∉ byteText (UInt8.ofFin i)) ∧
      (byteText (UInt8.ofFin i)).foldl (fun n c => 10 * n + (c.toNat - 48)) 0 = i.val := by
  decide +kernel

theorem dot_not_mem_byteText (b : UInt8) : '.' ∉ byteText b := (byteText_inj_aux b.toFin).1

theorem byteText_inj {a b : UInt8} (h : byteText a = byteText b) : a = b := by
  have ha := (byteText_inj_aux a.toFin).2
  have hb := (byteText_inj_aux b.toFin).2
  have hval : a.toFin.val = b.toFin.val := by
    rw [← ha, ← hb]
    exact congrArg _ h
  exact UInt8.toFin_inj.mp (Fin.ext hval)

theorem wordBytes_inj {a b : UInt32} (h : wordBytes a = wordBytes b) : a = b := by
  simp only [wordBytes, List.cons.injEq, and_true, ← UInt8.toNat_inj, UInt32.toNat_toUInt8,
    UInt32.toNat_shiftRight] at h
  obtain ⟨h0, h1, h2, h3⟩ := h
  have ha := a.toNat_lt
  have hb := b.toNat_lt
  simp [Nat.shiftRight_eq_div_pow] at h0 h1 h2 h3
  apply UInt32.toNat_inj.mp
  omega

/-- What stands before a separator that occurs in neither prefix is determined. -/
theorem append_sep_inj {α : Type*} {c : α} {x y xs ys : List α} (hx : c ∉ x) (hy : c ∉ y)
    (h : x ++ c :: xs = y ++ c :: ys) : x = y ∧ xs = ys := by
  induction x generalizing y with
  | nil =>
    cases y with
    | nil => exact ⟨rfl, (List.cons.inj h).2⟩
    | cons d y => exact absurd ((List.cons.inj h).1 ▸ List.mem_cons_self) hy
  | cons e x ih =>
    cases y with
    | nil => exact absurd ((List.cons.inj h).1 ▸ List.mem_cons_self) hx
    | cons d y =>
      obtain ⟨rfl, htail⟩ := List.cons.inj h
      obtain ⟨rfl, hrest⟩ := ih (fun hm => hx (List.mem_cons_of_mem _ hm))
        (fun hm => hy (List.mem_cons_of_mem _ hm)) htail
      exact ⟨rfl, hrest⟩

theorem dotted_inj {xs ys : List UInt8} (hlen : xs.length = ys.length)
    (h : (xs.flatMap fun b => byteText b ++ ['.']) = ys.flatMap fun b => byteText b ++ ['.']) :
    xs = ys := by
  induction xs generalizing ys with
  | nil => exact (List.length_eq_zero_iff.mp hlen.symm).symm
  | cons x xs ih =>
    cases ys with
    | nil => simp at hlen
    | cons y ys =>
      simp only [List.flatMap_cons, List.append_assoc, List.singleton_append] at h
      obtain ⟨htext, hrest⟩ := append_sep_inj (dot_not_mem_byteText x) (dot_not_mem_byteText y) h
      rw [byteText_inj htext, ih (by simpa using hlen) hrest]

/-- Different addresses have different texts. -/
theorem inetNtoa_inj {a b : UInt32} : inetNtoa a = inetNtoa b ↔ a = b := by
  refine ⟨fun h => wordBytes_inj (dotted_inj rfl ?_), fun h => h ▸ rfl⟩
  -- the dot that was overwritten is the same for both
  have hdot : ∀ addr : UInt32, ((wordBytes addr).flatMap fun b => byteText b ++ ['.'])
      = inetNtoa addr ++ ['.'] := by
    intro addr
    simp only [inetNtoa, wordBytes, List.flatMap_cons, List.flatMap_nil, List.append_nil,
      ← List.append_assoc, List.dropLast_concat]
  rw [hdot, hdot, h]

/-! ## The machine -/

/-- What `dns_gethostbyname` answers at once: `ERR_OK` with the address it filled in,
`ERR_INPROGRESS`, or an error. -/
inductive DnsAnswer
  | ok (addr : UInt32)
  | inProgress
  | error

/-- Where the current call of `GAgent_GetHostByName` is. -/
inductive DnsPoint
  | idle
  /-- `ERR_OK`: the address is about to be copied. -/
  | copyCached (call : ℕ)
  /-- `OSSemPend(pdomainSem, 10, &Err)`. -/
  | pend (call : ℕ)
  /-- `if (domain_flag == 1)`. -/
  | testFlag (call : ℕ)
  /-- The address is about to be copied after the wait. -/
  | copyFound (call : ℕ)
deriving DecidableEq

/-- The globals of `network_adapter.c`, the current call, and what has happened so far. -/
structure Resolver where
  domainIpaddr : UInt32 := 0
  domainFlag : ℕ := 0
  /-- The count of `pdomainSem`. -/
  sem : ℕ := 0
  point : DnsPoint := .idle
  /-- The number of calls made, the current one included. -/
  calls : ℕ := 0
  /-- The calls whose callback is still to come. -/
  outstanding : List ℕ := []
  /-- The addresses the resolver gave, each with its call. -/
  given : List (ℕ × UInt32) := []
  /-- The addresses that callbacks brought. -/
  brought : List UInt32 := []
  /-- The calls that returned zero, each with the text it left in `IPAddress`. -/
  returned : List (ℕ × List Char) := []

/-- The steps of the parties. -/
inductive DnsEvent
  /-- A call, once no other is running, with the resolver's immediate answer. -/
  | call (answer : DnsAnswer)
  /-- A step of the current call. -/
  | caller
  /-- The current call has waited ten ticks for the semaphore. -/
  | timeout
  /-- `Gagent_ServerFound` for an earlier call; `none` is the `NULL` pointer. -/
  | serverFound (call : ℕ) (ipaddr : Option UInt32)

/-- `OSSemPost`, which refuses to count beyond 65535. -/
def semPost (sem : ℕ) : ℕ := if sem < 65535 then sem + 1 else sem

/-- `Gagent_ServerFound`. -/
def Resolver.gagentServerFound (s : Resolver) (ipaddr : Option UInt32) : Resolver :=
  match ipaddr with
  | some addr =>
      if addr ≠ 0 then
        { s with
          domainIpaddr := addr
          domainFlag := 1
          sem := semPost s.sem
          brought := s.brought ++ [addr] }
      else { s with domainFlag := 0, sem := semPost s.sem }
  | none => { s with domainFlag := 0, sem := semPost s.sem }

/-- The text of the global address is copied and the call returns zero. -/
def Resolver.copy (s : Resolver) (call : ℕ) : Resolver :=
  { s with returned := s.returned ++ [(call, inetNtoa s.domainIpaddr)], point := .idle }

/-- One step of `GAgent_GetHostByName` after the switch on the resolver's answer. -/
def Resolver.act (s : Resolver) : Resolver :=
  match s.point with
  | .idle => s
  | .copyCached call => s.copy call
  | .pend call =>
      if 0 < s.sem then { s with sem := s.sem - 1, point := .testFlag call } else s
  | .testFlag call =>
      if s.domainFlag = 1 then { s with point := .copyFound call } else { s with point := .idle }
  | .copyFound call => s.copy call

/-- One step of any party; an event that its party cannot take changes nothing. -/
def Resolver.step (s : Resolver) : DnsEvent → Resolver
  | .call answer =>
      if s.point ≠ .idle then s
      else
        match answer with
        | .ok addr =>
            { s with
              calls := s.calls + 1
              given := s.given ++ [(s.calls, addr)]
              point := .copyCached s.calls }
        | .inProgress =>
            { s with
              calls := s.calls + 1
              outstanding := s.outstanding ++ [s.calls]
              point := .pend s.calls }
        | .error => { s with calls := s.calls + 1 }
  | .caller => s.act
  | .timeout =>
      match s.point with
      | .pend call => if s.sem = 0 then { s with point := .testFlag call } else s
      | _ => s
  | .serverFound call ipaddr =>
      if call ∈ s.outstanding then
        { s with
          outstanding := s.outstanding.erase call
          given := s.given ++ ipaddr.toList.map fun addr => (call, addr) }.gagentServerFound ipaddr
      else s

/-- The machine after a run from the start of the program. -/
def Resolver.run (evs : List DnsEvent) : Resolver := Trace.run Resolver.step {} evs

/-- The address that a callback brought last, zero before the first. -/
def Resolver.latest (s : Resolver) : UInt32 := s.brought.getLast?.getD 0

/-! ## What a lookup returns -/

theorem Resolver.step_domainIpaddr (s : Resolver) (e : DnsEvent) (h : s.domainIpaddr = s.latest) :
    (s.step e).domainIpaddr = (s.step e).latest := by
  have hact : s.act.domainIpaddr = s.domainIpaddr ∧ s.act.brought = s.brought := by
    unfold act
    split <;> try split_ifs
    all_goals exact ⟨rfl, rfl⟩
  cases e with
  | call answer =>
    simp only [step]
    split_ifs
    · exact h
    · cases answer <;> exact h
  | caller =>
    show s.act.domainIpaddr = s.act.latest
    rw [hact.1, latest, hact.2]
    exact h
  | timeout =>
    simp only [step]
    split
    · split_ifs <;> exact h
    · exact h
  | serverFound call ipaddr =>
    simp only [step]
    split_ifs
    · unfold gagentServerFound
      split
      · split_ifs
        · simp [latest]
        · exact h
      · exact h
    · exact h

/-- The global address is the one that a callback brought last. -/
theorem Resolver.run_domainIpaddr (evs : List DnsEvent) :
    (Resolver.run evs).domainIpaddr = (Resolver.run evs).latest := by
  have hstep : ∀ (s : Resolver) e, s.domainIpaddr = s.latest →
      (s.step e).domainIpaddr = (s.step e).latest := fun s e h => s.step_domainIpaddr e h
  exact Trace.run_inv hstep rfl evs

/-- Each call is given one address at most, and none while its callback is to come. -/
structure Resolver.Once (s : Resolver) : Prop where
  unique : ∀ k a b, (k, a) ∈ s.given → (k, b) ∈ s.given → a = b
  given_lt : ∀ k a, (k, a) ∈ s.given → k < s.calls
  nodup : s.outstanding.Nodup
  outstanding_lt : ∀ k ∈ s.outstanding, k < s.calls
  disjoint : ∀ k ∈ s.outstanding, ∀ a, (k, a) ∉ s.given

theorem Resolver.Once.congr {s s' : Resolver} (h : s.Once) (hgiven : s'.given = s.given)
    (hcalls : s'.calls = s.calls) (hout : s'.outstanding = s.outstanding) : s'.Once := by
  obtain ⟨hu, hg, hn, ho, hd⟩ := h
  constructor <;> simp only [hgiven, hcalls, hout] <;> assumption

/-- A call that has no address yet and waits for no other one may be given one. -/
theorem Resolver.Once.give {s s' : Resolver} (h : s.Once) {call : ℕ} (ipaddr : Option UInt32)
    (hcall : call < s'.calls) (hle : s.calls ≤ s'.calls) (hnew : ∀ a, (call, a) ∉ s.given)
    (hgiven : s'.given = s.given ++ ipaddr.toList.map fun addr => (call, addr))
    (hn : s'.outstanding.Nodup) (hout : ∀ k ∈ s'.outstanding, k ∈ s.outstanding ∧ k ≠ call) :
    s'.Once := by
  have hmem : ∀ k a, (k, a) ∈ s'.given ↔ (k, a) ∈ s.given ∨ (k = call ∧ ipaddr = some a) := by
    intro k a
    rw [hgiven, List.mem_append]
    cases ipaddr <;> simp [eq_comm]
  refine ⟨?_, ?_, hn, fun k hk => (h.outstanding_lt k (hout k hk).1).trans_le hle, ?_⟩
  · intro k a b ha hb
    rcases (hmem k a).mp ha with ha | ⟨rfl, ha⟩ <;> rcases (hmem k b).mp hb with hb | ⟨hk, hb⟩
    · exact h.unique k a b ha hb
    · exact absurd (hk ▸ ha) (hnew a)
    · exact absurd hb (hnew b)
    · exact Option.some.inj (ha.symm.trans hb)
  · intro k a ha
    rcases (hmem k a).mp ha with ha | ⟨rfl, -⟩
    · exact (h.given_lt k a ha).trans_le hle
    · exact hcall
  · intro k hk a ha
    obtain ⟨hk, hne⟩ := hout k hk
    rcases (hmem k a).mp ha with ha | ⟨hkc, -⟩
    · exact h.disjoint k hk a ha
    · exact hne hkc

theorem Resolver.gagentServerFound_frame (s : Resolver) (ipaddr : Option UInt32) :
    (s.gagentServerFound ipaddr).given = s.given ∧
      (s.gagentServerFound ipaddr).calls = s.calls ∧
      (s.gagentServerFound ipaddr).outstanding = s.outstanding := by
  unfold gagentServerFound
  split <;> try split_ifs
  all_goals exact ⟨rfl, rfl, rfl⟩

theorem Resolver.act_frame (s : Resolver) :
    s.act.given = s.given ∧ s.act.calls = s.calls ∧ s.act.outstanding = s.outstanding := by
  unfold act
  split <;> try split_ifs
  all_goals exact ⟨rfl, rfl, rfl⟩

theorem Resolver.Once.step {s : Resolver} (h : s.Once) (e : DnsEvent) : (s.step e).Once := by
  -- the new call has the number that no earlier one has
  have hfresh : ∀ a, (s.calls, a) ∉ s.given := fun a ha => (h.given_lt _ a ha).false
  have hout : ∀ k ∈ s.outstanding, k ∈ s.outstanding ∧ k ≠ s.calls := fun k hk =>
    ⟨hk, (h.outstanding_lt k hk).ne⟩
  cases e with
  | call answer =>
    simp only [Resolver.step]
    split_ifs
    · exact h
    · cases answer with
      | ok addr =>
        exact h.give (some addr) (Nat.lt_succ_self _) (Nat.le_succ _) hfresh rfl h.nodup
          hout
      | inProgress =>
        obtain ⟨hu, hg, hn, ho, hd⟩ := h
        refine ⟨hu, fun k a ha => (hg k a ha).trans (Nat.lt_succ_self _), ?_, ?_, ?_⟩
        · exact List.nodup_append.mpr ⟨hn, List.nodup_singleton _, fun k hk k' hk' => by
            rw [List.mem_singleton.mp hk']
            exact (ho k hk).ne⟩
        · intro k hk
          rcases List.mem_append.mp hk with hk | hk
          · exact (ho k hk).trans (Nat.lt_succ_self _)
          · rw [List.mem_singleton.mp hk]
            exact Nat.lt_succ_self _
        · intro k hk
          rcases List.mem_append.mp hk with hk | hk
          · exact hd k hk
          · rw [List.mem_singleton.mp hk]
            exact hfresh
      | error =>
        exact h.give none (Nat.lt_succ_self _) (Nat.le_succ _) hfresh (by simp) h.nodup
          hout
  | caller => exact h.congr s.act_frame.1 s.act_frame.2.1 s.act_frame.2.2
  | timeout =>
    simp only [Resolver.step]
    split
    · split_ifs <;> exact h.congr rfl rfl rfl
    · exact h
  | serverFound call ipaddr =>
    simp only [Resolver.step]
    split_ifs with hcall
    · obtain ⟨hgiven, hcalls, houts⟩ := gagentServerFound_frame
        { s with
          outstanding := s.outstanding.erase call
          given := s.given ++ ipaddr.toList.map fun addr => (call, addr) } ipaddr
      refine h.give ipaddr ?_ (Nat.le_of_eq hcalls.symm) (h.disjoint call hcall) hgiven ?_ ?_
      · rw [hcalls]
        exact h.outstanding_lt call hcall
      · rw [houts]
        exact h.nodup.erase call
      · intro k hk
        rw [houts] at hk
        exact ⟨List.mem_of_mem_erase hk, fun hkc => (h.nodup.mem_erase_iff.mp hk).1 hkc⟩
    · exact h

/-- In every run the resolver has given a call one address at most. -/
theorem Resolver.given_unique (evs : List DnsEvent) {call : ℕ} {a b : UInt32}
    (ha : (call, a) ∈ (Resolver.run evs).given) (hb : (call, b) ∈ (Resolver.run evs).given) :
    a = b := by
  have hstep : ∀ (s : Resolver) e, s.Once → (s.step e).Once := fun _ e h => h.step e
  have hinit : ({} : Resolver).Once := by constructor <;> simp
  exact (Trace.run_inv hstep hinit evs).unique call a b ha hb

/-- A step of a call returns zero exactly at the two copies, with the text of the global address. -/
theorem Resolver.act_returned (s : Resolver) (call : ℕ) (text : List Char) :
    s.act.returned = s.returned ++ [(call, text)] ↔
      (s.point = .copyCached call ∨ s.point = .copyFound call) ∧
        text = inetNtoa s.domainIpaddr := by
  have hcopy : ∀ k, (s.copy k).returned = s.returned ++ [(call, text)] ↔
      k = call ∧ text = inetNtoa s.domainIpaddr := by
    intro k
    simp [copy, eq_comm]
  have hquiet : ¬ s.returned = s.returned ++ [(call, text)] := by simp
  unfold act
  split
  case h_1 hp => simp [hp]
  case h_2 k hp => rw [hcopy, hp]; simp
  case h_3 k hp => split_ifs <;> simp [hp]
  case h_4 k hp => split_ifs <;> simp [hp]
  case h_5 k hp => rw [hcopy, hp]; simp

/-- **When a lookup returns the right address.** In every run, each call that returns zero leaves
the text of the address that the resolver gave for it exactly when, whenever the global address is
copied, the address that a callback brought last is the one given for the copying call. No call is
given two addresses (`Resolver.given_unique`). -/
theorem lookup_correct (evs : List DnsEvent) :
    (∀ pre post, evs = pre ++ .caller :: post → ∀ call text,
      (Resolver.run (pre ++ [.caller])).returned = (Resolver.run pre).returned ++ [(call, text)] →
        ∃ addr, (call, addr) ∈ (Resolver.run pre).given ∧ text = inetNtoa addr) ↔
    ∀ pre post, evs = pre ++ .caller :: post → ∀ call,
      (Resolver.run pre).point = .copyCached call ∨ (Resolver.run pre).point = .copyFound call →
        (call, (Resolver.run pre).latest) ∈ (Resolver.run pre).given := by
  refine forall_congr' fun pre => forall_congr' fun post => imp_congr_right fun _ =>
    forall_congr' fun call => ?_
  have hlast : Resolver.run (pre ++ [.caller]) = (Resolver.run pre).act := by
    rw [Resolver.run, Trace.run_append]
    rfl
  have hip := Resolver.run_domainIpaddr pre
  rw [hlast]
  simp only [Resolver.act_returned, hip]
  constructor
  · intro h hp
    obtain ⟨addr, hgiven, htext⟩ := h _ ⟨hp, rfl⟩
    rw [inetNtoa_inj.mp htext]
    exact hgiven
  · rintro h text ⟨hp, rfl⟩
    exact ⟨_, h hp, rfl⟩

/-- A numeric host name is answered at once and yet looked up as `0.0.0.0`; and after a wait that
timed out, the late answer for the first host is returned for the second. -/
theorem lookup_wrong :
    (Resolver.run [.call (.ok 0x0a01a8c0), .caller]).returned
      = [(0, ['0', '.', '0', '.', '0', '.', '0'])] ∧
    inetNtoa 0x0a01a8c0 = ['1', '9', '2', '.', '1', '6', '8', '.', '1', '.', '1', '0'] ∧
    (Resolver.run [.call .inProgress, .timeout, .caller, .call .inProgress,
      .serverFound 0 (some 0x0a01a8c0), .caller, .caller, .caller]).returned
      = [(1, inetNtoa 0x0a01a8c0)] := by
  refine ⟨by decide, by decide, by decide⟩

end NuAgent.Net
