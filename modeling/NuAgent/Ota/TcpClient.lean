import Mathlib.Data.List.Infix
import NuAgent.Lib.Trace

/-!
# Handing buffers to the TCP session

Reference: `MinaTCPClient.sendSignaling`.

`sendSignaling` stores its argument in the field `ioBuffer` and schedules a task on a
single-threaded executor. The task reads the field when it runs. Two parties interleave: the upgrade
thread, whose calls are a store followed by a submission, and the executor, which runs submitted
tasks one at a time in the order of submission. The session stays open.
-/

namespace NuAgent.Ota

/-! ## The machine -/

/-- The client, with the buffers passed to `sendSignaling` and to `session.write` so far. -/
structure TcpClient (B : Type*) where
  ioBuffer : Option B := none
  /-- A call has stored its buffer and not yet submitted its task. -/
  inCall : Bool := false
  /-- The number of tasks submitted and not yet run. -/
  pending : ℕ := 0
  called : List B := []
  written : List B := []

/-- The steps of the two parties. -/
inductive TcpEvent (B : Type*)
  /-- `ioBuffer = buffer`, the first statement of a call. -/
  | store (buffer : B)
  /-- `checkSession.schedule(..)`, the second statement of the call. -/
  | schedule
  /-- The executor runs the oldest task. -/
  | task

variable {B : Type*}

/-- One step; an event that its party cannot take leaves the client as it is. -/
def TcpClient.step (c : TcpClient B) : TcpEvent B → TcpClient B
  | .store buffer =>
      if c.inCall then c
      else { c with ioBuffer := some buffer, inCall := true, called := c.called ++ [buffer] }
  | .schedule =>
      if c.inCall then { c with inCall := false, pending := c.pending + 1 } else c
  | .task =>
      if c.pending = 0 then c
      else { c with pending := c.pending - 1, written := c.written ++ c.ioBuffer.toList }

/-- The client after a run. -/
def TcpClient.run (evs : List (TcpEvent B)) : TcpClient B := Trace.run TcpClient.step {} evs

/-! ## What a run keeps -/

/-- The field holds the buffer of the newest call, and every call that is not written yet has its
task or is about to submit it. -/
structure TcpClient.Inv (c : TcpClient B) : Prop where
  newest : c.ioBuffer = c.called.getLast?
  count : c.written.length + c.pending + c.inCall.toNat = c.called.length

theorem TcpClient.Inv.step {c : TcpClient B} (h : c.Inv) (e : TcpEvent B) : (c.step e).Inv := by
  obtain ⟨hnew, hcount⟩ := h
  cases e with
  | store buffer =>
    simp only [TcpClient.step]
    split_ifs with hc
    · exact ⟨hnew, hcount⟩
    · rw [Bool.not_eq_true] at hc
      rw [hc, Bool.toNat_false] at hcount
      exact ⟨by simp, by simp [← hcount]⟩
  | schedule =>
    simp only [TcpClient.step]
    split_ifs with hc
    · rw [hc, Bool.toNat_true] at hcount
      exact ⟨hnew, by simp only [Bool.toNat_false]; omega⟩
    · exact ⟨hnew, hcount⟩
  | task =>
    simp only [TcpClient.step]
    split_ifs with hp
    · exact ⟨hnew, hcount⟩
    · obtain ⟨b, hb⟩ : ∃ b, c.ioBuffer = some b := by
        rw [hnew, ← Option.isSome_iff_exists, List.getLast?_isSome]
        exact List.ne_nil_of_length_pos (by omega)
      refine ⟨hnew, ?_⟩
      simp only [hb, Option.toList_some, List.length_append, List.length_singleton]
      omega

/-! ## Delivery -/

/-- Everything written so far is what was passed to `sendSignaling`, each buffer once and in call
order, and nothing is missing once no task is outstanding. -/
def TcpClient.Delivered (c : TcpClient B) : Prop :=
  c.written <+: c.called ∧ (c.inCall = false → c.pending = 0 → c.written = c.called)

/-- A task that runs now finds in the field the buffer of the call it was scheduled by, which is the
oldest one not written. -/
def TcpClient.Timely (c : TcpClient B) (e : TcpEvent B) : Prop :=
  e = .task → c.pending ≠ 0 → c.called[c.written.length]? = c.called.getLast?

theorem TcpClient.Inv.delivered_iff {c : TcpClient B} (h : c.Inv) :
    c.Delivered ↔ c.written <+: c.called := by
  refine ⟨fun hd => hd.1, fun hd => ⟨hd, fun hin hp => hd.eq_of_length ?_⟩⟩
  have hcount := h.count
  rw [hin, hp, Bool.toNat_false] at hcount
  omega

theorem concat_prefix_iff {xs ys : List B} {b : B} :
    xs ++ [b] <+: ys ↔ xs <+: ys ∧ ys[xs.length]? = some b := by
  constructor
  · rintro ⟨t, rfl⟩
    exact ⟨⟨[b] ++ t, by simp⟩, by simp⟩
  · rintro ⟨⟨t, rfl⟩, hb⟩
    rw [List.getElem?_append_right (Nat.le_refl _), Nat.sub_self] at hb
    cases t with
    | nil => simp at hb
    | cons c t =>
      obtain rfl : c = b := by simpa using hb
      exact ⟨t, by simp⟩

/-- A step keeps delivery exactly when it is timely, and lost delivery is never regained. -/
theorem TcpClient.Inv.step_delivered {c : TcpClient B} (h : c.Inv) (e : TcpEvent B) :
    (c.step e).Delivered ↔ c.Delivered ∧ c.Timely e := by
  rw [(h.step e).delivered_iff, h.delivered_iff]
  have hcount := h.count
  cases e with
  | store buffer =>
    have htimely : c.Timely (.store buffer) := fun he => by cases he
    simp only [TcpClient.step]
    split_ifs with hc
    · simp [htimely]
    · -- the list of calls grows, what is written is too short to notice
      simp only [List.prefix_concat_iff, htimely, and_true]
      refine or_iff_right fun heq => ?_
      have hlen := congrArg List.length heq
      rw [List.length_append, List.length_singleton] at hlen
      omega
  | schedule =>
    have htimely : c.Timely (.schedule : TcpEvent B) := fun he => by cases he
    simp only [TcpClient.step]
    split_ifs <;> simp [htimely]
  | task =>
    simp only [TcpClient.step]
    split_ifs with hp
    · simp [TcpClient.Timely, hp]
    · obtain ⟨b, hb⟩ : ∃ b, c.called.getLast? = some b := by
        rw [← Option.isSome_iff_exists, List.getLast?_isSome]
        exact List.ne_nil_of_length_pos (by omega)
      simp only [h.newest, hb, Option.toList_some, concat_prefix_iff, TcpClient.Timely, ne_eq, hp,
        not_false_eq_true, forall_const]

/-- **When no chunk is lost or duplicated.** In every interleaving of the calls with the tasks, the
session has been given the buffers of the calls, each once and in call order, exactly when every
task that ran found the newest call's buffer equal to the oldest one not yet written. -/
theorem chunks_delivered (evs : List (TcpEvent B)) :
    (TcpClient.run evs).Delivered ↔
      ∀ pre post, evs = pre ++ .task :: post → (TcpClient.run pre).pending ≠ 0 →
        (TcpClient.run pre).called[(TcpClient.run pre).written.length]?
          = (TcpClient.run pre).called.getLast? := by
  have hinit : (({} : TcpClient B)).Inv := ⟨rfl, rfl⟩
  have hstep : ∀ (c : TcpClient B) e, c.Inv → (c.step e).Inv := fun _ e h => h.step e
  have hdelivered : ∀ (c : TcpClient B) e, c.Inv →
      ((c.step e).Delivered ↔ c.Delivered ∧ c.Timely e) := fun _ e h => h.step_delivered e
  have hiff := Trace.run_iff_along hstep hdelivered hinit ⟨List.prefix_rfl, fun _ _ => rfl⟩ evs
  rw [TcpClient.run, hiff, Trace.along_iff]
  constructor
  · exact fun h pre post heq hp => h pre .task post heq rfl hp
  · rintro h pre e post heq rfl hp
    exact h pre post heq hp

/-- Delivery is certain when each task has run before the next call begins. -/
theorem chunks_delivered_of_paced (evs : List (TcpEvent B))
    (hpaced : Trace.Along TcpClient.step
      (fun c e => (∃ b, e = TcpEvent.store b) → c.pending = 0) {} evs) :
    (TcpClient.run evs).Delivered := by
  -- at most one call is then unwritten, so the oldest is the newest
  have hstep : ∀ (c : TcpClient B) (e : TcpEvent B), ((∃ b, e = .store b) → c.pending = 0) →
      (c.Inv ∧ c.pending + c.inCall.toNat ≤ 1 ∧ c.Delivered) →
        ((c.step e).Inv ∧ (c.step e).pending + (c.step e).inCall.toNat ≤ 1 ∧
          (c.step e).Delivered) := by
    rintro c e hC ⟨hinv, hone, hd⟩
    refine ⟨hinv.step e, ?_, (hinv.step_delivered e).mpr ⟨hd, ?_⟩⟩
    · cases e with
      | store b =>
        simp only [TcpClient.step]
        split_ifs
        · exact hone
        · simp [hC ⟨b, rfl⟩]
      | schedule =>
        simp only [TcpClient.step]
        split_ifs with hc
        · simpa [hc] using hone
        · exact hone
      | task =>
        simp only [TcpClient.step]
        split_ifs
        · exact hone
        · simp only
          omega
    · rintro rfl hp
      have hcount := hinv.count
      rw [List.getLast?_eq_getElem?]
      congr 1
      omega
  have hinit : (({} : TcpClient B)).Inv ∧ 0 + 0 ≤ 1 ∧ (({} : TcpClient B)).Delivered :=
    ⟨⟨rfl, rfl⟩, by decide, List.prefix_rfl, fun _ _ => rfl⟩
  exact (Trace.run_inv_along hstep hinit hpaced).2.2

/-- Two calls before the first task: the second buffer is written twice and the first not at all. -/
theorem chunks_lost :
    (TcpClient.run [.store 1, .schedule, .store 2, .schedule, .task, .task]).written = [2, 2] ∧
      (TcpClient.run [.store 1, .schedule, .store 2, .schedule, .task, .task]).called = [1, 2] ∧
      ¬ (TcpClient.run [.store 1, .schedule, .store 2, .schedule, .task, .task]).Delivered := by
  refine ⟨rfl, rfl, fun h => ?_⟩
  exact absurd (h.2 rfl rfl) (by decide)

end NuAgent.Ota
