import NuAgent.Rtos.Boot

/-!
# What every run keeps

The results about the kernel, for every program that `OSStart` starts and every order of the tasks' calls
and the interrupts: the most urgent task runs, no task waits for something that is there, events neither
lose nor invent what passes through them, and delays last as long as they are asked for.
-/

namespace NuAgent.Rtos

open Bitmap Trace

variable {P : Program} {acts : List Action}

/-- Two tasks, a semaphore and a queue. -/
def twoTasks : Program where
  osTaskTmrPrio := 20
  setup := [.task 5, .task 10, .sem 0, .queue (fun _ => 0) 4]
  tmr_le := by decide
  legal s hs := by
    simp only [List.mem_cons, List.not_mem_nil, or_false] at hs
    rcases hs with rfl | rfl | rfl | rfl
    · exact (by decide : 5 ≤ 63)
    · exact (by decide : 10 ≤ 63)
    · exact trivial
    · exact trivial

/-- Task 5 waits for the semaphore, and task 10 posts it. -/
def handOver : List Action := [.task (.pend .sem 2 100), .go, .task (.semPost 2), .go, .go]

theorem handOver_legal : Along step Legal twoTasks.boot handOver := by
  refine ⟨⟨?_, trivial⟩, trivial, ⟨?_, trivial⟩, trivial, trivial, trivial⟩ <;> decide +kernel

/-- Task 5 posts two messages, and gets the first. -/
def sendTwo : List Action := [.task (.qPost 3 7), .task (.qPost 3 8), .task (.pend .q 3 0)]

theorem sendTwo_legal : Along step Legal twoTasks.boot sendTwo := by
  refine ⟨⟨?_, trivial⟩, ⟨?_, trivial⟩, ⟨?_, trivial⟩, trivial⟩ <;> decide +kernel

theorem log_sendTwo :
    log twoTasks.boot sendTwo = [.posted 3 7, .posted 3 8, .gave 3 7 (some 5), .got 5 3 7] := by
  rfl

/-! ## Scheduling -/

/-- In every run, a task whose call has come to its end and that is not kept from being preempted is
the most urgent of the tasks that can run. -/
theorem highest_runs (hlegal : Along step Legal P.boot acts) :
    let m := run step P.boot acts
    m.k.osIntNesting = 0 → m.k.osLockNesting = 0 → (m.cont m.k.osPrioCur).sched = false →
      IsLeast (canRun m.k) m.k.osPrioCur := by
  intro m hint hlock hsched
  have hinv : Inv m := P.started.1.inv.run hlegal
  rw [← hinv.kernel.toSet_rdy]
  exact hinv.current hint hlock hsched

/-- Task 5 after it was given the semaphore. -/
theorem highest_runs_handOver :
    IsLeast (canRun (run step twoTasks.boot handOver).k)
      (run step twoTasks.boot handOver).k.osPrioCur :=
  highest_runs handOver_legal (by decide +kernel) (by decide +kernel) (by decide +kernel)

/-- In every run, a task that cannot run is suspended, or delayed, or waits for an event that holds
nothing. -/
theorem no_lost_wakeup (hlegal : Along step Legal P.boot acts) {p : ℕ} {t : OsTcb} :
    let m := run step P.boot acts
    m.k.tcb p = some t → p ∉ m.k.rdy.toSet →
      t.osTcbStat &&& osStatSuspend ≠ osStatRdy ∨ t.osTcbDly ≠ 0 ∨
        ∃ e, t.osTcbEventPtr = some e ∧ p ∈ (m.k.event e).wait.toSet ∧
          ¬ Available (m.k.event e) := by
  intro m htcb hnot
  have hinv : Inv m := P.started.1.inv.run hlegal
  have ht := hinv.kernel.task p
  unfold TaskAt at ht
  rw [htcb] at ht
  obtain ⟨φ, s, -, hok⟩ := ht
  by_cases hs : s = false
  · by_cases hdly : t.osTcbDly = 0
    · refine Or.inr (Or.inr ?_)
      have hb : φ.Blocked := by
        by_contra hb
        exact hnot (hok.rdy.2 ⟨hb, hs, hdly⟩)
      cases φ with
      | blocked kind e =>
        have hwait := (hok.wait e).2 rfl
        refine ⟨e, hok.phase.ptr, hwait, fun hav => ?_⟩
        rw [hinv.kernel.waiting e hav] at hwait
        exact hwait
      | own => exact hb.elim
      | expired kind e => exact hb.elim
      | woken kind e => exact hb.elim
    · exact Or.inr (Or.inl hdly)
  · rw [hok.phase.stat]
    exact Or.inl fun hc => hs ((stat_suspend φ s).1 hc)

/-- Task 5 while it waits for the semaphore. -/
theorem no_lost_wakeup_waiting :
    (1 : UInt8) &&& osStatSuspend ≠ osStatRdy ∨ 100 ≠ 0 ∨
      ∃ e, (some 2 : Option ℕ) = some e ∧
        5 ∈ ((run step twoTasks.boot [.task (.pend .sem 2 100), .go]).k.event e).wait.toSet ∧
        ¬ Available ((run step twoTasks.boot [.task (.pend .sem 2 100), .go]).k.event e) := by
  have hlegal : Along step Legal twoTasks.boot [.task (.pend .sem 2 100), .go] :=
    ⟨handOver_legal.1, trivial, trivial⟩
  refine no_lost_wakeup (p := 5) (t := ⟨1, .ok, 100, 0, some 2⟩) hlegal rfl fun h => ?_
  rw [Table.mem_toSet] at h
  revert h
  decide +kernel

/-! ## Messages -/

/-- In every run, every semaphore and every queue gives away what it holds in front, and holds what was
brought to it and not given away. -/
theorem events_are_brokers (hlegal : Along step Legal P.boot acts) (e : ℕ) :
    Broker.run (contents (P.boot.k.event e)) (ops e (log P.boot acts)) =
      some (contents ((run step P.boot acts).k.event e)) := by
  obtain ⟨hstarted, -, hok⟩ := P.started
  exact run_traffic hstarted.inv (hok e) hlegal

theorem events_are_brokers_sendTwo :
    Broker.run (contents (twoTasks.boot.k.event 3)) (ops 3 (log twoTasks.boot sendTwo)) =
      some (contents ((run step twoTasks.boot sendTwo).k.event 3)) :=
  events_are_brokers sendTwo_legal 3

/-- In every run in which nobody flushes it or posts to its front, a queue gives its messages in the
order in which they were posted, and keeps the rest in that order. -/
theorem queue_is_fifo (hlegal : Along step Legal P.boot acts) {e : ℕ}
    (hflush : ∀ l, Obs.replaced e l ∉ log P.boot acts)
    (hfront : ∀ m, Obs.fronted e m ∉ log P.boot acts) :
    contents (P.boot.k.event e) ++ Broker.arrived (ops e (log P.boot acts)) =
      Broker.left (ops e (log P.boot acts)) ++ contents ((run step P.boot acts).k.event e) := by
  obtain ⟨hstarted, -, hok⟩ := P.started
  refine Broker.run_fifo (run_traffic hstarted.inv (hok e) hlegal) (fun op hop => ?_)
    fun op hop => ?_
  · exact not_isReset_of_mem_ops hflush hop
  · exact not_isFront_of_mem_ops hfront hop

theorem queue_is_fifo_sendTwo :
    contents (twoTasks.boot.k.event 3) ++ Broker.arrived (ops 3 (log twoTasks.boot sendTwo)) =
      Broker.left (ops 3 (log twoTasks.boot sendTwo)) ++
        contents ((run step twoTasks.boot sendTwo).k.event 3) :=
  queue_is_fifo sendTwo_legal (fun l => by simp [log_sendTwo]) fun m => by simp [log_sendTwo]

/-- In every run in which nobody sets it, a semaphore has as many tokens as it had and was posted, less
those it gave. -/
theorem semaphore_keeps_count (hlegal : Along step Legal P.boot acts) {e : ℕ}
    (hsem : (P.boot.k.event e).osEventType = .sem)
    (hset : ∀ l, Obs.replaced e l ∉ log P.boot acts) :
    (P.boot.k.event e).osEventCnt + (Broker.arrived (ops e (log P.boot acts))).length =
      (Broker.left (ops e (log P.boot acts))).length +
        ((run step P.boot acts).k.event e).osEventCnt := by
  obtain ⟨hstarted, -, hok⟩ := P.started
  have hperm := (Broker.run_perm (run_traffic hstarted.inv (hok e) hlegal) fun op hop =>
    not_isReset_of_mem_ops hset hop).length_eq
  have hsem' := (run_type hstarted.inv hlegal e).trans hsem
  rwa [List.length_append, List.length_append, length_contents_sem hsem,
    length_contents_sem hsem'] at hperm

theorem semaphore_keeps_count_sendTwo :
    (twoTasks.boot.k.event 2).osEventCnt +
        (Broker.arrived (ops 2 (log twoTasks.boot sendTwo))).length =
      (Broker.left (ops 2 (log twoTasks.boot sendTwo))).length +
        ((run step twoTasks.boot sendTwo).k.event 2).osEventCnt :=
  semaphore_keeps_count sendTwo_legal rfl fun l => by simp [log_sendTwo]

/-- In every run, the calls of a task return what was given to it, each once and in order, up to a
message that is still on its way. -/
theorem given_is_taken_once (hlegal : Along step Legal P.boot acts) (p : ℕ) :
    given p (log P.boot acts) = taken p (log P.boot acts) ++ inflight (run step P.boot acts).k p := by
  have hstarted := P.started.1
  have hown : P.boot.pending p = none := by
    rw [Machine.pending, hstarted.cont p]
    rfl
  have hrun := run_delivers hstarted.inv hlegal p
  rwa [hstarted.inv.kernel.inflight_own hown, List.nil_append] at hrun

theorem given_is_taken_once_handOver :
    given 5 (log twoTasks.boot handOver) =
      taken 5 (log twoTasks.boot handOver) ++ inflight (run step twoTasks.boot handOver).k 5 :=
  given_is_taken_once handOver_legal 5

/-! ## Delays -/

/-- In every run, a task that has delayed itself for `n` ticks is not ready before the `n`-th tick,
whatever the other tasks and the interrupts do short of resuming it; the `n`-th tick makes it ready,
unless it is suspended. -/
theorem delay_is_exact {before after : List Action}
    (hlegal : Along step Legal P.boot (before ++ after)) {q : ℕ} (hq : q ∈ P.boot.k.osTcbList)
    {t : OsTcb} (htcb : (run step P.boot before).k.tcb q = some t)
    (hptr : t.osTcbEventPtr = none) (hquiet : ∀ a ∈ after, Undisturbed q a)
    (hn : ticks (run step P.boot before) after < t.osTcbDly) :
    let m := run step P.boot (before ++ after)
    q ∉ m.k.rdy.toSet ∧
      (ticks (run step P.boot before) after + 1 = t.osTcbDly → m.k.osIntNesting > 0 →
        ∃ t', (step m .tick).k.tcb q = some t' ∧ t'.osTcbDly = 0 ∧
          (q ∈ (step m .tick).k.rdy.toSet ↔ t'.osTcbStat &&& osStatSuspend = osStatRdy)) := by
  intro m
  obtain ⟨hbefore, hafter⟩ := along_append.1 hlegal
  obtain ⟨hstarted, hlist, -⟩ := P.started
  have hsame := osTcbList_run P.boot before
  have hstart : Delayed (run step P.boot before) q t.osTcbDly :=
    ⟨hstarted.inv.run hbefore, hsame ▸ hlist, hsame ▸ hq, t, htcb, rfl, hptr⟩
  have hdelayed : Delayed m q (t.osTcbDly - ticks (run step P.boot before) after) := by
    show Delayed (run step P.boot (before ++ after)) q _
    rw [run_append]
    exact hstart.run hafter hquiet hn
  refine ⟨(hdelayed.spec (by omega)).1, fun hlast hint => ?_⟩
  have hone : t.osTcbDly - ticks (run step P.boot before) after = 1 := by omega
  rw [hone] at hdelayed
  exact hdelayed.last hint

/-- Task 5 delays itself for two ticks, of which one has passed. -/
theorem delay_is_exact_two :
    let m := run step twoTasks.boot ([.task (.timeDly 2), .go] ++ [.intEnter, .tick])
    5 ∉ m.k.rdy.toSet ∧
      (1 + 1 = 2 → m.k.osIntNesting > 0 →
        ∃ t', (step m .tick).k.tcb 5 = some t' ∧ t'.osTcbDly = 0 ∧
          (5 ∈ (step m .tick).k.rdy.toSet ↔ t'.osTcbStat &&& osStatSuspend = osStatRdy)) := by
  refine delay_is_exact (P := twoTasks) (t := ⟨osStatRdy, .ok, 2, 0, none⟩) ?_ ?_ rfl rfl ?_ ?_
  · exact ⟨⟨by decide +kernel, trivial⟩, trivial, trivial, trivial, trivial⟩
  · decide +kernel
  · intro a ha
    simp only [List.mem_cons, List.not_mem_nil, or_false] at ha
    rcases ha with rfl | rfl <;> exact ⟨Action.noConfusion, Action.noConfusion⟩
  · decide +kernel

end NuAgent.Rtos
