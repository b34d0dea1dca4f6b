import NuAgent.Lib.Broker
import NuAgent.Lib.Circular
import NuAgent.Rtos.Runs

/-!
# What passes through the events

`Obs` is what can be seen of a step: what a post brings to an event, what an event gives to a task or to
an interrupt routine, and what a call returns to its task. A semaphore holds as many tokens as its count,
a queue the messages between `OSQOut` and `OSQIn`. Every run makes every semaphore and queue a broker:
what it gives is what it holds in front.
-/

namespace NuAgent.Rtos

open Bitmap Trace

/-! ## Observations -/

inductive Obs where
  /-- `OSSemPost` or `OSQPost` brings `m` to event `e`. -/
  | posted (e m : ℕ)
  /-- `OSQPostFront` brings `m` to event `e`. -/
  | fronted (e m : ℕ)
  /-- Event `e` gives `m` to a task, or to an interrupt routine. -/
  | gave (e m : ℕ) (dest : Option ℕ)
  /-- `OSSemSet` or `OSQFlush` replaces what event `e` holds. -/
  | replaced (e : ℕ) (l : List ℕ)
  /-- A pend or accept of task `p` on event `e` succeeds with `m`. -/
  | got (p e m : ℕ)

/-- A pend or accept that takes something at once. -/
def takeObs (kind : Kind) (k : Kernel) (e : ℕ) (who : Option ℕ) : List Obs :=
  if (k.event e).osEventType ≠ kind.type then []
  else
    match kind.take (k.event e) with
    | none => []
    | some (m, _) => .gave e m who :: (who.map fun p => Obs.got p e m).toList

/-- A post: it is kept, or goes to the highest waiter. -/
def postObs (kind : Kind) (put : ℕ → OsEvent → Option OsEvent) (arrive : Obs) (k : Kernel)
    (e m : ℕ) : List Obs :=
  if (k.event e).osEventType ≠ kind.type then []
  else if (k.event e).wait.grp ≠ 0 then [arrive, .gave e m (some (highest (k.event e).wait))]
  else if (put m (k.event e)).isSome then [arrive]
  else []

/-- What is seen of a call by a task, or by an interrupt routine for `none`. -/
def Call.obs (k : Kernel) (who : Option ℕ) : Call → List Obs
  | .pend kind e _ =>
    if k.osIntNesting = 0 ∧ k.osLockNesting = 0 then takeObs kind k e who else []
  | .accept kind e => takeObs kind k e who
  | .semPost e => postObs .sem putSem (.posted e 0) k e 0
  | .qPost e m => postObs .q putQ (.posted e m) k e m
  | .qPostFront e m => postObs .q putQFront (.fronted e m) k e m
  | .semSet e cnt =>
    if (osSemSet k e cnt).ret.perr = .none then [.replaced e (List.replicate cnt.toNat 0)] else []
  | .qFlush e => [.replaced e []]
  | _ => []

/-- What is seen of a step. -/
def Action.obs (m : Machine) : Action → List Obs
  | .task c =>
    if m.k.osIntNesting = 0 ∧ (m.cont m.k.osPrioCur).sched = false ∧
        (m.cont m.k.osPrioCur).pending = none then
      c.obs m.k (some m.k.osPrioCur)
    else []
  | .go =>
    if m.k.osIntNesting = 0 ∧ (m.cont m.k.osPrioCur).sched = false then
      match (m.cont m.k.osPrioCur).pending with
      | none => []
      | some (kind, e) =>
        if (pendResume kind m.k e).2.perr = .none then
          [.got m.k.osPrioCur e (pendResume kind m.k e).2.val]
        else []
    else []
  | .isr c => if m.k.osIntNesting > 0 then c.obs m.k none else []
  | .intEnter | .tick | .intExit => []

/-- What is seen of a run. -/
def log (m : Machine) : List Action → List Obs
  | [] => []
  | a :: acts => a.obs m ++ log (step m a) acts

/-- The part of a log that concerns what event `e` holds. -/
def ops (e : ℕ) : List Obs → List (Broker.Op ℕ) := List.filterMap fun
  | .posted e' m => if e' = e then some (.back m) else none
  | .fronted e' m => if e' = e then some (.front m) else none
  | .gave e' m _ => if e' = e then some (.out m) else none
  | .replaced e' l => if e' = e then some (.reset l) else none
  | .got _ _ _ => none

theorem ops_append (e : ℕ) (xs ys : List Obs) : ops e (xs ++ ys) = ops e xs ++ ops e ys :=
  List.filterMap_append

/-! ## What an event holds -/

/-- The messages of a queue from `OSQOut` on. -/
def OsQ.toList (pq : OsQ) : List ℕ :=
  (List.range pq.osqEntries).map fun i => pq.cells (Circular.slot pq.osqSize pq.osqOut i)

/-- `OSQIn` is behind the entries. -/
structure OsQ.Ok (pq : OsQ) : Prop where
  le : pq.osqEntries ≤ pq.osqSize
  out : 0 < pq.osqSize → pq.osqOut < pq.osqSize
  osqIn : 0 < pq.osqSize → pq.osqIn = Circular.slot pq.osqSize pq.osqOut pq.osqEntries

def contents (v : OsEvent) : List ℕ :=
  match v.osEventType with
  | .sem => List.replicate v.osEventCnt 0
  | .q => v.osEventPtr.toList
  | _ => []

/-- A queue event has a well-formed queue. -/
def OsEvent.Ok (v : OsEvent) : Prop := v.osEventType = .q → v.osEventPtr.Ok

theorem OsQ.pop_spec {pq : OsQ} (h : pq.Ok) (hpos : pq.osqEntries > 0) :
    pq.toList = pq.pop.1 :: pq.pop.2.toList ∧ pq.pop.2.Ok := by
  obtain ⟨hle, hout, hin⟩ := h
  have hsize : 0 < pq.osqSize := by omega
  have hout := hout hsize
  have hin := hin hsize
  have hnext : pq.pop.2.osqOut = Circular.slot pq.osqSize pq.osqOut 1 := by
    show (if pq.osqOut + 1 = pq.osqSize then 0 else pq.osqOut + 1) = _
    unfold Circular.slot
    split_ifs <;> omega
  constructor
  · obtain ⟨n, hn⟩ : ∃ n, pq.osqEntries = n + 1 := ⟨pq.osqEntries - 1, by omega⟩
    have hrest : pq.pop.2.osqEntries = n := by
      show pq.osqEntries - 1 = n
      omega
    rw [toList, toList, hn, hrest, List.range_succ_eq_map, List.map_cons, List.map_map]
    refine congrArg₂ List.cons ?_ (List.map_congr_left fun i hi => ?_)
    · show pq.cells (Circular.slot pq.osqSize pq.osqOut 0) = pq.cells pq.osqOut
      rw [Circular.slot, if_pos (by omega), Nat.add_zero]
    · show pq.cells (Circular.slot pq.osqSize pq.osqOut (i + 1)) =
        pq.cells (Circular.slot pq.osqSize pq.pop.2.osqOut i)
      rw [List.mem_range] at hi
      rw [hnext, Circular.slot_slot hout (by omega), Nat.add_comm]
  · refine ⟨(Nat.sub_le _ _).trans hle, fun _ => ?_, fun _ => ?_⟩
    · rw [hnext]
      show _ < pq.osqSize
      unfold Circular.slot
      split_ifs <;> omega
    · rw [hnext]
      show pq.osqIn = Circular.slot pq.osqSize _ (pq.osqEntries - 1)
      rw [Circular.slot_slot hout (by omega), hin]
      congr 1
      omega

theorem OsQ.push_spec {pq : OsQ} (h : pq.Ok) (hroom : pq.osqEntries < pq.osqSize) (m : ℕ) :
    (pq.push m).toList = pq.toList ++ [m] ∧ (pq.push m).Ok := by
  obtain ⟨hle, hout, hin⟩ := h
  have hout := hout (by omega)
  have hin := hin (by omega)
  constructor
  · rw [toList, toList, show (pq.push m).osqEntries = pq.osqEntries + 1 from rfl, List.range_succ,
      List.map_append]
    refine congrArg₂ List.append (List.map_congr_left fun i hi => ?_) ?_
    · show Function.update pq.cells pq.osqIn m (Circular.slot pq.osqSize pq.osqOut i) = _
      rw [List.mem_range] at hi
      refine Function.update_of_ne ?_ _ _
      rw [hin]
      unfold Circular.slot
      split_ifs <;> omega
    · show [Function.update pq.cells pq.osqIn m (Circular.slot pq.osqSize pq.osqOut pq.osqEntries)] = _
      rw [← hin, Function.update_self]
  · refine ⟨hroom, fun _ => hout, fun _ => ?_⟩
    show (if pq.osqIn + 1 = pq.osqSize then 0 else pq.osqIn + 1) =
      Circular.slot pq.osqSize pq.osqOut (pq.osqEntries + 1)
    rw [hin]
    unfold Circular.slot
    split_ifs <;> omega

theorem OsQ.pushFront_spec {pq : OsQ} (h : pq.Ok) (hroom : pq.osqEntries < pq.osqSize) (m : ℕ) :
    (pq.pushFront m).toList = m :: pq.toList ∧ (pq.pushFront m).Ok := by
  obtain ⟨hle, hout, hin⟩ := h
  have hout := hout (by omega)
  have hin := hin (by omega)
  -- the new `OSQOut` is one place before the old one
  obtain ⟨o, ho⟩ : ∃ o, (pq.pushFront m).osqOut = o := ⟨_, rfl⟩
  have hval : o = (if pq.osqOut = 0 then pq.osqSize else pq.osqOut) - 1 := ho.symm
  have hlt : o < pq.osqSize := by
    rw [hval]
    split_ifs <;> omega
  have hback : ∀ i ≤ pq.osqEntries,
      Circular.slot pq.osqSize o (i + 1) = Circular.slot pq.osqSize pq.osqOut i := by
    intro i hi
    unfold Circular.slot
    split_ifs at hval ⊢ <;> omega
  have hcells : (pq.pushFront m).cells = Function.update pq.cells o m := by rw [← ho]; rfl
  constructor
  · rw [toList, toList, show (pq.pushFront m).osqEntries = pq.osqEntries + 1 from rfl, hcells, ho,
      show (pq.pushFront m).osqSize = pq.osqSize from rfl, List.range_succ_eq_map, List.map_cons,
      List.map_map]
    refine congrArg₂ List.cons ?_ (List.map_congr_left fun i hi => ?_)
    · have hzero : Circular.slot pq.osqSize o 0 = o := by
        rw [Circular.slot, if_pos (by omega), Nat.add_zero]
      rw [hzero, Function.update_self]
    · rw [List.mem_range] at hi
      rw [Function.comp_apply, Nat.succ_eq_add_one, hback i (by omega)]
      refine Function.update_of_ne ?_ _ _
      rw [hval]
      unfold Circular.slot
      split_ifs <;> omega
  · refine ⟨hroom, fun _ => ho ▸ hlt, fun _ => ?_⟩
    show pq.osqIn = Circular.slot pq.osqSize (pq.pushFront m).osqOut (pq.osqEntries + 1)
    rw [ho, hback _ (by omega), hin]

/-! ## One event -/

/-- From `v` to `v'` the event has acted as a broker with the operations `l`. -/
def Moved (v : OsEvent) (l : List (Broker.Op ℕ)) (v' : OsEvent) : Prop :=
  v'.osEventType = v.osEventType ∧
    (v.Ok → v'.Ok ∧ Broker.run (contents v) l = some (contents v'))

theorem Moved.trans {v v' v'' : OsEvent} {l l' : List (Broker.Op ℕ)} (h : Moved v l v')
    (h' : Moved v' l' v'') : Moved v (l ++ l') v'' := by
  refine ⟨h'.1.trans h.1, fun hok => ?_⟩
  obtain ⟨hok', hrun⟩ := h.2 hok
  obtain ⟨hok'', hrun'⟩ := h'.2 hok'
  exact ⟨hok'', Broker.run_trans hrun hrun'⟩

theorem SameHeld.contents_eq {v v' : OsEvent} (h : SameHeld v v') : contents v' = contents v := by
  rw [contents, contents, h.1, h.2.1, h.2.2]

theorem SameHeld.ok {v v' : OsEvent} (h : SameHeld v v') (hok : v.Ok) : v'.Ok := by
  rw [OsEvent.Ok, h.1, h.2.2]
  exact hok

theorem Moved.of_sameHeld {v v' : OsEvent} (h : SameHeld v v') : Moved v [] v' :=
  ⟨h.1, fun hok => ⟨h.ok hok, congrArg some h.contents_eq.symm⟩⟩

/-- An event that holds nothing. -/
theorem contents_eq_nil {v : OsEvent} (h : ¬ Available v) : contents v = [] := by
  rw [contents]
  split
  · rename_i htype
    have hzero : v.osEventCnt = 0 := by
      by_contra hne
      exact h (Or.inl ⟨htype, Nat.pos_of_ne_zero hne⟩)
    rw [hzero]
    rfl
  · rename_i htype
    have hzero : v.osEventPtr.osqEntries = 0 := by
      by_contra hne
      exact h (Or.inr ⟨htype, Nat.pos_of_ne_zero hne⟩)
    rw [OsQ.toList, hzero]
    rfl
  · rfl

theorem moved_take {kind : Kind} {v v' : OsEvent} {m : ℕ} (htype : v.osEventType = kind.type)
    (h : kind.take v = some (m, v')) : Moved v [.out m] v' := by
  refine ⟨(take_spec h).1, fun hok => ?_⟩
  cases kind with
  | sem =>
    rw [Kind.take, takeSem] at h
    split at h <;> cases h
    rename_i hpos
    refine ⟨fun hq => ?_, ?_⟩
    · cases hq.symm.trans htype
    · obtain ⟨n, hn⟩ : ∃ n, v.osEventCnt = n + 1 := ⟨v.osEventCnt - 1, by omega⟩
      simp [contents, htype, Kind.type, hn, List.replicate_succ, Broker.run, Broker.apply]
  | q =>
    rw [Kind.take, takeQ] at h
    split at h <;> cases h
    rename_i hpos
    obtain ⟨hlist, hok'⟩ := OsQ.pop_spec (hok htype) hpos
    refine ⟨fun _ => hok', ?_⟩
    simp [contents, htype, Kind.type, hlist, Broker.run, Broker.apply]

/-- What the three ways to put something into an event do to its contents. -/
def PutMoves (kind : Kind) (put : ℕ → OsEvent → Option OsEvent) (m : ℕ) (op : Broker.Op ℕ) : Prop :=
  ∀ v v', v.osEventType = kind.type → put m v = some v' → Moved v [op] v'

theorem putMoves_sem : PutMoves .sem putSem 0 (.back 0) := by
  intro v v' htype h
  rw [putSem] at h
  split at h <;> cases h
  refine ⟨rfl, fun _ => ⟨fun hq => ?_, ?_⟩⟩
  · cases hq.symm.trans htype
  · simp [contents, htype, Kind.type, List.replicate_succ', Broker.run, Broker.apply]

theorem putMoves_q (m : ℕ) : PutMoves .q putQ m (.back m) := by
  intro v v' htype h
  rw [putQ] at h
  split at h <;> cases h
  rename_i hroom
  refine ⟨rfl, fun hok => ?_⟩
  obtain ⟨hlist, hok'⟩ := OsQ.push_spec (hok htype) (by omega) m
  refine ⟨fun _ => hok', ?_⟩
  simp [contents, htype, Kind.type, hlist, Broker.run, Broker.apply]

theorem putMoves_qFront (m : ℕ) : PutMoves .q putQFront m (.front m) := by
  intro v v' htype h
  rw [putQFront] at h
  split at h <;> cases h
  rename_i hroom
  refine ⟨rfl, fun hok => ?_⟩
  obtain ⟨hlist, hok'⟩ := OsQ.pushFront_spec (hok htype) (by omega) m
  refine ⟨fun _ => hok', ?_⟩
  simp [contents, htype, Kind.type, hlist, Broker.run, Broker.apply]

/-! ## One step -/

/-- Every event has acted as a broker with its part of the log. -/
def Moves (k : Kernel) (l : List Obs) (k' : Kernel) : Prop :=
  ∀ e, Moved (k.event e) (ops e l) (k'.event e)

theorem Moves.of_held {k k' : Kernel} (h : ∀ e, SameHeld (k.event e) (k'.event e)) :
    Moves k [] k' := fun e => .of_sameHeld (h e)

theorem Moves.refl (k : Kernel) : Moves k [] k := .of_held fun _ => ⟨rfl, rfl, rfl⟩

/-- A change of one event. -/
theorem Moves.setEvent {k : Kernel} {e : ℕ} {v : OsEvent} {l : List Obs}
    (h : Moved (k.event e) (ops e l) v) (hother : ∀ e', e' ≠ e → ops e' l = []) :
    Moves k l (k.setEvent e v) := by
  intro e'
  by_cases he : e' = e
  · subst he
    rw [setEvent_event]
    exact h
  · rw [setEvent_event_of_ne k _ he, hother e' he]
    exact .of_sameHeld ⟨rfl, rfl, rfl⟩

/-- Something that leaves event `e`. -/
theorem ops_take (e e' m : ℕ) (who : Option ℕ) :
    ops e' (.gave e m who :: (who.map fun p => Obs.got p e m).toList) =
      if e = e' then [.out m] else [] := by
  cases who <;> by_cases he : e = e' <;> simp [ops, he]

theorem moves_take {k : Kernel} {kind : Kind} {e m : ℕ} {v : OsEvent}
    (htype : (k.event e).osEventType = kind.type) (htake : kind.take (k.event e) = some (m, v))
    (who : Option ℕ) : Moves k (takeObs kind k e who) (k.setEvent e v) := by
  rw [takeObs, if_neg (not_not.2 htype), htake]
  dsimp only
  apply Moves.setEvent
  · rw [ops_take, if_pos rfl]
    exact moved_take htype htake
  · intro e' he
    rw [ops_take, if_neg fun h => he h.symm]

/-- The arrival of `m` at event `e`, at the back or at the front. -/
structure Arrives (arrive : Obs) (e : ℕ) (op : Broker.Op ℕ) (m : ℕ) : Prop where
  self : ops e [arrive] = [op]
  other : ∀ e', e' ≠ e → ops e' [arrive] = []
  pass : Broker.run [] [op, .out m] = some []

theorem arrives_posted (e m : ℕ) : Arrives (.posted e m) e (.back m) m where
  self := by simp [ops]
  other e' he := by simp [ops, he.symm]
  pass := (Broker.run_pass m).1

theorem arrives_fronted (e m : ℕ) : Arrives (.fronted e m) e (.front m) m where
  self := by simp [ops]
  other e' he := by simp [ops, he.symm]
  pass := (Broker.run_pass m).2

theorem ops_gave (e e' m : ℕ) (who : Option ℕ) :
    ops e' [.gave e m who] = if e = e' then [.out m] else [] := by
  by_cases he : e = e' <;> simp [ops, he]

theorem moves_post {k : Kernel} {pending : ℕ → Option (Kind × ℕ)} (h : KernelInv k pending)
    {kind : Kind} {put : ℕ → OsEvent → Option OsEvent} {full : OsErr} {e m : ℕ} {arrive : Obs}
    {op : Broker.Op ℕ} (harr : Arrives arrive e op m) (hput : PutMoves kind put m op) :
    Moves k (postObs kind put arrive k e m) (post kind put full k e m).kernel := by
  unfold postObs post
  split
  · exact .refl k
  rename_i htype
  split
  · -- the event holds nothing, and what arrives goes to a waiter at once
    rename_i hne
    obtain ⟨hleast, -, ho, -⟩ :=
      osEventTaskRdy_spec h (not_not.1 htype) hne m (StatPend.noConfusion : StatPend.ok ≠ .timeout)
    intro e'
    have hheld := ho.held e'
    by_cases he : e' = e
    · subst he
      have hempty : contents (k.event e') = [] := contents_eq_nil fun hav => by
        rw [h.waiting e' hav] at hleast
        exact hleast.1
      have hops : ops e' [arrive, .gave e' m (some (highest (k.event e').wait))] = [op, .out m] := by
        rw [← List.singleton_append, ops_append, harr.self, ops_gave, if_pos rfl]
        rfl
      rw [hops]
      refine ⟨hheld.1, fun hok => ⟨hheld.ok hok, ?_⟩⟩
      rw [hheld.contents_eq, hempty]
      exact harr.pass
    · have hops : ops e' [arrive, .gave e m (some (highest (k.event e).wait))] = [] := by
        rw [← List.singleton_append, ops_append, harr.other e' he, ops_gave,
          if_neg fun h => he h.symm]
        rfl
      rw [hops]
      exact .of_sameHeld hheld
  · cases hv : put m (k.event e) with
    | none => exact .refl k
    | some v =>
      rw [if_pos (show (some v).isSome = true from rfl)]
      refine .setEvent ?_ fun e' he => harr.other e' he
      rw [harr.self]
      exact hput _ _ (not_not.1 htype) hv

theorem accept_kernel (k : Kernel) (kind : Kind) (e : ℕ) :
    (accept kind k e).kernel =
      if (k.event e).osEventType ≠ kind.type then k
      else
        match kind.take (k.event e) with
        | some (_, v) => k.setEvent e v
        | none => k := by
  cases kind with
  | sem =>
    rw [accept, osSemAccept, Kind.type, Kind.take]
    by_cases htype : (k.event e).osEventType = .sem
    · rw [if_neg (not_not.2 htype), if_neg (not_not.2 htype)]
      cases takeSem (k.event e) <;> rfl
    · rw [if_pos htype, if_pos htype]
  | q =>
    rw [accept, osQAccept, Kind.type, Kind.take]
    by_cases htype : (k.event e).osEventType = .q
    · rw [if_neg (not_not.2 htype), if_neg (not_not.2 htype)]
      cases takeQ (k.event e) <;> rfl
    · rw [if_pos htype, if_pos htype]

theorem moves_accept (k : Kernel) (kind : Kind) (e : ℕ) (who : Option ℕ) :
    Moves k (takeObs kind k e who) (accept kind k e).kernel := by
  rw [accept_kernel]
  by_cases htype : (k.event e).osEventType = kind.type
  · rw [if_neg (not_not.2 htype)]
    cases htake : kind.take (k.event e) with
    | none =>
      rw [takeObs, if_neg (not_not.2 htype), htake]
      exact .refl k
    | some r => exact moves_take htype htake who
  · rw [takeObs, if_pos htype, if_pos htype]
    exact .refl k

theorem ops_replaced (e e' : ℕ) (l : List ℕ) :
    ops e' [.replaced e l] = if e = e' then [.reset l] else [] := by
  by_cases he : e = e' <;> simp [ops, he]

/-- A call that replaces what an event holds. -/
theorem moves_replaced {k : Kernel} {e : ℕ} {v : OsEvent} {l : List ℕ}
    (htype : v.osEventType = (k.event e).osEventType) (hok : (k.event e).Ok → v.Ok)
    (hl : contents v = l) : Moves k [.replaced e l] (k.setEvent e v) := by
  apply Moves.setEvent
  · rw [ops_replaced, if_pos rfl]
    refine ⟨htype, fun h => ⟨hok h, ?_⟩⟩
    rw [hl, Broker.run_cons]
    cases contents (k.event e) <;> rfl
  · intro e' he
    rw [ops_replaced, if_neg fun h => he h.symm]

theorem moves_semSet (k : Kernel) (e : ℕ) (cnt : UInt16) :
    Moves k (if (osSemSet k e cnt).ret.perr = .none then [.replaced e (List.replicate cnt.toNat 0)]
      else []) (osSemSet k e cnt).kernel := by
  by_cases htype : (k.event e).osEventType = .sem
  · by_cases hfree : (k.event e).osEventCnt > 0 ∨ (k.event e).wait.grp = 0
    · have heq : osSemSet k e cnt =
          { kernel := k.setEvent e { k.event e with osEventCnt := cnt.toNat }, ret := ⟨.none, 0⟩ } := by
        rw [osSemSet, if_neg (not_not.2 htype), if_pos hfree]
      rw [heq, if_pos rfl]
      refine moves_replaced rfl (fun _ hq => ?_) ?_
      · cases hq.symm.trans htype
      · rw [contents, show ({ k.event e with osEventCnt := cnt.toNat } : OsEvent).osEventType = .sem
          from htype]
    · have heq : osSemSet k e cnt = { kernel := k, ret := ⟨.taskWaiting, 0⟩ } := by
        rw [osSemSet, if_neg (not_not.2 htype), if_neg hfree]
      rw [heq, if_neg OsErr.noConfusion]
      exact .refl k
  · have heq : osSemSet k e cnt = { kernel := k, ret := ⟨.eventType, 0⟩ } := by
      rw [osSemSet, if_pos htype]
    rw [heq, if_neg OsErr.noConfusion]
    exact .refl k

theorem moves_flush {k : Kernel} {e : ℕ} (hq : (k.event e).osEventType = .q) :
    Moves k [.replaced e []] (osQFlush k e).kernel := by
  refine moves_replaced rfl (fun hok _ => ?_) ?_
  · have := hok hq
    refine ⟨Nat.zero_le _, fun h => h, fun h => ?_⟩
    show 0 = Circular.slot (k.event e).osEventPtr.osqSize 0 0
    unfold Circular.slot
    rw [if_pos (by simpa using h)]
  · rw [contents, show ({ k.event e with osEventPtr := _ } : OsEvent).osEventType = .q from hq]
    rfl

theorem held_abortLoop {pending : ℕ → Option (Kind × ℕ)} {kind : Kind} {e : ℕ} (n : ℕ) {k : Kernel}
    (h : KernelInv k pending) (hkind : (k.event e).osEventType = kind.type) (e' : ℕ) :
    SameHeld (k.event e') ((abortLoop kind e n k).1.event e') := by
  induction n generalizing k with
  | zero => exact ⟨rfl, rfl, rfl⟩
  | succ n ih =>
    rw [abortLoop]
    split
    · rename_i hne
      have hst : StatPend.abort ≠ .timeout := StatPend.noConfusion
      obtain ⟨-, -, ho, -⟩ := osEventTaskRdy_spec h hkind hne 0 hst
      have h1 := ho.held e'
      have h2 := ih (h.osEventTaskRdy hkind hne 0 hst) ((ho.held e).1.trans hkind)
      exact ⟨h2.1.trans h1.1, h2.2.1.trans h1.2.1, h2.2.2.trans h1.2.2⟩
    · exact ⟨rfl, rfl, rfl⟩

/-- The calls that do not look at what events hold. -/
theorem held_simple {pending : ℕ → Option (Kind × ℕ)} {k : Kernel} (h : KernelInv k pending) (e' : ℕ) :
    (∀ kind e b, SameHeld (k.event e') ((pendAbort kind k e b).kernel.event e')) ∧
      (∀ n, SameHeld (k.event e') ((osTimeDly k n).kernel.event e')) ∧
      (∀ p, SameHeld (k.event e') ((osTimeDlyResume k p).kernel.event e')) ∧
      (∀ p, SameHeld (k.event e') ((osTaskSuspend k p).kernel.event e')) ∧
      ∀ p, SameHeld (k.event e') ((osTaskResume k p).kernel.event e') := by
  refine ⟨fun kind e b => ?_, fun n => ?_, fun p => ?_, fun p => ?_, fun p => ?_⟩
  · unfold pendAbort
    split
    · exact ⟨rfl, rfl, rfl⟩
    rename_i htype
    split
    · exact held_abortLoop _ h (not_not.1 htype) e'
    · exact ⟨rfl, rfl, rfl⟩
  · unfold osTimeDly
    split
    · exact ⟨rfl, rfl, rfl⟩
    · dsimp only
      split <;> exact ⟨rfl, rfl, rfl⟩
  · unfold osTimeDlyResume
    split
    · exact ⟨rfl, rfl, rfl⟩
    split
    · exact ⟨rfl, rfl, rfl⟩
    dsimp only
    split
    · exact ⟨rfl, rfl, rfl⟩
    · rw [wake_event]
      exact ⟨rfl, rfl, rfl⟩
  · unfold osTaskSuspend
    dsimp only
    split <;> exact ⟨rfl, rfl, rfl⟩
  · unfold osTaskResume
    split
    · exact ⟨rfl, rfl, rfl⟩
    split
    · dsimp only
      split <;> exact ⟨rfl, rfl, rfl⟩
    · exact ⟨rfl, rfl, rfl⟩

theorem moves_simple {k : Kernel} {pending : ℕ → Option (Kind × ℕ)} (h : KernelInv k pending)
    {c : Call} (hc : c.Legal k) (hpend : ∀ kind e n, c ≠ .pend kind e n) (who : Option ℕ) :
    Moves k (c.obs k who) (c.simple k).kernel := by
  cases c with
  | pend kind e timeout => exact absurd rfl (hpend kind e timeout)
  | accept kind e => exact moves_accept k kind e who
  | semPost e => exact moves_post h (arrives_posted e 0) putMoves_sem
  | qPost e m => exact moves_post h (arrives_posted e m) (putMoves_q m)
  | qPostFront e m => exact moves_post h (arrives_fronted e m) (putMoves_qFront m)
  | pendAbort kind e broadcast => exact .of_held fun e' => (held_simple h e').1 kind e broadcast
  | semSet e cnt => exact moves_semSet k e cnt
  | qFlush e => exact moves_flush hc
  | timeDly ticks => exact .of_held fun e' => (held_simple h e').2.1 ticks
  | timeDlyResume p => exact .of_held fun e' => (held_simple h e').2.2.1 p
  | suspend p => exact .of_held fun e' => (held_simple h e').2.2.2.1 p
  | resume p => exact .of_held fun e' => (held_simple h e').2.2.2.2 p
  | schedLock =>
    refine .of_held fun e' => ?_
    show SameHeld (k.event e') ((osSchedLock k).event e')
    unfold osSchedLock
    split <;> exact ⟨rfl, rfl, rfl⟩
  | schedUnlock =>
    refine .of_held fun e' => ?_
    show SameHeld (k.event e') ((osSchedUnlock k).1.event e')
    unfold osSchedUnlock
    split <;> exact ⟨rfl, rfl, rfl⟩

/-- A pend that does not block. -/
theorem moves_pend_returned {k k' : Kernel} {kind : Kind} {e timeout : ℕ} {r : Ret}
    (hr : pend kind k e timeout = .returned k' r) (who : Option ℕ) :
    Moves k ((Call.pend kind e timeout).obs k who) k' := by
  rw [Call.obs]
  unfold pend at hr
  by_cases htype : (k.event e).osEventType = kind.type
  · rw [if_neg (not_not.2 htype)] at hr
    split at hr
    · cases hr
      rw [if_neg (by omega)]
      exact .refl k
    split at hr
    · cases hr
      rw [if_neg (by omega)]
      exact .refl k
    rw [if_pos (by omega)]
    split at hr
    · rename_i htake
      cases hr
      exact moves_take htype htake who
    · cases hr
  · rw [if_pos htype] at hr
    cases hr
    rw [takeObs, if_pos htype, ite_self]
    exact .refl k

/-- A pend that blocks leaves what the events hold. -/
theorem moves_pend_blocked {k k' : Kernel} {pending : ℕ → Option (Kind × ℕ)} (h : KernelInv k pending)
    (hcur : k.osPrioCur ∈ k.rdy.toSet) {kind : Kind} {e timeout : ℕ}
    (hb : pend kind k e timeout = .blocked k') (who : Option ℕ) :
    Moves k ((Call.pend kind e timeout).obs k who) k' := by
  obtain ⟨t, φ, s, htcb, -, hok⟩ := h.exists_tcb hcur
  obtain ⟨htype, htake, rfl⟩ := pend_blocked htcb hb
  have hobs : (Call.pend kind e timeout).obs k who = [] := by
    rw [Call.obs, takeObs, if_neg (not_not.2 htype), htake, ite_self]
  rw [hobs]
  exact .of_held (((OnlyTask.setTcb k _ _).trans (OnlyTask.addWaiter (Kernel.setTcb k _ _) hok.lt e)).trans
    (OnlyTask.clearRdy _ _)).held

/-- The second half of a pend leaves what the events hold. -/
theorem held_pendResume (k : Kernel) (kind : Kind) (e e' : ℕ) :
    SameHeld (k.event e') ((pendResume kind k e).1.event e') := by
  unfold pendResume
  split
  · exact ⟨rfl, rfl, rfl⟩
  · dsimp only
    split
    · exact ⟨rfl, rfl, rfl⟩
    · exact ⟨rfl, rfl, rfl⟩
    · exact (OnlyTask.remove k k.osPrioCur e).held e'

theorem event_tickLoop (l : List ℕ) (k : Kernel) : (tickLoop l k).event = k.event := by
  induction l generalizing k with
  | nil => rfl
  | cons p l ih =>
    rw [tickLoop]
    split
    · rfl
    · rw [ih]
      unfold tickTask
      split
      · rfl
      split
      · split
        · exact wake_event _ _ _
        · rfl
      · rfl

theorem osSched_event (k : Kernel) : (osSched k).event = k.event := by
  unfold osSched
  split <;> rfl

/-- A call by a task or an interrupt routine. -/
theorem moves_run {k : Kernel} {pending : ℕ → Option (Kind × ℕ)} (h : KernelInv k pending) {c : Call}
    (hc : c.Legal k)
    (hcur : k.osIntNesting = 0 → k.osLockNesting = 0 → k.osPrioCur ∈ k.rdy.toSet) (who : Option ℕ) :
    Moves k (c.obs k who)
      (match c.run k with
        | .returned r => r.kernel
        | .blocked k' _ _ => k') := by
  cases c with
  | pend kind e timeout =>
    rw [Call.run]
    cases hp : pend kind k e timeout with
    | returned k' r => exact moves_pend_returned hp who
    | blocked k' =>
      obtain ⟨hint, hlock⟩ := unlocked_of_blocked hp
      exact moves_pend_blocked h (hcur hint hlock) hp who
  | accept | semPost | qPost | qPostFront | pendAbort | semSet | qFlush | timeDly | timeDlyResume
  | suspend | resume | schedLock | schedUnlock =>
    exact moves_simple h hc (fun _ _ _ he => by cases he) who

theorem moves_step {m : Machine} (h : Inv m) {a : Action} (hlegal : Legal m a) :
    Moves m.k (a.obs m) (step m a).k := by
  cases a with
  | task c =>
    rw [Action.obs, step]
    split
    · rename_i hready
      have hrun := moves_run h.kernel hlegal.2
        (fun hint hlock => (h.current hint hlock hready.2.1).1) (some m.k.osPrioCur)
      unfold taskCall
      cases hc : c.run m.k with
      | returned r =>
        rw [hc] at hrun
        exact hrun
      | blocked k' kind e =>
        rw [hc] at hrun
        exact hrun
    · exact .refl m.k
  | go =>
    rw [Action.obs, step]
    by_cases hint : m.k.osIntNesting = 0
    · rw [if_pos hint, taskGo]
      by_cases hs : (m.cont m.k.osPrioCur).sched = true
      · rw [if_neg (by simp [hs]), if_pos hs]
        exact .of_held fun e => by rw [osSched_event]; exact ⟨rfl, rfl, rfl⟩
      · rw [if_pos ⟨hint, by simpa using hs⟩, if_neg hs]
        cases (m.cont m.k.osPrioCur).pending with
        | none => exact .refl m.k
        | some r =>
          obtain ⟨kind, e⟩ := r
          intro e'
          have hops : ops e' (if (pendResume kind m.k e).2.perr = .none then
              [.got m.k.osPrioCur e (pendResume kind m.k e).2.val] else []) = [] := by
            split <;> rfl
          dsimp only
          rw [hops]
          exact .of_sameHeld (held_pendResume m.k kind e e')
    · rw [if_neg fun hc => hint hc.1, if_neg hint]
      exact .refl m.k
  | intEnter =>
    rw [Action.obs, step, osIntEnter]
    refine .of_held fun e => ?_
    split <;> exact ⟨rfl, rfl, rfl⟩
  | isr c =>
    rw [Action.obs, step]
    split
    · rename_i hint
      have hmoves := moves_run h.kernel hlegal (fun h0 => by omega) none
      obtain ⟨r, hrun, -⟩ | ⟨kind, e, timeout, k', -, hpend⟩ :=
        run_cases h.kernel hlegal (fun h0 => by omega) (fun h0 => by omega)
      · rw [isrCall, hrun]
        rw [hrun] at hmoves
        intro e
        dsimp only
        split
        · rw [osSched_event]
          exact hmoves e
        · exact hmoves e
      · exact absurd (unlocked_of_blocked hpend).1 (by omega)
    · exact .refl m.k
  | tick =>
    rw [Action.obs, step]
    refine .of_held fun e => ?_
    split
    · show SameHeld (m.k.event e) ((osTimeTick m.k).event e)
      rw [osTimeTick, event_tickLoop]
      exact ⟨rfl, rfl, rfl⟩
    · exact ⟨rfl, rfl, rfl⟩
  | intExit =>
    rw [Action.obs, step]
    refine .of_held fun e => ?_
    split
    · show SameHeld (m.k.event e) ((osIntExit m.k).event e)
      rw [osIntExit, osSched_event]
      exact ⟨rfl, rfl, rfl⟩
    · exact ⟨rfl, rfl, rfl⟩

/-! ## Runs -/

theorem run_traffic {m : Machine} (h : Inv m) {e : ℕ} (hok : (m.k.event e).Ok)
    {acts : List Action} (hlegal : Along step Legal m acts) :
    Broker.run (contents (m.k.event e)) (ops e (log m acts)) =
      some (contents ((run step m acts).k.event e)) := by
  induction acts generalizing m with
  | nil => rfl
  | cons a acts ih =>
    obtain ⟨hok', hone⟩ := (moves_step h hlegal.1 e).2 hok
    rw [log, ops_append]
    exact Broker.run_trans hone (ih (h.step hlegal.1) hok' hlegal.2)

theorem run_type {m : Machine} (h : Inv m) {acts : List Action} (hlegal : Along step Legal m acts)
    (e : ℕ) : ((run step m acts).k.event e).osEventType = (m.k.event e).osEventType := by
  induction acts generalizing m with
  | nil => rfl
  | cons a acts ih =>
    exact (ih (h.step hlegal.1) hlegal.2).trans (moves_step h hlegal.1 e).1

theorem length_contents_sem {v : OsEvent} (h : v.osEventType = .sem) :
    (contents v).length = v.osEventCnt := by
  rw [contents, h]
  exact List.length_replicate

/-- A log in which event `e` is not replaced. -/
theorem not_isReset_of_mem_ops {e : ℕ} {l : List Obs} (h : ∀ c, Obs.replaced e c ∉ l)
    {op : Broker.Op ℕ} (hop : op ∈ ops e l) : ¬ op.IsReset := by
  obtain ⟨o, ho, hsome⟩ := List.mem_filterMap.1 hop
  cases o with
  | got p e' m => cases hsome
  | posted e' m | fronted e' m | gave e' m dest =>
    dsimp only at hsome
    split at hsome <;> cases hsome
    exact id
  | replaced e' c =>
    dsimp only at hsome
    split at hsome
    · rename_i he
      exact absurd (he ▸ ho) (h c)
    · cases hsome

/-- A log in which nobody posts to the front of event `e`. -/
theorem not_isFront_of_mem_ops {e : ℕ} {l : List Obs} (h : ∀ m, Obs.fronted e m ∉ l)
    {op : Broker.Op ℕ} (hop : op ∈ ops e l) : ¬ op.IsFront := by
  obtain ⟨o, ho, hsome⟩ := List.mem_filterMap.1 hop
  cases o with
  | got p e' m => cases hsome
  | posted e' m | gave e' m dest | replaced e' c =>
    dsimp only at hsome
    split at hsome <;> cases hsome
    exact id
  | fronted e' m =>
    dsimp only at hsome
    split at hsome
    · rename_i he
      exact absurd (he ▸ ho) (h m)
    · cases hsome

end NuAgent.Rtos
