import NuAgent.Lib.Trace
import NuAgent.Queue.Deque

/-!
# Runs of the cell queues

The abstract state of the queues gives each head that was initialised the list of its cells, and
each operation its deque meaning. `Rep` connects it to the memory: every queue holds its list, and
no cell is in two of them or twice in one. Each operation used as its contract asks keeps `Rep` and
answers as the deque does, and so does every run.
-/

namespace NuAgent.Queue

open NuAgent.DList NuAgent.Trace Links

variable {Q C : Type*}

/-- The cells in each queue; `none` for a head that was never initialised. -/
abbrev Queues (Q C : Type*) := Q → Option (List C)

/-- One queue operation. -/
inductive Op (Q C : Type*) where
  | initListHead (phead : Q) (lockRequired : Bool)
  | insertCell (pQueHead : Q) (pCell : C) (addTail : Bool)
  | freeCell (pFreeQueHead : Q) (pCell : C)
  | getCell (pQueHead : Q)
  | peekCell (pQueHead : Q)
  | removeCell (pQueHead : Q) (pCell : C)
  | insertCellQue (pQueHead pInsertedQueHead : Q) (addTail : Bool)

/-- What the caller of an operation promises. -/
def Op.Valid (A : Queues Q C) : Op Q C → Prop
  | .initListHead _ _ => True
  | .insertCell q c _ | .freeCell q c =>
    (∃ l, A q = some l ∧ l.length + 1 < 2 ^ 16) ∧ ∀ p l, A p = some l → c ∉ l
  | .getCell q | .peekCell q => ∃ l, A q = some l
  | .removeCell q c => ∃ l, A q = some l ∧ c ∈ l
  | .insertCellQue q p _ =>
    q ≠ p ∧ ∃ l₁ l₂, A q = some l₁ ∧ A p = some l₂ ∧ l₁.length + l₂.length < 2 ^ 16

/-- The cell an operation returns. -/
def Op.answer (A : Queues Q C) : Op Q C → Option C
  | .getCell q | .peekCell q => (A q).bind List.head?
  | _ => none

/-- The memory holds the queues, and each cell has one place in them at most. -/
structure Rep (m : Mem Q C) (A : Queues Q C) : Prop where
  isQueue : ∀ q l, A q = some l → IsQueue m q l
  nodup : ∀ q l, A q = some l → l.Nodup
  disjoint : ∀ q p l₁ l₂, q ≠ p → A q = some l₁ → A p = some l₂ → l₁.Disjoint l₂

/-- No queue is initialised. -/
def uninit : Queues Q C := fun _ => none

theorem rep_uninit (m : Mem Q C) : Rep m uninit :=
  ⟨fun _ _ h => (nomatch h), fun _ _ h => (nomatch h), fun _ _ _ _ _ h => (nomatch h)⟩

/-- An operation that writes only the heads `qs` and the cells `cs`, which no other queue holds,
keeps the representation where it keeps it for `qs`. -/
theorem Rep.edit {m m' : Mem Q C} {A B : Queues Q C} {qs : List Q} {cs : List C} (hr : Rep m A)
    (hw : WritesOnly m m' qs cs) (hB : ∀ q ∉ qs, B q = A q)
    (hfar : ∀ q ∉ qs, ∀ l, A q = some l → l.Disjoint cs)
    (hq : ∀ q ∈ qs, ∀ l, B q = some l → IsQueue m' q l ∧ l.Nodup ∧ l ⊆ cs)
    (hdisj : ∀ q ∈ qs, ∀ p ∈ qs, ∀ l₁ l₂, q ≠ p → B q = some l₁ → B p = some l₂ →
      l₁.Disjoint l₂) : Rep m' B := by
  refine ⟨fun q l hl => ?_, fun q l hl => ?_, fun q p l₁ l₂ hqp hl₁ hl₂ => ?_⟩
  · by_cases hmem : q ∈ qs
    · exact (hq q hmem l hl).1
    · rw [hB q hmem] at hl
      exact (hr.isQueue q l hl).frame hw hmem fun c hc => hfar q hmem l hl hc
  · by_cases hmem : q ∈ qs
    · exact (hq q hmem l hl).2.1
    · rw [hB q hmem] at hl
      exact hr.nodup q l hl
  · by_cases hmem : q ∈ qs <;> by_cases hmem' : p ∈ qs
    · exact hdisj q hmem p hmem' l₁ l₂ hqp hl₁ hl₂
    · rw [hB p hmem'] at hl₂
      have hsub := (hq q hmem l₁ hl₁).2.2
      exact fun c hc hc' => hfar p hmem' l₂ hl₂ hc' (hsub hc)
    · rw [hB q hmem] at hl₁
      have hsub := (hq p hmem' l₂ hl₂).2.2
      exact fun c hc hc' => hfar q hmem l₁ hl₁ hc (hsub hc')
    · rw [hB q hmem] at hl₁
      rw [hB p hmem'] at hl₂
      exact hr.disjoint q p l₁ l₂ hqp hl₁ hl₂

variable {m m' : Mem Q C} {A : Queues Q C} {q p : Q} {c : C} {l : List C}

theorem Rep.far (hr : Rep m A) (hl : A q = some l) :
    ∀ p ≠ q, ∀ l', A p = some l' → l'.Disjoint l :=
  fun p hp l' hl' => hr.disjoint p q l' l hp hl' hl

/-- A cell in no queue may join one. -/
theorem Rep.far_cons (hr : Rep m A) (hl : A q = some l) (hc : ∀ p l, A p = some l → c ∉ l) :
    ∀ p ≠ q, ∀ l', A p = some l' → l'.Disjoint (c :: l) := by
  intro p hp l' hl' d hd hd'
  rcases List.mem_cons.mp hd' with rfl | hd'
  · exact hc p l' hl' hd
  · exact hr.far hl p hp l' hl' hd hd'

section Modify

variable [DecidableEq Q]

/-- Change the list of one queue. -/
def modify (A : Queues Q C) (q : Q) (f : List C → List C) : Queues Q C :=
  Function.update A q ((A q).map f)

theorem modify_eq {f : List C → List C} (hl : A q = some l) :
    modify A q f = Function.update A q (some (f l)) := by
  rw [modify, hl, Option.map_some]

/-- An operation on one queue. -/
theorem Rep.update {cs l' : List C} (hr : Rep m A) (hw : WritesOnly m m' [q] cs)
    (hfar : ∀ p ≠ q, ∀ l, A p = some l → l.Disjoint cs) (hq : IsQueue m' q l') (hnodup : l'.Nodup)
    (hsub : l' ⊆ cs) : Rep m' (Function.update A q (some l')) := by
  refine hr.edit hw (fun p hp => ?_) (fun p hp => hfar p (by simpa using hp)) (fun p hp l hl => ?_)
    fun p hp k hk _ _ hne => ?_
  · exact Function.update_of_ne (by simpa using hp) _ _
  · obtain rfl := List.mem_singleton.mp hp
    rw [Function.update_self] at hl
    obtain rfl := Option.some.inj hl
    exact ⟨hq, hnodup, hsub⟩
  · exact absurd ((List.mem_singleton.mp hp).trans (List.mem_singleton.mp hk).symm) hne

end Modify

variable [DecidableEq Q] [DecidableEq C]

/-- The deque meaning of an operation. -/
def Op.deque (A : Queues Q C) : Op Q C → Queues Q C
  | .initListHead q _ => Function.update A q (some [])
  | .insertCell q c addTail => modify A q fun l => if addTail then l ++ [c] else c :: l
  | .freeCell q c => modify A q fun l => l ++ [c]
  | .getCell q => modify A q fun l => l.tail
  | .peekCell _ => A
  | .removeCell q c => modify A q fun l => l.erase c
  | .insertCellQue q p addTail =>
    let inserted := (A p).getD []
    modify (modify A q fun l => if addTail then l ++ inserted else inserted ++ l) p fun _ => []

/-- The operation on the memory, with the node it returns. -/
def Op.exec (m : Mem Q C) : Op Q C → Option (Mem Q C × Option (Node Q C))
  | .initListHead q b => some (utilInitListHead m q b, none)
  | .insertCell q c addTail => (nstInsertCell m q c addTail).map fun m => (m, none)
  | .freeCell q c => (nstFreeCell m q c).map fun m => (m, none)
  | .getCell q => nstGetCell m q
  | .peekCell q => some (m, nstPeekCell m q)
  | .removeCell q c => (nstRemoveCell m q (some c)).map fun m => (m, none)
  | .insertCellQue q p addTail => (nstInsertCellQue m q p addTail).map fun m => (m, none)

/-- The operations one after another on the memory, with the nodes they return. -/
def exec (m : Mem Q C) : List (Op Q C) → Option (Mem Q C × List (Option (Node Q C)))
  | [] => some (m, [])
  | op :: ops => do
    let (m, node) ← op.exec m
    let (m, rest) ← exec m ops
    some (m, node :: rest)

/-- The cells the operations return one after another. -/
def answers (A : Queues Q C) : List (Op Q C) → List (Option C)
  | [] => []
  | op :: ops => op.answer A :: answers (op.deque A) ops

/-! ## One operation -/

/-- A cell in no queue joins one at its tail. -/
theorem utilEnqueueListTail_step (hr : Rep m A) (hl : A q = some l) (hlen : l.length + 1 < 2 ^ 16)
    (hc : ∀ p l, A p = some l → c ∉ l) :
    ∃ m', utilEnqueueListTail m q (.cell c) = some m' ∧ Rep m' (modify A q fun l => l ++ [c]) := by
  have hperm : (l ++ [c]).Perm (c :: l) := List.perm_append_singleton c l
  have hnodup : (l ++ [c]).Nodup :=
    hperm.nodup_iff.mpr (List.nodup_cons.mpr ⟨hc q l hl, hr.nodup q l hl⟩)
  obtain ⟨m', hm', hq, hw⟩ :=
    utilEnqueueListTail_spec (hr.isQueue q l hl) hnodup (by simpa using hlen)
  refine ⟨m', hm', ?_⟩
  rw [modify_eq hl]
  refine hr.update hw (fun p hp l' hl' d hd hd' => ?_) hq hnodup (List.Subset.refl _)
  exact hr.far_cons hl hc p hp l' hl' hd (hperm.mem_iff.mp hd')

/-- A cell in no queue joins one at its head. -/
theorem utilEnqueueListHead_step (hr : Rep m A) (hl : A q = some l) (hlen : l.length + 1 < 2 ^ 16)
    (hc : ∀ p l, A p = some l → c ∉ l) :
    ∃ m', utilEnqueueListHead m q (.cell c) = some m' ∧ Rep m' (modify A q fun l => c :: l) := by
  have hnodup : (c :: l).Nodup := List.nodup_cons.mpr ⟨hc q l hl, hr.nodup q l hl⟩
  obtain ⟨m', hm', hq, hw⟩ := utilEnqueueListHead_spec (hr.isQueue q l hl) hnodup hlen
  refine ⟨m', hm', ?_⟩
  rw [modify_eq hl]
  exact hr.update hw (hr.far_cons hl hc) hq hnodup (List.Subset.refl _)

theorem nstGetCell_step (hr : Rep m A) (hl : A q = some l) :
    ∃ m', nstGetCell m q = some (m', l.head?.map .cell) ∧
      Rep m' (modify A q fun l => l.tail) := by
  have hnodup := hr.nodup q l hl
  obtain ⟨m', hm', hq, hw⟩ := nstGetCell_spec (hr.isQueue q l hl) hnodup
  refine ⟨m', hm', ?_⟩
  rw [modify_eq hl]
  exact hr.update hw (hr.far hl) hq hnodup.tail fun _ => List.mem_of_mem_tail

theorem nstRemoveCell_step (hr : Rep m A) (hl : A q = some l) (hc : c ∈ l) :
    ∃ m', nstRemoveCell m q (some c) = some m' ∧ Rep m' (modify A q fun l => l.erase c) := by
  have hnodup := hr.nodup q l hl
  obtain ⟨m', hm', hq, hw⟩ := nstRemoveCell_spec (hr.isQueue q l hl) hnodup hc
  refine ⟨m', hm', ?_⟩
  rw [modify_eq hl]
  exact hr.update hw (hr.far hl) hq (hnodup.erase c) List.erase_subset

/-- All cells of one queue join another, at either end. -/
theorem nstInsertCellQue_step {l₁ l₂ : List C} (addTail : Bool) (hr : Rep m A) (hqp : q ≠ p)
    (hl₁ : A q = some l₁) (hl₂ : A p = some l₂) (hlen : l₁.length + l₂.length < 2 ^ 16) :
    ∃ m', nstInsertCellQue m q p addTail = some m' ∧
      Rep m' ((Op.insertCellQue q p addTail).deque A) := by
  have hnodup : (l₁ ++ l₂).Nodup := List.nodup_append'.mpr
    ⟨hr.nodup q l₁ hl₁, hr.nodup p l₂ hl₂, hr.disjoint q p l₁ l₂ hqp hl₁ hl₂⟩
  obtain ⟨m', hm', hq, hp, hw⟩ := nstInsertCellQue_spec addTail hqp (hr.isQueue q l₁ hl₁)
    (hr.isQueue p l₂ hl₂) hnodup (by simpa using hlen)
  refine ⟨m', hm', ?_⟩
  have hp' : modify A q (fun l => if addTail then l ++ l₂ else l₂ ++ l) p = some l₂ := by
    rw [modify, Function.update_of_ne hqp.symm, hl₂]
  have hperm : (if addTail then l₁ ++ l₂ else l₂ ++ l₁).Perm (l₁ ++ l₂) := by
    cases addTail with
    | true => exact List.Perm.refl _
    | false => exact List.perm_append_comm
  show Rep m' (modify (modify A q _) p _)
  rw [hl₂, Option.getD_some, modify_eq hp', modify_eq hl₁]
  refine hr.edit hw (fun k hk => ?_) (fun k hk l hl => ?_) (fun k hk l hl => ?_)
    fun k hk j hj l l' hkj hl hl' => ?_
  · obtain ⟨hkq, hkp⟩ : k ≠ q ∧ k ≠ p := by simpa using hk
    rw [Function.update_of_ne hkp, Function.update_of_ne hkq]
  · obtain ⟨hkq, hkp⟩ : k ≠ q ∧ k ≠ p := by simpa using hk
    exact List.disjoint_append_right.mpr ⟨hr.far hl₁ k hkq l hl, hr.far hl₂ k hkp l hl⟩
  · obtain rfl | rfl : k = q ∨ k = p := by simpa using hk
    · rw [Function.update_of_ne hqp, Function.update_self] at hl
      obtain rfl := Option.some.inj hl
      exact ⟨hq, hperm.nodup_iff.mpr hnodup, hperm.subset⟩
    · rw [Function.update_self] at hl
      obtain rfl := Option.some.inj hl
      exact ⟨hp, .nil, List.nil_subset _⟩
  · -- One of two different queues is the emptied one.
    obtain rfl | rfl : k = p ∨ j = p := by
      simp only [List.mem_pair] at hk hj
      grind
    · rw [Function.update_self] at hl
      obtain rfl := Option.some.inj hl
      exact List.disjoint_nil_left l'
    · rw [Function.update_self] at hl'
      obtain rfl := Option.some.inj hl'
      exact List.disjoint_nil_right l

/-- An operation used as its contract asks has its deque meaning. -/
theorem Op.exec_refines (hr : Rep m A) (op : Op Q C) (hv : op.Valid A) :
    ∃ m', op.exec m = some (m', (op.answer A).map .cell) ∧ Rep m' (op.deque A) := by
  cases op with
  | initListHead q b =>
    obtain ⟨hq, hw⟩ := utilInitListHead_spec m q b
    refine ⟨_, rfl, hr.update hw (fun p _ l _ => List.disjoint_nil_right l) hq .nil ?_⟩
    exact List.nil_subset _
  | insertCell q c addTail =>
    obtain ⟨⟨l, hl, hlen⟩, hc⟩ := hv
    cases addTail with
    | true =>
      obtain ⟨m', hm', hr'⟩ := utilEnqueueListTail_step hr hl hlen hc
      exact ⟨m', by simp [Op.exec, Op.answer, nstInsertCell, hm'], hr'⟩
    | false =>
      obtain ⟨m', hm', hr'⟩ := utilEnqueueListHead_step hr hl hlen hc
      exact ⟨m', by simp [Op.exec, Op.answer, nstInsertCell, hm'], hr'⟩
  | freeCell q c =>
    obtain ⟨⟨l, hl, hlen⟩, hc⟩ := hv
    obtain ⟨m', hm', hr'⟩ := utilEnqueueListTail_step hr hl hlen hc
    exact ⟨m', by simp [Op.exec, Op.answer, nstFreeCell, hm'], hr'⟩
  | getCell q =>
    obtain ⟨l, hl⟩ := hv
    obtain ⟨m', hm', hr'⟩ := nstGetCell_step hr hl
    exact ⟨m', by simp [Op.exec, Op.answer, hl, hm'], hr'⟩
  | peekCell q =>
    obtain ⟨l, hl⟩ := hv
    have hpeek := nstPeekCell_spec (hr.isQueue q l hl)
    exact ⟨m, by simp [Op.exec, Op.answer, hl, hpeek], hr⟩
  | removeCell q c =>
    obtain ⟨l, hl, hc⟩ := hv
    obtain ⟨m', hm', hr'⟩ := nstRemoveCell_step hr hl hc
    exact ⟨m', by simp [Op.exec, Op.answer, hm'], hr'⟩
  | insertCellQue q p addTail =>
    obtain ⟨hqp, l₁, l₂, hl₁, hl₂, hlen⟩ := hv
    obtain ⟨m', hm', hr'⟩ := nstInsertCellQue_step addTail hr hqp hl₁ hl₂ hlen
    exact ⟨m', by simp [Op.exec, Op.answer, hm'], hr'⟩

/-! ## Runs -/

/-- Operations used as their contracts ask have their deque meanings one after another. -/
theorem exec_refines {ops : List (Op Q C)} (hr : Rep m A)
    (hv : Along Op.deque Op.Valid A ops) :
    ∃ m', exec m ops = some (m', (answers A ops).map (Option.map .cell)) ∧
      Rep m' (run Op.deque A ops) := by
  induction ops generalizing m A with
  | nil => exact ⟨m, rfl, hr⟩
  | cons op ops ih =>
    obtain ⟨m₁, hm₁, hr₁⟩ := op.exec_refines hr hv.1
    obtain ⟨m', hm', hr'⟩ := ih hr₁ hv.2
    exact ⟨m', by simp [exec, hm₁, hm', answers], hr'⟩

/-- Cell queues are deques. From any memory with no queue initialised, a sequence of operations used
as their contracts ask never follows a null pointer and returns what the deques return; after it
every queue is a well-formed ring of exactly the cells of its deque, its count is their number, it
tells that it is empty exactly when it is, and no cell is in two queues. -/
theorem queues_are_deques (m₀ : Mem Q C) (ops : List (Op Q C))
    (hv : Along Op.deque Op.Valid uninit ops) :
    ∃ m, exec m₀ ops = some (m, (answers uninit ops).map (Option.map .cell)) ∧
      (∀ q l, run Op.deque uninit ops q = some l →
        m.links.Ring (.head q) (l.map .cell) ∧ (nstQueSize m q).toNat = l.length ∧
          (nstIsQueEmpty m q = true ↔ l = []) ∧ l.Nodup) ∧
      ∀ q p l₁ l₂, q ≠ p → run Op.deque uninit ops q = some l₁ →
        run Op.deque uninit ops p = some l₂ → l₁.Disjoint l₂ := by
  obtain ⟨m, hm, hr⟩ := exec_refines (rep_uninit m₀) hv
  refine ⟨m, hm, fun q l hl => ?_, hr.disjoint⟩
  have hq := hr.isQueue q l hl
  exact ⟨hq.ring, hq.count, hq.isQueEmpty_iff, hr.nodup q l hl⟩

/-- Two queues with a cell each, of which the second is put before the first. -/
def sampleOps : List (Op Bool ℕ) :=
  [.initListHead false false, .initListHead true false, .insertCell false 1 true,
    .insertCell true 2 true, .insertCellQue false true false, .getCell false]

theorem queues_are_deques_sample :
    ∃ m, exec ⟨⟨fun _ => none, fun _ => none⟩, fun _ => 7, fun _ => false⟩ sampleOps =
        some (m, [none, none, none, none, none, some (.cell 2)]) ∧
      m.links.Ring (.head false) [.cell 1] ∧ nstIsQueEmpty m true = true := by
  have hv : Along Op.deque Op.Valid uninit sampleOps := by
    refine ⟨trivial, trivial, ⟨⟨[], rfl, by decide⟩, ?_⟩, ⟨⟨[], rfl, by decide⟩, ?_⟩,
      ⟨by decide, [1], [2], rfl, rfl, by decide⟩, ⟨[2, 1], rfl⟩, trivial⟩
    · intro p l hl
      cases p <;> obtain rfl := Option.some.inj hl <;> decide
    · intro p l hl
      cases p <;> obtain rfl := Option.some.inj hl <;> decide
  obtain ⟨m, hm, hq, -⟩ := queues_are_deques
    ⟨⟨fun _ => none, fun _ => none⟩, fun _ => 7, fun _ => false⟩ sampleOps hv
  exact ⟨m, hm, (hq false [1] rfl).1, (hq true [] rfl).2.2.1.mpr rfl⟩

end NuAgent.Queue
