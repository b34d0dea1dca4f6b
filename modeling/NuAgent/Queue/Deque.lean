import NuAgent.Queue.Cell

/-!
# Cell queues hold lists of cells

`IsQueue m q l` says that the list through the head `q` is a ring of exactly the cells `l` and that
its count is their number. Each queue operation is specified by the lists before and after it and by
the heads and cells it may write, from which every other queue is kept.
-/

namespace NuAgent.Queue

open NuAgent.DList Links

variable {Q C : Type*} {m m' : Mem Q C} {q p : Q} {c : C} {l l₁ l₂ : List C}

/-- The queue of head `q` holds the cells `l`, in this order. -/
structure IsQueue (m : Mem Q C) (q : Q) (l : List C) : Prop where
  ring : m.links.Ring (.head q) (l.map .cell)
  count : (m.count q).toNat = l.length

/-- The nodes of given heads and cells. -/
def nodes (qs : List Q) (cs : List C) : List (Node Q C) := qs.map .head ++ cs.map .cell

@[simp] theorem head_mem_nodes {qs : List Q} {cs : List C} : .head q ∈ nodes qs cs ↔ q ∈ qs := by
  simp [nodes]

@[simp] theorem cell_mem_nodes {qs : List Q} {cs : List C} : .cell c ∈ nodes qs cs ↔ c ∈ cs := by
  simp [nodes]

/-- Nothing is written but the heads `qs` and the cells `cs`. -/
structure WritesOnly (m m' : Mem Q C) (qs : List Q) (cs : List C) : Prop where
  links : Rewired m.links m'.links (nodes qs cs) (nodes qs cs)
  count : ∀ q ∉ qs, m'.count q = m.count q

theorem WritesOnly.refl {qs : List Q} {cs : List C} : WritesOnly m m qs cs :=
  ⟨⟨fun _ _ => rfl, fun _ _ => rfl⟩, fun _ _ => rfl⟩

/-- A queue that shares no head and no cell with what was written is kept. -/
theorem IsQueue.frame {qs : List Q} {cs : List C} (hq : IsQueue m q l)
    (hw : WritesOnly m m' qs cs) (hqs : q ∉ qs) (hcs : ∀ c ∈ l, c ∉ cs) : IsQueue m' q l := by
  have hout : ∀ n ∈ Node.head q :: l.map .cell, n ∉ nodes qs cs := by
    intro n hn
    rcases List.mem_cons.mp hn with rfl | hn
    · rwa [head_mem_nodes]
    · obtain ⟨c, hc, rfl⟩ := List.mem_map.mp hn
      rw [cell_mem_nodes]
      exact hcs c hc
  exact ⟨hq.ring.rewired hw.links hout hout, by rw [hw.count q hqs, hq.count]⟩

theorem nodup_nodes (q : Q) (hl : l.Nodup) : (Node.head q :: l.map Node.cell).Nodup := by
  refine List.nodup_cons.mpr ⟨by simp, hl.map ?_⟩
  exact fun a b hab => Node.cell.inj hab

/-- The last node of a ring is its head or one of its cells. -/
theorem getLast?_mem_nodes {n : Node Q C}
    (hn : (Node.head q :: l.map Node.cell).getLast? = some n) : n ∈ nodes [q] l := by
  have := List.mem_of_getLast? hn
  simpa [nodes] using this

theorem head?_mem_nodes {n : Node Q C} (hn : (l.map Node.cell ++ [Node.head q]).head? = some n) :
    n ∈ nodes [q] l := by
  have := List.mem_of_head? hn
  simpa [nodes, or_comm] using this

theorem exists_getLast? (q : Q) (l : List C) :
    ∃ a, (Node.head q :: l.map Node.cell).getLast? = some a :=
  ⟨_, List.getLast?_eq_some_getLast (List.cons_ne_nil _ _)⟩

theorem exists_head? (q : Q) (l : List C) :
    ∃ b, (l.map Node.cell ++ [Node.head q]).head? = some b :=
  ⟨_, List.head?_eq_some_head (by simp)⟩

/-- A node among given heads and cells is none of the other cells. -/
theorem ne_cell_of_mem_nodes {n : Node Q C} {qs : List Q} (hn : n ∈ nodes qs l) (hc : c ∉ l) :
    n ≠ .cell c := by
  rintro rfl
  exact hc (cell_mem_nodes.mp hn)

theorem ne_head_of_mem_nodes {n : Node Q C} {qs : List Q} (hn : n ∈ nodes qs l) (hp : p ∉ qs) :
    n ≠ .head p := by
  rintro rfl
  exact hp (head_mem_nodes.mp hn)

/-- The head of another queue is none of the nodes of a queue and of what is spliced into it. -/
theorem notMem_other_head (hqp : q ≠ p) :
    ∀ n ∈ Node.head q :: l₁.map .cell ++ l₂.map .cell, n ∉ [Node.head p] := by
  intro n hn
  have hn' : n ∈ nodes [q] (l₁ ++ l₂) := by simpa [nodes] using hn
  simpa using ne_head_of_mem_nodes hn' (by simpa using hqp.symm)

theorem nodes_mono {qs ps : List Q} (hqs : qs ⊆ ps) (hl : l₁ ⊆ l₂) :
    nodes qs l₁ ⊆ nodes ps l₂ :=
  List.append_subset.mpr ⟨fun _ hn => List.mem_append_left _ (List.map_subset _ hqs hn),
    fun _ hn => List.mem_append_right _ (List.map_subset _ hl hn)⟩

/-- The pointers and the count in the head of a queue that holds cells. -/
theorem IsQueue.ends {t : List C} (hp : IsQueue m p (c :: t)) :
    ∃ z, ((c :: t).map Node.cell).getLast? = some z ∧ m.links.pprev (.head p) = some z ∧
      m.links.pnext (.head p) = some (.cell c) ∧ m.count p ≠ 0 := by
  obtain ⟨z, hz⟩ : ∃ z, ((c :: t).map (Node.cell (Q := Q))).getLast? = some z :=
    ⟨_, List.getLast?_eq_some_getLast (List.cons_ne_nil _ _)⟩
  refine ⟨z, hz, (hp.ring.link_last ?_).2, (hp.ring.link_first rfl).1, fun h0 => ?_⟩
  · rw [List.map_cons, List.getLast?_cons_cons, ← List.map_cons, hz]
  · have hlen := hp.count
    rw [h0] at hlen
    exact absurd hlen (Nat.zero_ne_add_one t.length)

/-- `NST_IsQueEmpty` tells whether the queue is empty. -/
theorem IsQueue.isQueEmpty_iff (hq : IsQueue m q l) : nstIsQueEmpty m q = true ↔ l = [] := by
  rw [nstIsQueEmpty, decide_eq_true_iff, ← List.length_eq_zero_iff, ← hq.count]
  exact ⟨fun h => by rw [h]; rfl, fun h => UInt16.toNat_inj.mp h⟩

variable [DecidableEq Q] [DecidableEq C]

/-! ## What the operations write -/

theorem utilInitListHead_spec (m : Mem Q C) (q : Q) (b : Bool) :
    IsQueue (utilInitListHead m q b) q [] ∧ WritesOnly m (utilInitListHead m q b) [q] [] := by
  refine ⟨⟨ring_nil.mpr ?_, ?_⟩, ⟨⟨?_, ?_⟩, ?_⟩⟩
  · simp [utilInitListHead, utilInitList]
  · simp [utilInitListHead]
  · intro n hn
    have hne : n ≠ .head q := fun h => hn (by simp [h])
    simp [utilInitListHead, utilInitList, hne]
  · intro n hn
    have hne : n ≠ .head q := fun h => hn (by simp [h])
    simp [utilInitListHead, utilInitList, hne]
  · intro p hp
    have hne : p ≠ q := fun h => hp (by simp [h])
    simp [utilInitListHead, utilInitList, hne]

theorem toNat_add_of_lt {j k : UInt16} {n i : ℕ} (hj : j.toNat = n) (hk : k.toNat = i)
    (hlt : n + i < 2 ^ 16) : (j + k).toNat = n + i := by
  rw [UInt16.toNat_add, hj, hk]
  exact Nat.mod_eq_of_lt hlt

theorem toNat_sub_one {k : UInt16} {n : ℕ} (hk : k.toNat = n + 1) : (k - 1).toNat = n := by
  have hle : (1 : UInt16) ≤ k := by
    rw [UInt16.le_iff_toNat_le, hk]
    exact Nat.le_add_left 1 n
  rw [UInt16.toNat_sub_of_le k 1 hle, hk]
  rfl

/-- What `util_enqueue_list_tail` writes: the new node is between the last node and the head. -/
theorem utilEnqueueListTail_writes {a : Node Q C} (ha : m.links.pprev (.head q) = some a)
    (hac : a ≠ .cell c) :
    ∃ m', utilEnqueueListTail m q (.cell c) = some m' ∧ m'.links.Link a (.cell c) ∧
      m'.links.Link (.cell c) (.head q) ∧
      Rewired m.links m'.links [a, .cell c] [.cell c, .head q] ∧
      ∀ p, m'.count p = if p = q then m.count q + 1 else m.count p := by
  refine ⟨_, by simp only [utilEnqueueListTail, ha]; rfl, ?_, ?_, ⟨fun n hn => ?_, fun n hn => ?_⟩,
    fun p => ?_⟩
  · simp [Links.Link]
  · simp [Links.Link, hac.symm]
  · obtain ⟨hna, hnc⟩ : n ≠ a ∧ n ≠ .cell c := by simpa using hn
    simp [hna, hnc]
  · obtain ⟨hnc, hnq⟩ : n ≠ .cell c ∧ n ≠ .head q := by simpa using hn
    simp [hnc, hnq]
  · simp

/-- What `util_enqueue_list_head` writes: the new node is between the head and the first node. -/
theorem utilEnqueueListHead_writes {b : Node Q C} (hb : m.links.pnext (.head q) = some b)
    (hbc : b ≠ .cell c) :
    ∃ m', utilEnqueueListHead m q (.cell c) = some m' ∧ m'.links.Link (.head q) (.cell c) ∧
      m'.links.Link (.cell c) b ∧
      Rewired m.links m'.links [.cell c, .head q] [b, .cell c] ∧
      ∀ p, m'.count p = if p = q then m.count q + 1 else m.count p := by
  refine ⟨_, by simp only [utilEnqueueListHead, hb]; rfl, ?_, ?_, ⟨fun n hn => ?_, fun n hn => ?_⟩,
    fun p => ?_⟩
  · simp [Links.Link, hbc.symm]
  · simp [Links.Link]
  · obtain ⟨hnc, hnq⟩ : n ≠ .cell c ∧ n ≠ .head q := by simpa using hn
    simp [hnc, hnq]
  · obtain ⟨hnb, hnc⟩ : n ≠ b ∧ n ≠ .cell c := by simpa using hn
    simp [hnb, hnc]
  · simp

/-- What `util_unlink_list` writes: the neighbours of the node become each other's. -/
theorem utilUnlinkList_writes {a b : Node Q C} (ha : m.links.pprev (.cell c) = some a)
    (hb : m.links.pnext (.cell c) = some b) (hac : a ≠ .cell c) (hbc : b ≠ .cell c) :
    ∃ m', utilUnlinkList m q (.cell c) = some m' ∧ m'.links.Link a b ∧
      Rewired m.links m'.links [a, .cell c] [b, .cell c] ∧
      ∀ p, m'.count p = if p = q then m.count q - 1 else m.count p := by
  refine ⟨_, by simp only [utilUnlinkList, ha, hb]; rfl, ?_, ⟨fun n hn => ?_, fun n hn => ?_⟩,
    fun p => ?_⟩
  · simp [Links.Link, hac, hbc]
  · obtain ⟨hna, hnc⟩ : n ≠ a ∧ n ≠ .cell c := by simpa using hn
    simp [hna, hnc]
  · obtain ⟨hnb, hnc⟩ : n ≠ b ∧ n ≠ .cell c := by simpa using hn
    simp [hnb, hnc]
  · simp

/-- What `NST_InsertCellQue` writes at the tail of a queue. -/
theorem nstInsertCellQue_tail_writes {a f z : Node Q C} (hqp : q ≠ p) (hcount : m.count p ≠ 0)
    (ha : m.links.pprev (.head q) = some a) (hf : m.links.pnext (.head p) = some f)
    (hz : m.links.pprev (.head p) = some z) (haz : a ≠ z) (hap : a ≠ .head p) (hzp : z ≠ .head p)
    (hfp : f ≠ .head p) (hfq : f ≠ .head q) :
    ∃ m', nstInsertCellQue m q p true = some m' ∧ m'.links.Link a f ∧
      m'.links.Link z (.head q) ∧
      Rewired m.links m'.links [a, z, .head p] [f, .head q, .head p] ∧
      m'.links.pnext (.head p) = some (.head p) ∧ m'.links.pprev (.head p) = some (.head p) ∧
      ∀ k, m'.count k =
        if k = p then 0 else if k = q then m.count q + m.count p else m.count k := by
  refine ⟨_, by simp only [nstInsertCellQue, hcount, ha, hf, hz, if_false, if_true]; rfl,
    ?_, ?_, ⟨fun n hn => ?_, fun n hn => ?_⟩, ?_, ?_, fun k => ?_⟩
  · simp [nstInsertCellQueEnd, Links.Link, haz, hap, hfp, hfq]
  · simp [nstInsertCellQueEnd, Links.Link, hzp, hqp]
  · obtain ⟨hna, hnz, hnp⟩ : n ≠ a ∧ n ≠ z ∧ n ≠ .head p := by simpa using hn
    simp [nstInsertCellQueEnd, hna, hnz, hnp]
  · obtain ⟨hnf, hnq, hnp⟩ : n ≠ f ∧ n ≠ .head q ∧ n ≠ .head p := by simpa using hn
    simp [nstInsertCellQueEnd, hnf, hnq, hnp]
  · simp [nstInsertCellQueEnd]
  · simp [nstInsertCellQueEnd]
  · simp [nstInsertCellQueEnd]

/-- What `NST_InsertCellQue` writes at the head of a queue. -/
theorem nstInsertCellQue_head_writes {b f z : Node Q C} (hqp : q ≠ p) (hcount : m.count p ≠ 0)
    (hb : m.links.pnext (.head q) = some b) (hf : m.links.pnext (.head p) = some f)
    (hz : m.links.pprev (.head p) = some z) (hbf : b ≠ f) (hbp : b ≠ .head p) (hfp : f ≠ .head p)
    (hzp : z ≠ .head p) (hzq : z ≠ .head q) :
    ∃ m', nstInsertCellQue m q p false = some m' ∧ m'.links.Link (.head q) f ∧
      m'.links.Link z b ∧
      Rewired m.links m'.links [z, .head q, .head p] [b, f, .head p] ∧
      m'.links.pnext (.head p) = some (.head p) ∧ m'.links.pprev (.head p) = some (.head p) ∧
      ∀ k, m'.count k =
        if k = p then 0 else if k = q then m.count q + m.count p else m.count k := by
  refine ⟨_, by simp only [nstInsertCellQue, hcount, hb, hf, hz, if_false, Bool.false_eq_true]; rfl,
    ?_, ?_, ⟨fun n hn => ?_, fun n hn => ?_⟩, ?_, ?_, fun k => ?_⟩
  · simp [nstInsertCellQueEnd, Links.Link, hfp, hqp]
  · simp [nstInsertCellQueEnd, Links.Link, hzp, hzq, hbf, hbp]
  · obtain ⟨hnz, hnq, hnp⟩ : n ≠ z ∧ n ≠ .head q ∧ n ≠ .head p := by simpa using hn
    simp [nstInsertCellQueEnd, hnz, hnq, hnp]
  · obtain ⟨hnb, hnf, hnp⟩ : n ≠ b ∧ n ≠ f ∧ n ≠ .head p := by simpa using hn
    simp [nstInsertCellQueEnd, hnb, hnf, hnp]
  · simp [nstInsertCellQueEnd]
  · simp [nstInsertCellQueEnd]
  · simp [nstInsertCellQueEnd]

/-! ## Specifications of the operations -/

theorem utilEnqueueListTail_spec (hq : IsQueue m q l) (hnodup : (l ++ [c]).Nodup)
    (hlen : (l ++ [c]).length < 2 ^ 16) :
    ∃ m', utilEnqueueListTail m q (.cell c) = some m' ∧ IsQueue m' q (l ++ [c]) ∧
      WritesOnly m m' [q] (l ++ [c]) := by
  obtain ⟨a, ha⟩ := exists_getLast? q l
  have hc : c ∉ l := fun h => List.disjoint_of_nodup_append hnodup h (List.mem_singleton_self c)
  have hmem : a ∈ nodes [q] l := getLast?_mem_nodes ha
  obtain ⟨m', hm', hac, hcq, hw, hcount⟩ :=
    utilEnqueueListTail_writes (hq.ring.link_last ha).2 (ne_cell_of_mem_nodes hmem hc)
  have hmem' := nodes_mono (List.Subset.refl _) (List.subset_append_left l [c]) hmem
  refine ⟨m', hm', ⟨?_, ?_⟩, ⟨hw.mono ?_ ?_, fun p hp => ?_⟩⟩
  · rw [List.map_append]
    refine hq.ring.splice_last (List.isChain_singleton _) ?_ ?_ ha rfl rfl hw hac hcq
    · simpa using nodup_nodes q hnodup
    · simp
  · rw [hcount, if_pos rfl, List.length_append] at *
    exact toNat_add_of_lt hq.count rfl hlen
  · exact List.cons_subset.mpr ⟨hmem', by simp⟩
  · simp
  · rw [hcount, if_neg (by simpa using hp)]

theorem utilEnqueueListHead_spec (hq : IsQueue m q l) (hnodup : (c :: l).Nodup)
    (hlen : (c :: l).length < 2 ^ 16) :
    ∃ m', utilEnqueueListHead m q (.cell c) = some m' ∧ IsQueue m' q (c :: l) ∧
      WritesOnly m m' [q] (c :: l) := by
  obtain ⟨b, hb⟩ := exists_head? q l
  have hc : c ∉ l := (List.nodup_cons.mp hnodup).1
  have hmem : b ∈ nodes [q] l := head?_mem_nodes hb
  obtain ⟨m', hm', hqc, hcb, hw, hcount⟩ :=
    utilEnqueueListHead_writes (hq.ring.link_first hb).1 (ne_cell_of_mem_nodes hmem hc)
  have hmem' := nodes_mono (List.Subset.refl _) (List.subset_cons_self c l) hmem
  refine ⟨m', hm', ⟨?_, ?_⟩, ⟨hw.mono ?_ ?_, fun p hp => ?_⟩⟩
  · refine hq.ring.splice_first (List.isChain_singleton (Node.cell c)) ?_ ?_ hb rfl rfl hw hqc hcb
    · have hperm : (l ++ [c]).Perm (c :: l) := List.perm_append_singleton c l
      simpa using nodup_nodes q (hperm.nodup_iff.mpr hnodup)
    · simp
  · rw [hcount, if_pos rfl]
    exact toNat_add_of_lt hq.count rfl hlen
  · simp
  · exact List.cons_subset.mpr ⟨hmem', by simp⟩
  · rw [hcount, if_neg (by simpa using hp)]

theorem utilUnlinkList_spec (hq : IsQueue m q (l₁ ++ c :: l₂)) (hnodup : (l₁ ++ c :: l₂).Nodup) :
    ∃ m', utilUnlinkList m q (.cell c) = some m' ∧ IsQueue m' q (l₁ ++ l₂) ∧
      WritesOnly m m' [q] (l₁ ++ c :: l₂) := by
  obtain ⟨a, ha⟩ := exists_getLast? q l₁
  obtain ⟨b, hb⟩ := exists_head? q l₂
  have hring : m.links.Ring (.head q) (l₁.map .cell ++ .cell c :: l₂.map .cell) := by
    simpa using hq.ring
  obtain ⟨hac, hcb⟩ := hring.link_member ha hb
  obtain ⟨-, hcl₂, hdisj⟩ := List.nodup_append'.mp hnodup
  have hamem : a ∈ nodes [q] l₁ := getLast?_mem_nodes ha
  have hbmem : b ∈ nodes [q] l₂ := head?_mem_nodes hb
  obtain ⟨m', hm', hab, hw, hcount⟩ := utilUnlinkList_writes (q := q) hac.2 hcb.1
    (ne_cell_of_mem_nodes hamem fun h => hdisj h List.mem_cons_self)
    (ne_cell_of_mem_nodes hbmem (List.nodup_cons.mp hcl₂).1)
  refine ⟨m', hm', ⟨?_, ?_⟩, ⟨hw.mono ?_ ?_, fun p hp => ?_⟩⟩
  · rw [List.map_append]
    exact hring.unlink (by simpa using nodup_nodes q hnodup) ha hb hw hab
  · have hlen := hq.count
    rw [List.length_append, List.length_cons] at hlen
    rw [hcount, if_pos rfl, List.length_append]
    exact toNat_sub_one hlen
  · refine List.cons_subset.mpr ⟨nodes_mono (List.Subset.refl _) ?_ hamem, by simp⟩
    exact List.subset_append_left _ _
  · refine List.cons_subset.mpr ⟨nodes_mono (List.Subset.refl _) (fun n hn => ?_) hbmem, by simp⟩
    exact List.mem_append_right _ (List.mem_cons_of_mem c hn)
  · rw [hcount, if_neg (by simpa using hp)]

/-- `NST_GetCell` takes the first cell. -/
theorem nstGetCell_spec (hq : IsQueue m q l) (hnodup : l.Nodup) :
    ∃ m', nstGetCell m q = some (m', l.head?.map .cell) ∧ IsQueue m' q l.tail ∧
      WritesOnly m m' [q] l := by
  cases l with
  | nil =>
    refine ⟨m, ?_, hq, .refl⟩
    simp [nstGetCell, utilDequeueList, (ring_nil.mp hq.ring).1]
  | cons c l =>
    have hnext := (hq.ring.link_first (b := .cell c) rfl).1
    have hcut : IsQueue m q ([] ++ c :: l) := hq
    obtain ⟨m', hm', hq', hw⟩ := utilUnlinkList_spec hcut hnodup
    refine ⟨m', ?_, hq', hw⟩
    simp [nstGetCell, utilDequeueList, hnext, hm']

/-- `NST_PeekCell` shows the first cell. -/
theorem nstPeekCell_spec (hq : IsQueue m q l) : nstPeekCell m q = l.head?.map .cell := by
  cases l with
  | nil => simp [nstPeekCell, utilPeekList, (ring_nil.mp hq.ring).1]
  | cons c l =>
    have hnext := (hq.ring.link_first (b := .cell c) rfl).1
    simp [nstPeekCell, utilPeekList, hnext]

/-- `NST_RemoveCell` takes a member out of its queue. -/
theorem nstRemoveCell_spec (hq : IsQueue m q l) (hnodup : l.Nodup) (hc : c ∈ l) :
    ∃ m', nstRemoveCell m q (some c) = some m' ∧ IsQueue m' q (l.erase c) ∧
      WritesOnly m m' [q] l := by
  obtain ⟨l₁, l₂, rfl⟩ := List.append_of_mem hc
  obtain ⟨a, ha⟩ := exists_getLast? q l₁
  obtain ⟨b, hb⟩ := exists_head? q l₂
  have hring : m.links.Ring (.head q) (l₁.map .cell ++ .cell c :: l₂.map .cell) := by
    simpa using hq.ring
  obtain ⟨hac, hcb⟩ := hring.link_member ha hb
  have hc₁ : c ∉ l₁ := fun h => (List.disjoint_of_nodup_append hnodup) h List.mem_cons_self
  obtain ⟨m', hm', hq', hw⟩ := utilUnlinkList_spec hq hnodup
  refine ⟨m', ?_, ?_, hw⟩
  · simp [nstRemoveCell, hac.2, hcb.1, hm']
  · rwa [List.erase_append_right _ hc₁, List.erase_cons_head]

/-- `NST_InsertCellQue` moves the cells of one queue behind those of another. -/
theorem nstInsertCellQue_tail_spec {t : List C} (hqp : q ≠ p) (hq : IsQueue m q l)
    (hp : IsQueue m p (c :: t)) (hnodup : (l ++ c :: t).Nodup)
    (hlen : (l ++ c :: t).length < 2 ^ 16) :
    ∃ m', nstInsertCellQue m q p true = some m' ∧ IsQueue m' q (l ++ c :: t) ∧ IsQueue m' p [] ∧
      WritesOnly m m' [q, p] (l ++ c :: t) := by
  obtain ⟨a, ha⟩ := exists_getLast? q l
  obtain ⟨z, hz, hpprev, hpnext, hcount0⟩ := hp.ends
  have hamem : a ∈ nodes [q] l := getLast?_mem_nodes ha
  have hzmem : z ∈ nodes ([] : List Q) (c :: t) := List.mem_of_getLast? hz
  have hdisj := List.disjoint_of_nodup_append hnodup
  have haz : a ≠ z := by
    obtain ⟨d, hd, rfl⟩ := List.mem_map.mp (List.mem_of_getLast? hz)
    exact ne_cell_of_mem_nodes hamem fun h => hdisj h hd
  obtain ⟨m', hm', haf, hzq, hw, hnp, hpp, hcount⟩ := nstInsertCellQue_tail_writes hqp hcount0
    (hq.ring.link_last ha).2 hpnext hpprev
    haz (ne_head_of_mem_nodes hamem (by simpa using hqp.symm))
    (ne_head_of_mem_nodes hzmem (List.not_mem_nil)) (by simp) (by simp)
  refine ⟨m', hm', ⟨?_, ?_⟩, ⟨?_, ?_⟩, ⟨hw.mono ?_ ?_, fun k hk => ?_⟩⟩
  · rw [List.map_append]
    refine hq.ring.splice_last (T := [.head p]) hp.ring.chain ?_ ?_ ha rfl hz hw haf hzq
    · simpa using nodup_nodes q hnodup
    · exact notMem_other_head hqp
  · rw [hcount, if_neg hqp, if_pos rfl, List.length_append] at *
    exact toNat_add_of_lt hq.count hp.count hlen
  · exact ring_nil.mpr ⟨hnp, hpp⟩
  · rw [hcount, if_pos rfl]
    rfl
  · refine List.cons_subset.mpr ⟨nodes_mono (by simp) (List.subset_append_left _ _) hamem, ?_⟩
    exact List.cons_subset.mpr
      ⟨nodes_mono (by simp) (List.subset_append_right l (c :: t)) hzmem, by simp⟩
  · simp
  · obtain ⟨hkq, hkp⟩ : k ≠ q ∧ k ≠ p := by simpa using hk
    rw [hcount, if_neg hkp, if_neg hkq]

/-- `NST_InsertCellQue` moves the cells of one queue before those of another. -/
theorem nstInsertCellQue_head_spec {t : List C} (hqp : q ≠ p) (hq : IsQueue m q l)
    (hp : IsQueue m p (c :: t)) (hnodup : (l ++ c :: t).Nodup)
    (hlen : (l ++ c :: t).length < 2 ^ 16) :
    ∃ m', nstInsertCellQue m q p false = some m' ∧ IsQueue m' q (c :: t ++ l) ∧ IsQueue m' p [] ∧
      WritesOnly m m' [q, p] (l ++ c :: t) := by
  obtain ⟨b, hb⟩ := exists_head? q l
  obtain ⟨z, hz, hpprev, hpnext, hcount0⟩ := hp.ends
  have hbmem : b ∈ nodes [q] l := head?_mem_nodes hb
  have hzmem : z ∈ nodes ([] : List Q) (c :: t) := List.mem_of_getLast? hz
  have hdisj := List.disjoint_of_nodup_append hnodup
  obtain ⟨m', hm', hqf, hzb, hw, hnp, hpp, hcount⟩ := nstInsertCellQue_head_writes hqp hcount0
    (hq.ring.link_first hb).1 hpnext hpprev
    (ne_cell_of_mem_nodes hbmem fun h => hdisj h List.mem_cons_self)
    (ne_head_of_mem_nodes hbmem (by simpa using hqp.symm)) (by simp)
    (ne_head_of_mem_nodes hzmem List.not_mem_nil) (ne_head_of_mem_nodes hzmem List.not_mem_nil)
  refine ⟨m', hm', ⟨?_, ?_⟩, ⟨?_, ?_⟩, ⟨hw.mono ?_ ?_, fun k hk => ?_⟩⟩
  · rw [List.map_append]
    refine hq.ring.splice_first (T := [.head p]) hp.ring.chain ?_ ?_ hb rfl hz hw hqf hzb
    · simpa using nodup_nodes q hnodup
    · exact notMem_other_head hqp
  · rw [hcount, if_neg hqp, if_pos rfl, List.length_append, Nat.add_comm (c :: t).length]
    rw [List.length_append] at hlen
    exact toNat_add_of_lt hq.count hp.count hlen
  · exact ring_nil.mpr ⟨hnp, hpp⟩
  · rw [hcount, if_pos rfl]
    rfl
  · refine List.cons_subset.mpr
      ⟨nodes_mono (by simp) (List.subset_append_right l (c :: t)) hzmem, by simp⟩
  · exact List.cons_subset.mpr ⟨nodes_mono (by simp) (List.subset_append_left _ _) hbmem, by simp⟩
  · obtain ⟨hkq, hkp⟩ : k ≠ q ∧ k ≠ p := by simpa using hk
    rw [hcount, if_neg hkp, if_neg hkq]

/-- `NST_InsertCellQue` moves the cells of one queue to an end of another. -/
theorem nstInsertCellQue_spec (addTail : Bool) (hqp : q ≠ p) (hq : IsQueue m q l₁)
    (hp : IsQueue m p l₂) (hnodup : (l₁ ++ l₂).Nodup) (hlen : (l₁ ++ l₂).length < 2 ^ 16) :
    ∃ m', nstInsertCellQue m q p addTail = some m' ∧
      IsQueue m' q (if addTail then l₁ ++ l₂ else l₂ ++ l₁) ∧ IsQueue m' p [] ∧
      WritesOnly m m' [q, p] (l₁ ++ l₂) := by
  cases l₂ with
  | nil =>
    have h0 : m.count p = 0 := UInt16.toNat_inj.mp hp.count
    refine ⟨m, by simp [nstInsertCellQue, h0], ?_, hp, .refl⟩
    simpa using hq
  | cons c t =>
    cases addTail with
    | true => exact nstInsertCellQue_tail_spec hqp hq hp hnodup hlen
    | false => exact nstInsertCellQue_head_spec hqp hq hp hnodup hlen

end NuAgent.Queue
