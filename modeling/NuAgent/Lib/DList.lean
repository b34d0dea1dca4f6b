import Mathlib.Data.List.Chain
import Mathlib.Data.List.Nodup
import Mathlib.Logic.Function.Basic

/-!
# Circular doubly linked lists

Nodes of any type carry two pointers. A chain is a list of nodes of which neighbours point at each
other, and a ring is a chain that leaves a head node and comes back to it. An edit of the pointers
is described by what it leaves alone; the rules say that splicing a chain into a ring at either end
and unlinking a member give a ring again, and that a ring none of whose nodes was written stays one.
The rules for the front follow from those for the back by exchanging the two pointers.
-/

namespace NuAgent.DList

variable {N : Type*}

/-- The pointers of all nodes; a missing one is a null pointer. -/
structure Links (N : Type*) where
  pprev : N → Option N
  pnext : N → Option N

namespace Links

variable {m m' : Links N} {a b h x : N} {l l₁ l₂ ys S P T : List N}

/-- `a` and `b` are neighbours: each points at the other. -/
def Link (m : Links N) (a b : N) : Prop := m.pnext a = some b ∧ m.pprev b = some a

/-- Consecutive nodes are neighbours. -/
def Chain (m : Links N) (l : List N) : Prop := l.IsChain m.Link

/-- The circular list of `l` through the head `h`. -/
def Ring (m : Links N) (h : N) (l : List N) : Prop := m.Chain (h :: (l ++ [h]))

/-- An edit that writes next pointers only at `S` and previous pointers only at `P`. -/
structure Rewired (m m' : Links N) (S P : List N) : Prop where
  next : ∀ n ∉ S, m'.pnext n = m.pnext n
  prev : ∀ n ∉ P, m'.pprev n = m.pprev n

/-- The same nodes with the two pointers exchanged. -/
def flip (m : Links N) : Links N := ⟨m.pnext, m.pprev⟩

section Write

variable [DecidableEq N]

/-- Write the next pointer of a node. -/
def setPnext (m : Links N) (n : N) (v : Option N) : Links N :=
  { m with pnext := Function.update m.pnext n v }

/-- Write the previous pointer of a node. -/
def setPprev (m : Links N) (n : N) (v : Option N) : Links N :=
  { m with pprev := Function.update m.pprev n v }

variable {n k : N} {v : Option N}

@[simp] theorem setPnext_pnext : (m.setPnext n v).pnext k = if k = n then v else m.pnext k :=
  Function.update_apply ..

@[simp] theorem setPnext_pprev : (m.setPnext n v).pprev k = m.pprev k := rfl

@[simp] theorem setPprev_pprev : (m.setPprev n v).pprev k = if k = n then v else m.pprev k :=
  Function.update_apply ..

@[simp] theorem setPprev_pnext : (m.setPprev n v).pnext k = m.pnext k := rfl

end Write

/-- An edit may be described by more writes than it makes. -/
theorem Rewired.mono {S' P' : List N} (hw : Rewired m m' S P) (hS : S ⊆ S') (hP : P ⊆ P') :
    Rewired m m' S' P' :=
  ⟨fun n hn => hw.next n fun h => hn (hS h), fun n hn => hw.prev n fun h => hn (hP h)⟩

/-! ## Chains -/

/-- A chain reads the next pointers of all nodes but its last and the previous pointers of all but
its first. -/
theorem Chain.rewired (hc : m.Chain l) (hw : Rewired m m' S P) (hS : ∀ n ∈ l.dropLast, n ∉ S)
    (hP : ∀ n ∈ l.tail, n ∉ P) : m'.Chain l := by
  induction l with
  | nil => exact .nil
  | cons a l ih =>
    cases l with
    | nil => exact .singleton a
    | cons b l =>
      obtain ⟨⟨hab, hba⟩, hrest⟩ := List.isChain_cons_cons.mp hc
      refine List.isChain_cons_cons.mpr ⟨⟨?_, ?_⟩, ih hrest ?_ ?_⟩
      · rw [hw.next a (hS a (by simp)), hab]
      · rw [hw.prev b (hP b (by simp)), hba]
      · exact fun n hn => hS n (by rw [List.dropLast_cons_cons]; exact List.mem_cons_of_mem a hn)
      · exact fun n hn => hP n (List.mem_cons_of_mem b hn)

/-- Two chains whose ends are neighbours are one chain. -/
theorem Chain.join (h₁ : m.Chain l₁) (h₂ : m.Chain l₂) (ha : l₁.getLast? = some a)
    (hb : l₂.head? = some b) (hab : m.Link a b) : m.Chain (l₁ ++ l₂) := by
  refine List.IsChain.append h₁ h₂ fun x hx y hy => ?_
  obtain rfl : a = x := Option.some.inj (ha.symm.trans hx)
  obtain rfl : b = y := Option.some.inj (hb.symm.trans hy)
  exact hab

theorem Chain.left (hc : m.Chain (l₁ ++ l₂)) : m.Chain l₁ := List.IsChain.left_of_append hc

theorem Chain.right (hc : m.Chain (l₁ ++ l₂)) : m.Chain l₂ := List.IsChain.right_of_append hc

/-- Where a chain is cut, the two sides are neighbours. -/
theorem Chain.link_of_append (hc : m.Chain (l₁ ++ l₂)) (ha : l₁.getLast? = some a)
    (hb : l₂.head? = some b) : m.Link a b :=
  (List.isChain_append.mp hc).2.2 a ha b hb

theorem chain_flip : m.flip.Chain l.reverse ↔ m.Chain l := by
  rw [Chain, List.isChain_reverse]
  exact List.IsChain.iff fun a b => and_comm

private theorem getLast?_notMem_dropLast (hn : l.Nodup) (ha : l.getLast? = some a) :
    a ∉ l.dropLast := by
  obtain ⟨s, rfl⟩ := List.getLast?_eq_some_iff.mp ha
  rw [List.dropLast_concat]
  exact fun hmem => (List.disjoint_of_nodup_append hn) hmem (List.mem_singleton_self a)

private theorem head?_notMem_tail (hn : l.Nodup) (ha : l.head? = some a) : a ∉ l.tail := by
  obtain ⟨s, rfl⟩ := List.head?_eq_some_iff.mp ha
  exact (List.nodup_cons.mp hn).1

/-- A chain is kept by an edit that writes of its next pointers only the last one and of its previous
pointers only the first. -/
theorem Chain.rewired_ends (hc : m.Chain l) (hn : l.Nodup) (hw : Rewired m m' S P)
    (hS : ∀ n ∈ l, n ∈ S → l.getLast? = some n) (hP : ∀ n ∈ l, n ∈ P → l.head? = some n) :
    m'.Chain l := by
  refine hc.rewired hw (fun n hmem hnS => ?_) (fun n hmem hnP => ?_)
  · exact getLast?_notMem_dropLast hn (hS n (List.dropLast_subset l hmem) hnS) hmem
  · exact head?_notMem_tail hn (hP n (List.mem_of_mem_tail hmem) hnP) hmem

/-! ## Rings -/

theorem ring_nil : m.Ring h [] ↔ m.pnext h = some h ∧ m.pprev h = some h :=
  List.isChain_pair

theorem ring_flip : m.flip.Ring h l.reverse ↔ m.Ring h l := by
  rw [Ring, Ring, ← chain_flip (l := h :: (l ++ [h]))]
  simp

/-- The nodes of a ring are a chain. -/
theorem Ring.chain (hr : m.Ring h l) : m.Chain l := by
  have htail : m.Chain (l ++ [h]) := List.IsChain.tail hr
  exact htail.left

/-- The last node of a ring and its head are neighbours. -/
theorem Ring.link_last (hr : m.Ring h l) (ha : (h :: l).getLast? = some a) : m.Link a h := by
  have hcut : m.Chain ((h :: l) ++ [h]) := hr
  exact hcut.link_of_append ha rfl

/-- The head of a ring and its first node are neighbours. -/
theorem Ring.link_first (hr : m.Ring h l) (hb : (l ++ [h]).head? = some b) : m.Link h b := by
  have hcut : m.Chain ([h] ++ (l ++ [h])) := hr
  exact hcut.link_of_append rfl hb

/-- A member of a ring and the nodes on its two sides are neighbours. -/
theorem Ring.link_member (hr : m.Ring h (l₁ ++ x :: l₂)) (ha : (h :: l₁).getLast? = some a)
    (hb : (l₂ ++ [h]).head? = some b) : m.Link a x ∧ m.Link x b := by
  have hr' : m.Chain ((h :: l₁) ++ ([x] ++ (l₂ ++ [h]))) := by simpa [Ring] using hr
  exact ⟨hr'.link_of_append ha rfl,
    hr'.right.link_of_append rfl hb⟩

/-- The frame rule: a ring none of whose nodes was written is kept. -/
theorem Ring.rewired (hr : m.Ring h l) (hw : Rewired m m' S P) (hS : ∀ n ∈ h :: l, n ∉ S)
    (hP : ∀ n ∈ h :: l, n ∉ P) : m'.Ring h l := by
  refine Chain.rewired hr hw (fun n hn => hS n ?_) (fun n hn => hP n ?_)
  · rwa [← List.cons_append, List.dropLast_concat] at hn
  · rw [List.tail_cons, List.mem_append, List.mem_singleton] at hn
    exact List.mem_cons.mpr hn.symm

/-- Splice a chain between the last node of a ring and its head, with other writes at `T`. -/
theorem Ring.splice_last {y z : N} (hr : m.Ring h l) (hc : m.Chain ys)
    (hnodup : (h :: l ++ ys).Nodup) (hT : ∀ n ∈ h :: l ++ ys, n ∉ T)
    (ha : (h :: l).getLast? = some a) (hy : ys.head? = some y) (hz : ys.getLast? = some z)
    (hw : Rewired m m' (a :: z :: T) (y :: h :: T)) (hay : m'.Link a y) (hzh : m'.Link z h) :
    m'.Ring h (l ++ ys) := by
  obtain ⟨hnl, hny, hdisj⟩ := List.nodup_append'.mp hnodup
  have hamem : a ∈ h :: l := List.mem_of_getLast? ha
  have hymem : y ∈ ys := List.mem_of_head? hy
  have hzmem : z ∈ ys := List.mem_of_getLast? hz
  have hcut : m.Chain ((h :: l) ++ [h]) := hr
  have hold : m'.Chain (h :: l) := by
    refine hcut.left.rewired_ends hnl hw (fun n hn hmem => ?_)
      (fun n hn hmem => ?_)
    · rcases List.mem_cons.mp hmem with rfl | hmem
      · exact ha
      rcases List.mem_cons.mp hmem with rfl | hmem
      · exact absurd hzmem (hdisj hn)
      · exact absurd hmem (hT n (List.mem_append_left ys hn))
    · rcases List.mem_cons.mp hmem with rfl | hmem
      · exact absurd hymem (hdisj hn)
      rcases List.mem_cons.mp hmem with rfl | hmem
      · rfl
      · exact absurd hmem (hT n (List.mem_append_left ys hn))
  have hnew : m'.Chain ys := by
    refine hc.rewired_ends hny hw (fun n hn hmem => ?_) (fun n hn hmem => ?_)
    · rcases List.mem_cons.mp hmem with rfl | hmem
      · exact absurd hn (hdisj hamem)
      rcases List.mem_cons.mp hmem with rfl | hmem
      · exact hz
      · exact absurd hmem (hT n (List.mem_append_right (h :: l) hn))
    · rcases List.mem_cons.mp hmem with rfl | hmem
      · exact hy
      rcases List.mem_cons.mp hmem with rfl | hmem
      · exact absurd hn (hdisj List.mem_cons_self)
      · exact absurd hmem (hT n (List.mem_append_right (h :: l) hn))
  have hback : m'.Chain (ys ++ [h]) := hnew.join (List.isChain_singleton h) hz rfl hzh
  have hyh : (ys ++ [h]).head? = some y := by rw [List.head?_append, hy]; rfl
  have := hold.join hback ha hyh hay
  rwa [Ring, List.append_assoc, ← List.cons_append]

/-- Splice a chain between the head of a ring and its first node, with other writes at `T`. -/
theorem Ring.splice_first {y z : N} (hr : m.Ring h l) (hc : m.Chain ys)
    (hnodup : (h :: l ++ ys).Nodup) (hT : ∀ n ∈ h :: l ++ ys, n ∉ T)
    (hb : (l ++ [h]).head? = some b) (hy : ys.head? = some y) (hz : ys.getLast? = some z)
    (hw : Rewired m m' (z :: h :: T) (b :: y :: T)) (hhy : m'.Link h y) (hzb : m'.Link z b) :
    m'.Ring h (ys ++ l) := by
  have hperm : (h :: (l.reverse ++ ys.reverse)).Perm (h :: (l ++ ys)) :=
    ((List.reverse_perm l).append (List.reverse_perm ys)).cons h
  rw [← ring_flip, List.reverse_append]
  refine Ring.splice_last (m := m.flip) (a := b) (y := z) (z := y) (ring_flip.mpr hr)
    (chain_flip.mpr hc) (hperm.nodup_iff.mpr hnodup) (fun n hn => hT n (hperm.mem_iff.mp hn))
    ?_ ?_ ?_ ⟨hw.prev, hw.next⟩ ⟨hzb.2, hzb.1⟩ ⟨hhy.2, hhy.1⟩
  · rw [← hb, ← List.head?_reverse]; simp
  · rw [List.head?_reverse, hz]
  · rw [List.getLast?_reverse, hy]

/-- Unlink a member of a ring. -/
theorem Ring.unlink (hr : m.Ring h (l₁ ++ x :: l₂)) (hnodup : (h :: (l₁ ++ x :: l₂)).Nodup)
    (ha : (h :: l₁).getLast? = some a) (hb : (l₂ ++ [h]).head? = some b)
    (hw : Rewired m m' [a, x] [b, x]) (hab : m'.Link a b) : m'.Ring h (l₁ ++ l₂) := by
  have hparts : m.Chain ((h :: l₁) ++ ([x] ++ (l₂ ++ [h]))) := by simpa [Ring] using hr
  -- The nodes around the ring, with the head at either end of them.
  have hfront : (h :: l₁ ++ x :: l₂).Nodup := hnodup
  have hback : (l₁ ++ x :: (l₂ ++ [h])).Nodup := by
    have hperm : (l₁ ++ x :: (l₂ ++ [h])).Perm (h :: (l₁ ++ x :: l₂)) := by
      rw [← List.cons_append, ← List.append_assoc]
      exact List.perm_append_singleton h _
    exact hperm.nodup_iff.mpr hnodup
  obtain ⟨hnf, hnxf, hdisjf⟩ := List.nodup_append'.mp hfront
  obtain ⟨-, hnxb, hdisjb⟩ := List.nodup_append'.mp hback
  have hamem : a ∈ h :: l₁ := List.mem_of_getLast? ha
  have hbmem : b ∈ l₂ ++ [h] := List.mem_of_head? hb
  have hleft : m'.Chain (h :: l₁) := by
    refine hparts.left.rewired_ends hnf hw (fun n hn hmem => ?_)
      (fun n hn hmem => ?_)
    · obtain rfl | rfl := List.mem_pair.mp hmem
      · exact ha
      · exact absurd List.mem_cons_self (hdisjf hn)
    · obtain rfl | rfl := List.mem_pair.mp hmem
      · rcases List.mem_cons.mp hn with rfl | hn
        · rfl
        · exact absurd (List.mem_cons_of_mem x hbmem) (hdisjb hn)
      · exact absurd List.mem_cons_self (hdisjf hn)
  have hright : m'.Chain (l₂ ++ [h]) := by
    obtain ⟨hx, hnb⟩ := List.nodup_cons.mp hnxb
    refine hparts.right.right.rewired_ends hnb hw (fun n hn hmem => ?_) (fun n hn hmem => ?_)
    · obtain rfl | rfl := List.mem_pair.mp hmem
      · rcases List.mem_append.mp hn with hn | hn
        · exact absurd (List.mem_cons_of_mem x hn) (hdisjf hamem)
        · obtain rfl := List.mem_singleton.mp hn
          exact List.getLast?_concat
      · exact absurd hn hx
    · obtain rfl | rfl := List.mem_pair.mp hmem
      · exact hb
      · exact absurd hn hx
  have := hleft.join hright ha hb hab
  rwa [Ring, List.append_assoc, ← List.cons_append]

end Links

end NuAgent.DList
