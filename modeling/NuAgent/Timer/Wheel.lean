import Mathlib.Data.Fintype.Card
import NuAgent.Timer.Alarm

/-!
# The wheel hangs together

`Wheel s w f` says that spoke `i` is the doubly linked list of the timers `w i`, that these are the
running timers that match `i`, that the free list leads through the unused timers `f`, and that the
counters count. Linking, unlinking, allocating and freeing a timer keep it, and `Only` says what they
leave alone: the other timers, the time, and the end of a list behind the timer.
-/

namespace NuAgent.Timer

open DList NullList

/-- The wheel with the spokes `w` and the free timers `f`. -/
structure Wheel (s : Timers) (w : ℕ → List TmrPtr) (f : List TmrPtr) : Prop where
  line : ∀ i, Line s.links none (s.tmrFirst i) (w i)
  nodup : ∀ i, (w i).Nodup
  mem : ∀ i p, p ∈ w i ↔
    (s.tmrTbl p).tmrState = .running ∧ spoke (s.tmrTbl p).tmrMatch = i
  path : Path s.links s.tmrFreeList f
  free_nodup : f.Nodup
  free : ∀ p, p ∈ f ↔ (s.tmrTbl p).tmrState = .unused
  entries : ∀ i, (s.tmrEntries i).toNat = (w i).length
  tmrFree : s.tmrFree.toNat = f.length
  tmrUsed : s.tmrUsed.toNat + f.length = osTmrCfgMax

/-- From `s` to `s'` nothing happened but to timer `p`. -/
structure Only (p : TmrPtr) (s s' : Timers) (w w' : ℕ → List TmrPtr) : Prop where
  time : s'.tmrTime = s.tmrTime
  other : ∀ q, q ≠ p → s'.tmrTbl q = s.tmrTbl q
  suffix : ∀ i l, p ∉ l → l <:+ w i → l <:+ w' i

variable {s s' s'' : Timers} {w w' w'' : ℕ → List TmrPtr} {f : List TmrPtr} {p : TmrPtr}

theorem Only.refl : Only p s s w w := ⟨rfl, fun _ _ => rfl, fun _ _ _ h => h⟩

theorem Only.trans (h : Only p s s' w w') (h' : Only p s' s'' w' w'') : Only p s s'' w w'' where
  time := h'.time.trans h.time
  other q hq := (h'.other q hq).trans (h.other q hq)
  suffix i l hl hw := h'.suffix i l hl (h.suffix i l hl hw)

@[simp] theorem put_self (s : Timers) (p : TmrPtr) (t : Tmr) : (s.put p t).tmrTbl p = t :=
  Function.update_self ..

theorem put_other (s : Timers) (t : Tmr) {q : TmrPtr} (h : q ≠ p) :
    (s.put p t).tmrTbl q = s.tmrTbl q :=
  Function.update_of_ne h ..

/-- Lists of different timers are short. -/
theorem length_le (l : List TmrPtr) (h : l.Nodup) : l.length ≤ 16 := by
  have hcard := h.length_le_card
  rwa [Fintype.card_fin] at hcard

namespace Wheel

/-- A timer is in one spoke only. -/
theorem disjoint (h : Wheel s w f) {i j : ℕ} (hij : i ≠ j) {q : TmrPtr} (hi : q ∈ w i) : q ∉ w j :=
  fun hj => hij (((h.mem i q).1 hi).2.symm.trans ((h.mem j q).1 hj).2)

theorem not_free (h : Wheel s w f) {i : ℕ} {q : TmrPtr} (hi : q ∈ w i) : q ∉ f := fun hq => by
  have hrun := ((h.mem i q).1 hi).1
  rw [(h.free q).1 hq] at hrun
  cases hrun

/-- The fields of a timer change, and neither its place in the wheel nor whether it is free. -/
theorem put (h : Wheel s w f) {t : Tmr}
    (hrun : ∀ i, t.tmrState = .running ∧ spoke t.tmrMatch = i ↔
      (s.tmrTbl p).tmrState = .running ∧ spoke (s.tmrTbl p).tmrMatch = i)
    (hfree : t.tmrState = .unused ↔ (s.tmrTbl p).tmrState = .unused) :
    Wheel (s.put p t) w f ∧ Only p s (s.put p t) w w := by
  refine ⟨{ h with mem := fun i q => ?_, free := fun q => ?_ },
    ⟨rfl, fun q hq => put_other s t hq, fun _ _ _ hl => hl⟩⟩
  · by_cases hq : q = p
    · rw [hq, put_self, hrun i]
      exact h.mem i p
    · rw [put_other s t hq]
      exact h.mem i q
  · by_cases hq : q = p
    · rw [hq, put_self, hfree]
      exact h.free p
    · rw [put_other s t hq]
      exact h.free q

/-! ## Unlinking -/

/-- `OSTmr_Unlink` takes a running timer out of its spoke. -/
theorem unlink (h : Wheel s w f) (hrun : (s.tmrTbl p).tmrState = .running) :
    ∃ s', osTmrUnlink s p = some s' ∧ Wheel s' (fun i => (w i).erase p) f ∧
      Only p s s' w (fun i => (w i).erase p) ∧
      s'.tmrTbl p = { s.tmrTbl p with tmrState := .stopped } := by
  have hmem : p ∈ w (spoke (s.tmrTbl p).tmrMatch) := (h.mem _ p).2 ⟨hrun, rfl⟩
  generalize hi : spoke (s.tmrTbl p).tmrMatch = i at hmem
  obtain ⟨l₁, l₂, hsplit⟩ := List.append_of_mem hmem
  have hline := h.line i
  have hnodup := h.nodup i
  rw [hsplit] at hline hnodup
  have hp₁ : p ∉ l₁ := fun hp =>
    (List.disjoint_of_nodup_append hnodup) hp List.mem_cons_self
  have hout : ∀ j, j ≠ i → p ∉ w j := fun j hj => h.disjoint (Ne.symm hj) hmem
  -- both branches store the same pointers
  have hresult : osTmrUnlink s p = some
      { s.put p { s.tmrTbl p with tmrState := .stopped } with
        links := drop s.links p
        tmrFirst := Function.update s.tmrFirst i
          (if l₁ = [] then s.links.pnext p else s.tmrFirst i)
        tmrEntries := Function.update s.tmrEntries i (s.tmrEntries i - 1) } := by
    have hpprev := hline.pprev_eq
    unfold osTmrUnlink drop
    rw [hi]
    by_cases hl₁ : l₁ = []
    · rw [if_pos ((hline.first_iff hnodup).2 hl₁), if_pos hl₁]
      subst hl₁
      rw [hpprev]
      rfl
    · rw [if_neg fun hfirst => hl₁ ((hline.first_iff hnodup).1 hfirst), if_neg hl₁,
        Function.update_eq_self]
      obtain ⟨c, hc⟩ : ∃ c, s.links.pprev p = some c := by
        rw [hpprev, List.getLast?_eq_some_getLast hl₁]
        exact ⟨_, rfl⟩
      rw [hc]
      rfl
  refine ⟨_, hresult, ?_, ?_, put_self s p _⟩
  · have hnext := hline.pnext_eq
    have hprev := hline.pprev_eq
    refine ⟨fun j => ?_, fun j => (h.nodup j).erase p, fun j q => ?_, ?_, h.free_nodup,
      fun q => ?_, fun j => ?_, h.tmrFree, h.tmrUsed⟩
    · by_cases hj : j = i
      · subst hj
        have hgone := hline.drop hnodup fun b _ hb => by cases hb
        show Line _ _ (Function.update s.tmrFirst j _ j) _
        rw [Function.update_self, hsplit, List.erase_append_right _ hp₁, List.erase_cons_head]
        exact hgone
      · show Line _ _ (Function.update s.tmrFirst i _ j) _
        rw [Function.update_of_ne hj, List.erase_of_not_mem (hout j hj)]
        refine (h.line j).drop_frame (hout j hj) (fun b hb hpb => ?_) fun b hb hpb => ?_
        · rw [hnext] at hpb
          have hbi : b ∈ w i := by
            rw [hsplit]
            exact List.mem_append_right l₁ (List.mem_cons_of_mem p (List.mem_of_head? hpb))
          exact h.disjoint (Ne.symm hj) hbi hb
        · rw [hprev, Option.or_none] at hpb
          have hbi : b ∈ w i := by
            rw [hsplit]
            exact List.mem_append_left _ (List.mem_of_getLast? hpb)
          exact h.disjoint (Ne.symm hj) hbi hb
    · rw [(h.nodup j).mem_erase_iff, h.mem j q]
      by_cases hq : q = p
      · subst hq
        rw [show (_ : Timers).tmrTbl q = _ from put_self s q _]
        exact ⟨fun hne => absurd rfl hne.1, fun hstop => by cases hstop.1⟩
      · rw [show (_ : Timers).tmrTbl q = _ from put_other s _ hq]
        exact and_iff_right hq
    · refine h.path.congr fun b hb => ?_
      have hbp : b ≠ p := fun hbp => h.not_free hmem (hbp ▸ hb)
      rw [drop_pnext, if_neg hbp, if_neg]
      intro hpb
      rw [hprev, Option.or_none] at hpb
      have hbi : b ∈ w i := by
        rw [hsplit]
        exact List.mem_append_left _ (List.mem_of_getLast? hpb)
      exact h.not_free hbi hb
    · by_cases hq : q = p
      · subst hq
        rw [show (_ : Timers).tmrTbl q = _ from put_self s q _]
        exact ⟨fun hfree => absurd hfree (h.not_free hmem), fun hstop => by cases hstop⟩
      · rw [show (_ : Timers).tmrTbl q = _ from put_other s _ hq]
        exact h.free q
    · show (Function.update s.tmrEntries i _ j).toNat = _
      by_cases hj : j = i
      · subst hj
        have hlen := h.entries j
        have hpos := List.length_pos_of_mem hmem
        have hone : (1 : UInt16) ≤ s.tmrEntries j := by
          rw [UInt16.le_iff_toNat_le, hlen]
          exact hpos
        rw [Function.update_self, UInt16.toNat_sub_of_le _ _ hone, hlen,
          List.length_erase_of_mem hmem]
        rfl
      · rw [Function.update_of_ne hj, List.erase_of_not_mem (hout j hj)]
        exact h.entries j
  · refine ⟨rfl, fun q hq => put_other s _ hq, fun j l hl hw => ?_⟩
    obtain ⟨t, ht⟩ := hw
    rw [← ht]
    by_cases hpt : p ∈ t
    · rw [List.erase_append_left _ hpt]
      exact List.suffix_append _ _
    · rw [List.erase_append_right _ hpt, List.erase_of_not_mem hl]
      exact List.suffix_append _ _

/-! ## Linking -/

/-- Both branches store the same pointers, and an empty spoke has no entries. -/
theorem linkSpoke_eq {i : ℕ} (hempty : s.tmrFirst i = none → s.tmrEntries i = 0) :
    linkSpoke s p i =
      { s with
        links := NullList.push s.links (s.tmrFirst i) p
        tmrFirst := Function.update s.tmrFirst i (some p)
        tmrEntries := Function.update s.tmrEntries i (s.tmrEntries i + 1) } := by
  unfold linkSpoke
  cases hfirst : s.tmrFirst i with
  | none =>
    rw [hempty hfirst]
    rfl
  | some ptmr1 => rfl

/-- `OSTmr_Link` puts a timer that is in no list in front of its spoke. -/
theorem link (h : Wheel s w f) (hrun : (s.tmrTbl p).tmrState ≠ .running)
    (hunused : (s.tmrTbl p).tmrState ≠ .unused) (periodic : Bool) :
    ∃ w', Wheel (osTmrLink s p periodic) w' f ∧ Only p s (osTmrLink s p periodic) w w' ∧
      (osTmrLink s p periodic).tmrTbl p =
        { s.tmrTbl p with tmrState := .running, tmrMatch := linkMatch s p periodic } := by
  generalize hm : linkMatch s p periodic = m
  generalize hi : spoke m = i
  have hout : ∀ j, p ∉ w j := fun j hp => hrun ((h.mem j p).1 hp).1
  have hresult : osTmrLink s p periodic =
      { s.put p { s.tmrTbl p with tmrState := .running, tmrMatch := m } with
        links := NullList.push s.links (s.tmrFirst i) p
        tmrFirst := Function.update s.tmrFirst i (some p)
        tmrEntries := Function.update s.tmrEntries i (s.tmrEntries i + 1) } := by
    have hempty : s.tmrFirst i = none → s.tmrEntries i = 0 := fun hfirst => by
      have hlen := h.entries i
      rw [(h.line i).first_eq] at hfirst
      rw [List.head?_eq_none_iff.1 hfirst] at hlen
      exact UInt16.toNat_inj.1 hlen
    unfold osTmrLink
    dsimp only
    rw [hm, hi]
    exact linkSpoke_eq hempty
  refine ⟨Function.update w i (p :: w i), ?_, ?_, ?_⟩
  · rw [hresult]
    refine ⟨fun j => ?_, fun j => ?_, fun j q => ?_, ?_, h.free_nodup, fun q => ?_, fun j => ?_,
      h.tmrFree, h.tmrUsed⟩
    · show Line _ _ (Function.update s.tmrFirst i _ j) _
      by_cases hj : j = i
      · subst hj
        rw [Function.update_self, Function.update_self]
        exact (h.line j).push (hout j) (h.nodup j)
      · rw [Function.update_of_ne hj, Function.update_of_ne hj]
        refine (h.line j).push_frame (hout j) fun b hb hfirst => ?_
        rw [(h.line i).first_eq] at hfirst
        exact h.disjoint (Ne.symm hj) (List.mem_of_head? hfirst) hb
    · by_cases hj : j = i
      · subst hj
        rw [Function.update_self]
        exact List.nodup_cons.2 ⟨hout j, h.nodup j⟩
      · rw [Function.update_of_ne hj]
        exact h.nodup j
    · by_cases hq : q = p
      · subst hq
        rw [show (_ : Timers).tmrTbl q = _ from put_self s q _]
        by_cases hj : j = i
        · subst hj
          rw [Function.update_self]
          exact ⟨fun _ => ⟨rfl, hi⟩, fun _ => List.mem_cons_self⟩
        · rw [Function.update_of_ne hj]
          exact ⟨fun hmem => absurd hmem (hout j), fun hspoke => absurd (hi.symm.trans hspoke.2)
            (Ne.symm hj)⟩
      · rw [show (_ : Timers).tmrTbl q = _ from put_other s _ hq, ← h.mem j q]
        by_cases hj : j = i
        · subst hj
          rw [Function.update_self, List.mem_cons]
          exact or_iff_right hq
        · rw [Function.update_of_ne hj]
    · refine h.path.congr fun b hb => ?_
      have hbp : b ≠ p := fun hbp => hunused ((h.free p).1 (hbp ▸ hb))
      rw [push_pnext, if_neg hbp]
    · by_cases hq : q = p
      · subst hq
        rw [show (_ : Timers).tmrTbl q = _ from put_self s q _]
        exact ⟨fun hfree => absurd ((h.free q).1 hfree) hunused, fun hrun => by cases hrun⟩
      · rw [show (_ : Timers).tmrTbl q = _ from put_other s _ hq]
        exact h.free q
    · show (Function.update s.tmrEntries i _ j).toNat = _
      by_cases hj : j = i
      · subst hj
        have hlen := length_le (w j) (h.nodup j)
        rw [Function.update_self, Function.update_self, UInt16.toNat_add, h.entries j,
          List.length_cons]
        show ((w j).length + 1) % 65536 = _
        omega
      · rw [Function.update_of_ne hj, Function.update_of_ne hj]
        exact h.entries j
  · rw [hresult]
    refine ⟨rfl, fun q hq => put_other s _ hq, fun j l _ hw => ?_⟩
    by_cases hj : j = i
    · subst hj
      rw [Function.update_self]
      exact hw.trans (List.suffix_cons p (w j))
    · rw [Function.update_of_ne hj]
      exact hw
  · rw [hresult]
    exact put_self s p _

/-! ## The free timers -/

/-- `OSTmrCreate` with a free timer. -/
theorem create (h : Wheel s w (p :: f)) (dly period : UInt32) (opt : TmrOpt)
    (callback : Option ℕ) (callbackArg : ℕ) :
    ∃ s', osTmrCreate s dly period opt callback callbackArg = (s', some p, .none) ∧
      Wheel s' w f ∧ Only p s s' w w ∧
      s'.tmrTbl p =
        ⟨.stopped, opt, dly, period, (s.tmrTbl p).tmrMatch, callback, callbackArg⟩ := by
  have hunused : (s.tmrTbl p).tmrState = .unused := (h.free p).1 List.mem_cons_self
  have hout : ∀ j, p ∉ w j := fun j hp => h.not_free hp List.mem_cons_self
  obtain ⟨hpf, hnodup⟩ := List.nodup_cons.1 h.free_nodup
  have halloc : osTmrAlloc s = some (p,
      { s with
        tmrFreeList := s.links.pnext p
        links := (s.links.setPnext p none).setPprev p none
        tmrUsed := s.tmrUsed + 1
        tmrFree := s.tmrFree - 1 }) := by
    have hfirst := h.path.first_eq
    unfold osTmrAlloc
    rw [hfirst]
    rfl
  unfold osTmrCreate
  rw [halloc]
  refine ⟨_, rfl, ?_, ⟨rfl, fun q hq => put_other _ _ hq, fun _ _ _ hl => hl⟩, put_self _ p _⟩
  refine ⟨fun j => ?_, h.nodup, fun j q => ?_, ?_, hnodup, fun q => ?_, h.entries, ?_, ?_⟩
  · refine (h.line j).congr fun b hb => ?_
    have hbp : b ≠ p := fun hbp => hout j (hbp ▸ hb)
    show ((s.links.setPnext p none).setPprev p none).pnext b = _ ∧
      ((s.links.setPnext p none).setPprev p none).pprev b = _
    rw [Links.setPprev_pnext, Links.setPnext_pnext, Links.setPprev_pprev, if_neg hbp, if_neg hbp]
    exact ⟨rfl, rfl⟩
  · by_cases hq : q = p
    · rw [hq, show (_ : Timers).tmrTbl p = _ from put_self _ p _]
      exact ⟨fun hmem => absurd hmem (hout j), fun hrun => by cases hrun.1⟩
    · rw [show (_ : Timers).tmrTbl q = _ from put_other _ _ hq]
      exact h.mem j q
  · refine h.path.2.congr fun b hb => ?_
    have hbp : b ≠ p := fun hbp => hpf (hbp ▸ hb)
    show ((s.links.setPnext p none).setPprev p none).pnext b = _
    rw [Links.setPprev_pnext, Links.setPnext_pnext, if_neg hbp]
  · by_cases hq : q = p
    · rw [hq, show (_ : Timers).tmrTbl p = _ from put_self _ p _]
      exact ⟨fun hmem => absurd hmem hpf, fun hstop => by cases hstop⟩
    · rw [show (_ : Timers).tmrTbl q = _ from put_other _ _ hq]
      show q ∈ f ↔ (s.tmrTbl q).tmrState = .unused
      rw [← h.free q, List.mem_cons]
      exact (or_iff_right hq).symm
  · have hfree := h.tmrFree
    rw [List.length_cons] at hfree
    have hone : (1 : UInt16) ≤ s.tmrFree := by
      rw [UInt16.le_iff_toNat_le, hfree]
      exact Nat.le_add_left 1 f.length
    show (s.tmrFree - 1).toNat = _
    rw [UInt16.toNat_sub_of_le _ _ hone, hfree]
    rfl
  · have hused := h.tmrUsed
    rw [List.length_cons, osTmrCfgMax] at hused
    show (s.tmrUsed + 1).toNat + f.length = osTmrCfgMax
    rw [UInt16.toNat_add, osTmrCfgMax]
    show (s.tmrUsed.toNat + 1) % 65536 + f.length = 16
    omega

/-- `OSTmrCreate` when no timer is free. -/
theorem create_none (h : Wheel s w []) (dly period : UInt32) (opt : TmrOpt)
    (callback : Option ℕ) (callbackArg : ℕ) :
    osTmrCreate s dly period opt callback callbackArg = (s, none, .nonAvail) := by
  have halloc : osTmrAlloc s = none := by
    have hfirst := h.path.first_eq
    unfold osTmrAlloc
    rw [hfirst]
    rfl
  unfold osTmrCreate
  rw [halloc]

/-- `OSTmr_Free` of a timer that is in no list. -/
theorem release (h : Wheel s w f) (hrun : (s.tmrTbl p).tmrState ≠ .running)
    (hunused : (s.tmrTbl p).tmrState ≠ .unused) :
    Wheel (osTmrFree s p) w (p :: f) ∧ Only p s (osTmrFree s p) w w ∧
      (osTmrFree s p).tmrTbl p =
        { s.tmrTbl p with
          tmrState := .unused
          tmrOpt := .none
          tmrPeriod := 0
          tmrMatch := 0
          tmrCallback := none
          tmrCallbackArg := 0 } := by
  have hout : ∀ j, p ∉ w j := fun j hp => hrun ((h.mem j p).1 hp).1
  have hpf : p ∉ f := fun hp => hunused ((h.free p).1 hp)
  have hlen := length_le (p :: f) (List.nodup_cons.2 ⟨hpf, h.free_nodup⟩)
  rw [List.length_cons] at hlen
  have hother : ∀ q, q ≠ p → (osTmrFree s p).tmrTbl q = s.tmrTbl q :=
    fun q hq => put_other s _ hq
  have hself : (osTmrFree s p).tmrTbl p = _ := put_self s p _
  refine ⟨?_, ⟨rfl, hother, fun _ _ _ hl => hl⟩, hself⟩
  refine ⟨fun j => ?_, h.nodup, fun j q => ?_, ?_, List.nodup_cons.2 ⟨hpf, h.free_nodup⟩,
    fun q => ?_, h.entries, ?_, ?_⟩
  · refine (h.line j).congr fun b hb => ?_
    have hbp : b ≠ p := fun hbp => hout j (hbp ▸ hb)
    show ((s.links.setPprev p none).setPnext p s.tmrFreeList).pnext b = _ ∧
      ((s.links.setPprev p none).setPnext p s.tmrFreeList).pprev b = _
    rw [Links.setPnext_pnext, Links.setPnext_pprev, Links.setPprev_pprev, if_neg hbp, if_neg hbp]
    exact ⟨rfl, rfl⟩
  · by_cases hq : q = p
    · rw [hq, hself]
      exact ⟨fun hmem => absurd hmem (hout j), fun hstate => by cases hstate.1⟩
    · rw [hother q hq]
      exact h.mem j q
  · refine ⟨rfl, ?_⟩
    have hnext : (osTmrFree s p).links.pnext p = s.tmrFreeList := by
      show ((s.links.setPprev p none).setPnext p s.tmrFreeList).pnext p = _
      rw [Links.setPnext_pnext, if_pos rfl]
    rw [hnext]
    refine h.path.congr fun b hb => ?_
    have hbp : b ≠ p := fun hbp => hpf (hbp ▸ hb)
    show ((s.links.setPprev p none).setPnext p s.tmrFreeList).pnext b = _
    rw [Links.setPnext_pnext, if_neg hbp, Links.setPprev_pnext]
  · by_cases hq : q = p
    · rw [hq, hself]
      exact ⟨fun _ => rfl, fun _ => List.mem_cons_self⟩
    · rw [hother q hq, ← h.free q, List.mem_cons]
      exact or_iff_right hq
  · show (s.tmrFree + 1).toNat = _
    rw [UInt16.toNat_add, h.tmrFree, List.length_cons]
    show (f.length + 1) % 65536 = f.length + 1
    omega
  · have hused := h.tmrUsed
    have hone : (1 : UInt16) ≤ s.tmrUsed := by
      rw [UInt16.le_iff_toNat_le]
      show 1 ≤ s.tmrUsed.toNat
      rw [osTmrCfgMax] at hused
      omega
    show (s.tmrUsed - 1).toNat + _ = _
    rw [UInt16.toNat_sub_of_le _ _ hone, List.length_cons]
    show s.tmrUsed.toNat - 1 + (f.length + 1) = _
    rw [← hused]
    have hpos : 1 ≤ s.tmrUsed.toNat := UInt16.le_iff_toNat_le.1 hone
    omega

end Wheel

end NuAgent.Timer
